import LogRules.Proofs.Compounds

/-!
Every accepted expression is read back from its text: what parsing makes of the lexemes is the same
tree up to places and to signs that have become a part of their numbers.
-/
namespace LogRules

open Parse Grammar

namespace Expr

section Calls

variable {env : Env} {room : Nat} {site : Site}

/-- How an argument is read back. -/
def ArgBack (named : Bool) (entry : String × Expr) (arg : Typing.RawArg) : Prop :=
  arg.name = (if named then some entry.1 else none) ∧ arg.value.Rereads entry.2

theorem reads_argument (named : Bool) (entry : String × Expr) (h : Legible env entry.2)
    (hstart : entry.2.startsNot = false) (hroom : entry.2.levels < room) :
    Reads (argument (nested env room)) (Piece.lexemes (argPieces named entry))
      (fun l => l = .symbol .comma ∨ l = .symbol .rightParen) (ArgBack named entry) := by
  have hvalue (name : Option String) (hname : name = if named then some entry.1 else none) :
      Reads (do return (⟨name, ← (nested env room).expression⟩ : Typing.RawArg)) entry.2.lexemes
        (fun l => l = .symbol .comma ∨ l = .symbol .rightParen) (ArgBack named entry) :=
    ((h.reads_expression hstart room hroom).imp (fun l hl => endsLevel_item (.inl rfl) hl)
      fun _ h => h).map fun found hfound => ⟨hname, hfound⟩
  cases named with
  | true =>
    have hlexemes : Piece.lexemes (argPieces true entry) =
        identifierLexeme entry.1 :: .symbol .colon :: entry.2.lexemes := by
      simp [argPieces, lexemes, Piece.symbol]
    rw [hlexemes]
    refine .peekSecond ?_
    rintro _ rfl
    rw [if_pos rfl]
    cases identifierLexeme_cases entry.1 with
    | inl hl =>
      rw [hl]
      exact .peek (.advance (by simp) (.advance (by simp) (hvalue _ rfl)))
    | inr hl =>
      rw [hl]
      exact .peek (.advance (by simp) (.advance (by simp) (hvalue _ rfl)))
  | false =>
    obtain ⟨l, ps, hl⟩ := h.opening
    have hlexemes : Piece.lexemes (argPieces false entry) = l :: Piece.lexemes ps := by
      simpa [argPieces, lexemes] using hl.lexemes_eq
    have hvalue := hvalue none rfl
    rw [hl.lexemes_eq] at hvalue
    rw [hlexemes]
    refine .peekSecond fun second hsecond => ?_
    have hcolon : second ≠ .symbol .colon := by
      have hnone := hl.colon
      cases hmore : Piece.lexemes ps with
      | nil =>
        rw [hmore] at hsecond
        obtain rfl | rfl := hsecond <;> simp
      | cons l' more =>
        rw [hmore] at hsecond hnone
        obtain rfl : second = l' := hsecond
        simpa using hnone
    rw [if_neg hcolon]
    exact hvalue

/-- Arguments that are read back make the same call. -/
theorem call_of_argsBack {name : String} {target : Function} {args : List (String × Expr)}
    {named : Bool} {raw : List Typing.RawArg} (hfind : env.registry.find? name = some target)
    (htype : site.type = target.descriptor.returns)
    (hnamed : Typing.isNamed (Typing.rawArgs named args) = named)
    (hbound : Typing.boundArgs target (Typing.rawArgs named args) = args)
    (hclean : (Typing.call env.registry env.inCondition name (Typing.rawArgs named args)
      .nowhere).errors = [])
    (hraw : List.Forall₂ (ArgBack named) args raw) (p : Position) :
    (Typing.call env.registry env.inCondition name raw p).errors = [] ∧
      (Typing.call env.registry env.inCondition name raw p).expr.Rereads
        (.call site name target args named true) := by
  have hsame : raw.map (Typing.RawArg.mapValue unplaced) =
      (Typing.rawArgs named args).map (Typing.RawArg.mapValue fun e => e.foldSigns.unplaced) := by
    clear hnamed hbound hclean
    induction hraw with
    | nil => rfl
    | @cons entry arg args raw hfirst hrest ih =>
      obtain ⟨name, value⟩ := arg
      obtain ⟨hname, hvalue⟩ := hfirst
      have hvalue : value.unplaced = entry.2.foldSigns.unplaced := hvalue
      rw [Typing.rawArgs, List.map_cons, List.map_cons, List.map_cons, ih, Typing.rawArgs,
        Typing.RawArg.mapValue, Typing.RawArg.mapValue, hvalue]
      congr
  have hisNamed : Typing.isNamed raw = named := by
    rw [← Typing.isNamed_mapValue unplaced, hsame, Typing.isNamed_mapValue, hnamed]
  have hboundSame : Typing.mapArgs unplaced (Typing.boundArgs target raw) =
      Typing.mapArgs (fun e => e.foldSigns.unplaced) args := by
    rw [← Typing.boundArgs_mapValue, hsame, Typing.boundArgs_mapValue, hbound]
  constructor
  · rw [← Typing.call_mapValue p p (g := unplaced) (by simp) hfind, hsame,
      Typing.call_mapValue .nowhere p (by simp) hfind]
    exact hclean
  · rw [Typing.call_expr p hfind, hisNamed, Rereads, foldSigns, unplaced, unplaced,
      unplacedEntries_map, unplacedEntries_map, foldEntries_eq, List.map_map, htype]
    exact congrArg (call _ name target · named true) hboundSame

theorem leads_call {name : String} {target : Function} {args : List (String × Expr)}
    {named : Bool} (hcallable : isCallable (.call site name target args named true) = true)
    (hfind : env.registry.find? name = some target)
    (htype : site.type = target.descriptor.returns)
    (hargs : ∀ entry ∈ args, Legible env entry.2)
    (hnamed : Typing.isNamed (Typing.rawArgs named args) = named)
    (hbound : Typing.boundArgs target (Typing.rawArgs named args) = args)
    (hclean : (Typing.call env.registry env.inCondition name (Typing.rawArgs named args)
      .nowhere).errors = [])
    (hstart : ∀ e ∈ args.map (·.2), e.startsNot = false)
    (hroom : levels (.call site name target args named true) ≤ room) :
    Leads env (nested env room) 9 (lexemes (.call site name target args named true))
      (·.Rereads (.call site name target args named true)) := by
  have hlexemes : lexemes (.call site name target args named true) =
      .name name :: .symbol .leftParen :: ([.symbol .comma].intercalate
        (args.map fun entry => Piece.lexemes (argPieces named entry)) ++
          [.symbol .rightParen]) := by
    simp only [lexemes, pieces, piecesArgs_eq, Piece.symbol, Piece.lexemes_token,
      Piece.lexemes_append, lexemes_separated, List.map_map, Piece.lexemes_nil]
    rfl
  have harg : ∀ entry ∈ args, Reads (argument (nested env room))
      (Piece.lexemes (argPieces named entry))
      (fun l => l = .symbol .comma ∨ l = .symbol .rightParen) (ArgBack named entry) := by
    intro entry hentry
    have hvalue : entry.2 ∈ args.map (·.2) := List.mem_map_of_mem hentry
    have hlevels : entry.2.levels + 1 < room + 1 :=
      (nestingEntries_lt (Nat.succ_pos room)).mp (Nat.lt_succ_of_le hroom) entry.2 hvalue
    exact reads_argument named entry (hargs entry hentry) (hstart entry.2 hvalue)
      (Nat.lt_of_succ_lt_succ hlevels)
  have hfirst : ∀ entry ∈ args, ∃ l more,
      Piece.lexemes (argPieces named entry) = l :: more ∧ l ≠ .symbol .rightParen := by
    intro entry hentry
    obtain ⟨l, ps, hl⟩ := (hargs entry hentry).opening
    cases named with
    | true =>
      refine ⟨identifierLexeme entry.1, _, rfl, ?_⟩
      obtain h | h := identifierLexeme_cases entry.1 <;> simp [h]
    | false =>
      refine ⟨l, Piece.lexemes ps, ?_, hl.ne_symbol rfl⟩
      simpa [argPieces, lexemes] using hl.lexemes_eq
  obtain ⟨htrue, hfalse⟩ : Lexeme.sameWord name "true" = false ∧
      Lexeme.sameWord name "false" = false := by
    simpa [isCallable] using hcallable
  rw [hlexemes]
  refine leads_primary (fun _ => True) (.here fun p => .peek (.here fun q => ?_)) fun _ _ => trivial
  rw [if_neg (by simp [htrue]), if_neg (by simp [hfalse])]
  refine .peekSecond ?_
  rintro _ rfl
  rw [if_pos rfl]
  refine .here fun p => .advance (by simp) ?_
  refine (reads_expect .leftParen _).bind (fun _ _ => trivial) fun _ _ => ?_
  intro tokens rest hls hends
  obtain ⟨raw, hreply, hraw⟩ := reads_separated harg hfirst (by decide) "',' or ')'" tokens rest hls
    trivial
  obtain ⟨hchecked, hrereads⟩ := call_of_argsBack hfind htype hnamed hbound hclean hraw p
  exact ⟨_, (bind_eq hreply).trans (accept_of_clean hchecked rest), hrereads⟩

end Calls

section Clean

variable {callable : String → Prop} {env : Env} {e : Expr}

theorem legible_of_leads (h : Clean callable env e) (hdepth : e.depth ≤ maxNesting)
    (hleads : ∀ room, e.levels ≤ room →
      Leads env (nested env room) (min 9 e.precedence) e.lexemes (·.Rereads e)) :
    Legible env e := by
  obtain ⟨l, ps, hopening⟩ := exists_opening h
  exact ⟨⟨l, ps, hopening⟩, hdepth,
    fun room hroom => leadsBack_of_top hopening rfl (hleads room hroom)⟩

/-- Every expression without errors whose calls are read as calls is read back from its text. -/
theorem legible_of_clean (h : Clean callable env e) (hplaced : e.Placed)
    (hdepth : e.depth ≤ maxNesting) : Legible env e := by
  induction e using children_induction with
  | h e ih =>
    obtain ⟨hcallable, hstart⟩ := hplaced.self
    have hchild : ∀ child ∈ e.children, Legible env child := fun child hchild =>
      ih child hchild (h.child hchild) (hplaced.child hchild)
        ((depth_child_lt hchild).le.trans hdepth)
    refine legible_of_leads h hdepth fun room hroom => ?_
    cases h with
    | literal site value hvalue htype => exact leads_literal hvalue htype
    | array site items htype hitems => exact leads_array htype hchild hstart hroom
    | map site entries htype hentries =>
      exact leads_map htype (fun entry hentry => hchild entry.2 (List.mem_map_of_mem hentry)) hstart
        hroom
    | var site name hname hscope => exact leads_var hname hscope
    | field site name htype hname => exact leads_field htype
    | access site object name htype hname hobject hclean =>
      exact leads_access htype (hchild object (by simp [children])) hclean hdepth hstart hroom
    | index site object key htype hobject hkey hclean =>
      exact leads_index htype (hchild object (by simp [children])) (hchild key (by simp [children]))
        hclean hdepth hstart hroom
    | not site operand htype hoperand hclean =>
      have hoperandStart : operand.startsNot = false := hstart operand (by simp [looseParts])
      exact leads_not htype (hchild operand (by simp [children])) hclean hoperandStart hroom
    | signed site op operand hop htype hoperand hclean =>
      have hlevel : min 9 (precedence (.unary site op operand)) = 8 := by
        cases op with
        | not => exact absurd rfl hop
        | negate => rfl
        | plus => rfl
      rw [hlevel]
      exact leads_signed hop htype hoperand (hchild operand (by simp [children])) hclean hstart
        hroom
    | binary site op left right htype hleft hright hclean =>
      have hlevel : min 9 (precedence (.binary site op left right)) = op.precedence := by
        cases op <;> rfl
      rw [hlevel]
      exact leads_binary htype (hchild left (by simp [children]))
        (hchild right (by simp [children])) hclean hdepth hstart hroom
    | call site name target args named hname hfind htype hargs hparams hnamed hbound hclean =>
      exact leads_call hcallable hfind htype
        (fun entry hentry => hchild entry.2 (List.mem_map_of_mem hentry)) hnamed hbound hclean
        hstart hroom

/-- Every accepted expression is read back from its text. -/
theorem legible_of_accepted (h : Accepted env e) (hdepth : e.depth ≤ maxNesting) : Legible env e :=
  legible_of_clean h (placed_of_accepted h) hdepth

/-- With twice the room that trees may be deep there is enough for every text. -/
theorem reads_of_accepted (h : Accepted env e) (hdepth : e.depth ≤ maxNesting) :
    Reads (nested env (2 * maxNesting)).expression e.lexemes (·.EndsLevel 0) (·.Rereads e) :=
  (legible_of_accepted h hdepth).reads_expression (startsNot_of_accepted h) _
    (e.levels_lt.trans_le (Nat.mul_le_mul_left 2 hdepth))

end Clean

end Expr

end LogRules

import LogRules.Proofs.Findings
import LogRules.Proofs.Operands
import LogRules.Proofs.Phrases

/-!
Phrases are taken for what they are. Before something that does not go on with it, a phrase is
consumed to its end, and the tree that is built is the one that it derives, whatever the checks
report on the way.
-/
namespace LogRules.Grammar

open Parse

variable {env : Env} {room j k : Nat} {l : Lexeme} {ls ls' : List Lexeme} {s t : Expr}
  {ends : Lexeme → Prop}

/-- What may follow a phrase of a level where operators of another are still read: either it goes on
with nothing that binds more tightly, or it goes on with no such phrase at all. -/
def Follows (registry : Registry) (j k : Nat) (ls : List Lexeme) (l : Lexeme) : Prop :=
  l.EndsLevel j ∨ ¬ Continues registry k ls l

/-- A level stands in its loop, with fuel for all that follows, and has built a tree. -/
def Arrived (env : Env) (room k : Nat) (t : Expr) (rest more : List Token) (result : Option Expr) :
    Prop :=
  ∃ left fuel, rest.length ≤ fuel ∧ left.bare = t ∧
    (levelLoop env (nested env room) k fuel left rest).rest = more ∧
    (levelLoop env (nested env room) k fuel left rest).result = result

/-- Behind the phrase a level stands in its loop and has built the tree that the phrase derives.
Levels from that of signs on are entered in one place. -/
def Enters (env : Env) (room k : Nat) (ls : List Lexeme) (t : Expr) : Prop :=
  Finds (level env (nested env room) (min k 8)) ls (Follows env.registry k k ls)
    (Arrived env room k t)

theorem endsLevel_of_binary? {op : BinaryOp} (h : l.binary? = some op) :
    l.EndsLevel op.precedence := by
  refine ⟨fun j hj => Option.eq_none_iff_forall_not_mem.mpr fun other hother => ?_, ?_, ?_⟩
  · obtain ⟨hbinary, rfl⟩ := operatorAt?_eq_some.mp hother
    obtain rfl : op = other := Option.some.inj (h.symm.trans hbinary)
    exact Nat.lt_irrefl _ hj
  · rintro -
    constructor
    · rintro rfl
      cases h
    · rintro rfl
      cases h
  · rintro rfl
    cases h

/-- The loop of a level is over where nothing goes on with what was read. -/
theorem levelLoop_over {deeper : Deeper Parse} {rest : List Token}
    (h : Phrase env.registry room k ls t) (hfollows : Follows env.registry j k ls (tokenAt 0 rest))
    (hj : j < k ∨ k = 3 ∨ k = 8) (hk : k ≤ 9) (fuel : Nat) (left : Expr) :
    levelLoop env deeper k fuel left rest = ⟨[], rest, some left⟩ := by
  obtain hends | hends := hfollows
  · exact levelLoop_of_ends hends hj hk fuel left
  rw [levelLoop]
  split
  · next hk =>
    subst hk
    refine postfixLoop_of_ends (fun hdot => hends ?_) (fun hbracket => hends ?_) fuel left
    · rw [hdot]
      exact .dot h
    · rw [hbracket]
      exact .bracket h
  · -- an operator of the level would go on with a number behind it
    refine chainLoop_of_none (Option.eq_none_iff_forall_not_mem.mpr fun op hop => ?_) fuel left
    obtain ⟨hbinary, hprecedence⟩ := operatorAt?_eq_some.mp hop
    exact hends (.of_binary h hbinary hprecedence)

/-- What follows a phrase is read in the loop of the level. -/
theorem Enters.andThen {goal : List Token → List Token → Option Expr → Prop}
    (h : Enters env room k ls s) (hnext : ∀ l, First ends ls' l → Follows env.registry k k ls l)
    (hloop : ∀ left fuel, left.bare = s →
      Finds (levelLoop env (nested env room) k fuel left) ls' ends fun rest more result =>
        ls'.length + rest.length ≤ fuel → goal rest more result) :
    Finds (level env (nested env room) (min k 8)) (ls ++ ls') ends goal := by
  intro tokens rest hls hends
  obtain ⟨before, behind, rfl, hbefore, hbehind⟩ := List.map_eq_append_iff.mp hls
  have hfirst : First ends ls' (tokenAt 0 (behind ++ rest)) := first_tokenAt ends hbehind hends
  obtain ⟨left, fuel, hfuel, hleft, hmore, hresult⟩ :=
    h before (behind ++ rest) hbefore (hnext _ hfirst)
  rw [List.append_assoc, ← hmore, ← hresult]
  refine hloop left fuel hleft behind rest hbehind hends ?_
  rwa [← hbehind, List.length_map, ← List.length_append]

/-- A phrase is taken whole where its level does not go on. -/
theorem Enters.takes (h : Enters env room k ls t) (hphrase : Phrase env.registry room k ls t)
    (hle : j ≤ k) (hj : j < k ∨ k = 3 ∨ k = 8) (hk : k ≤ 9) :
    Takes (level env (nested env room) (min k 8)) ls (Follows env.registry j k ls)
      (·.bare = t) := by
  intro tokens rest hls hfollows
  obtain ⟨left, fuel, -, hleft, hmore, hresult⟩ :=
    h tokens rest hls (hfollows.imp_left fun hends => hends.mono hle)
  rw [levelLoop_over hphrase hfollows hj hk fuel left] at hmore hresult
  rw [← hmore, ← hresult]
  exact ⟨rfl, left, rfl, hleft⟩

/-- A construct that was built is checked, and a loop goes on with it. -/
theorem finds_step {checked : Checked} {next : Expr → Parse Expr}
    {goal : List Token → List Token → Option Expr → Prop}
    (hdepth : checked.expr.depth ≤ maxNesting) (h : Finds (next checked.expr) ls ends goal) :
    Finds (do next (← checkDepth (← accept checked))) ls ends goal := by
  intro tokens rest hls hends
  have haccept : (accept checked (tokens ++ rest)).result = some checked.expr := rfl
  obtain ⟨hmore, hresult⟩ := bind_result (f := fun e => do next (← checkDepth e))
    (rfl : (accept checked (tokens ++ rest)).rest = tokens ++ rest) haccept
  rw [hmore, hresult, bind_eq (checkDepth_of_le hdepth _)]
  exact h tokens rest hls hends

theorem takes_accept {checked : Checked} {Q : Expr → Prop} (h : Q checked.expr) :
    Takes (accept checked) [] ends Q := by
  intro tokens rest hls _
  rw [List.map_eq_nil_iff.mp hls]
  exact ⟨rfl, checked.expr, rfl, h⟩

theorem takes_checked {p : Parse Expr} (hp : Takes p ls ends (·.bare = t))
    (hdepth : t.depth ≤ maxNesting) :
    Takes (do checkDepth (← p)) ls ends (·.bare = t) := by
  refine hp.finish (fun _ h => h) fun e he => ?_
  have hle : e.depth ≤ maxNesting := by rwa [← Expr.depth_bare, he]
  intro tokens rest hls _
  rw [List.map_eq_nil_iff.mp hls, checkDepth_of_le hle]
  exact ⟨rfl, e, rfl, he⟩

theorem enters_up (hk : 1 ≤ k) (hk' : k ≤ 8) (hphrase : Phrase env.registry room (k + 1) ls t)
    (hnot : k = 3 → ∀ l ∈ ls.head?, l.isKeyword "not" = false)
    (h : Enters env room (k + 1) ls t) : Enters env room k ls t := by
  intro tokens rest hls hfollows
  have hdown : Follows env.registry k (k + 1) ls (tokenAt 0 rest) :=
    hfollows.imp_right fun hends hgoes => hends (hgoes.up hphrase.ne_nil hnot)
  obtain ⟨hmore, left, hresult, hleft⟩ :=
    h.takes hphrase (Nat.le_succ k) (.inl (Nat.lt_succ_self k)) (by omega) tokens rest hls hdown
  by_cases hchain : IsChain k
  · -- the first operand was just taken, so the loop starts with all that follows as its fuel
    rw [IsChain] at hchain
    have hmin : min (k + 1) 8 = k + 1 ∧ min k 8 = k ∧ k ≠ 9 := by omega
    rw [hmin.1] at hmore hresult
    obtain ⟨hrest, hfound⟩ := bind_result (f := fun first => do
      chainLoop (level env (nested env room) (k + 1)) (operatorAt? k) Typing.join (← remaining)
        first) hmore hresult
    rw [hmin.2.1, level_chain env _ hchain]
    refine ⟨left, rest.length, Nat.le_refl _, hleft, ?_⟩
    rw [levelLoop, if_neg hmin.2.2]
    exact ⟨hrest.symm, hfound.symm⟩
  · have hplain : k = 3 ∨ k = 8 := by
      rw [IsChain] at hchain
      omega
    refine ⟨left, rest.length, Nat.le_refl _, hleft, ?_⟩
    rw [levelLoop_over (.up hphrase hnot) hfollows (.inr hplain) (by omega)]
    obtain rfl | rfl := hplain
    · obtain ⟨l, more, rfl, -, hbang⟩ := hphrase.starts
      obtain ⟨t, tokens, rfl, rfl, -⟩ := List.map_eq_cons_iff.mp hls
      have hequality : level env (nested env room) (min 3 8) (t :: tokens ++ rest) =
          level env (nested env room) (min (3 + 1) 8) (t :: tokens ++ rest) :=
        notLevel_of_first (hnot rfl t.lexeme rfl) (hbang (by omega)) (tokens ++ rest)
      rw [hequality]
      exact ⟨hmore.symm, hresult.symm⟩
    · exact ⟨hmore.symm, hresult.symm⟩

theorem enters_join {op : BinaryOp} {rs : List Lexeme} (hop : l.binary? = some op)
    (hk : op.precedence = k) (hleft : Enters env room k ls s)
    (hright : Enters env room (k + 1) rs t) (left : Phrase env.registry room k ls s)
    (right : Phrase env.registry room (k + 1) rs t)
    (hdepth : (Expr.binary .blank op s t).depth ≤ maxNesting) :
    Enters env room k (ls ++ l :: rs) (.binary .blank op s t) := by
  have hprecedence : k ≤ 7 ∧ k ≠ 3 := by
    rw [← hk]
    cases op <;> decide
  have hmin : min (k + 1) 8 = k + 1 := by omega
  refine hleft.andThen ?_ fun left' fuel hleft' => ?_
  · rintro _ rfl
    exact .inl (hk ▸ endsLevel_of_binary? hop)
  · -- the fuel is for all that follows, so the operator itself leaves a round for the rest
    obtain _ | fuel := fuel
    · exact fun tokens rest _ _ hfuel => absurd hfuel (by simp)
    have hloop : levelLoop env (nested env room) k (fuel + 1) left' =
        chainLoop (level env (nested env room) (k + 1)) (operatorAt? k) Typing.join (fuel + 1)
          left' := if_neg (by omega)
    rw [hloop, chainLoop]
    refine .here fun p => .peek ?_
    rw [operatorAt?_eq_some.mpr ⟨hop, hk⟩]
    refine .advance ?_ ?_
    · rintro rfl
      cases hop
    have hoperand := hright.takes right (Nat.le_succ k) (.inl (Nat.lt_succ_self k)) (by omega)
    rw [hmin] at hoperand
    refine hoperand.finish (fun l' hl' => hl'.imp_right fun hends hgoes =>
      hends (.join hop hk left hgoes)) fun right' hright' => ?_
    have hjoined : (Typing.join op left' right' p).expr.bare = .binary .blank op s t := by
      rw [Typing.bare_join, hleft', hright']
    refine finds_step ?_ fun tokens rest hls _ hfuel => ?_
    · rwa [← Expr.depth_bare, hjoined]
    rw [List.map_eq_nil_iff.mp hls, List.nil_append]
    refine ⟨_, fuel, ?_, hjoined, ?_⟩
    · simp at hfuel
      omega
    · rw [levelLoop, if_neg (by omega)]
      exact ⟨rfl, rfl⟩

/-- Levels that read no operator between operands have no loop to speak of. -/
theorem arrived_of_takes {p : Parse Expr} (hk : k = 3 ∨ k = 8)
    (h : Takes p ls ends (·.bare = t)) : Finds p ls ends (Arrived env room k t) := by
  intro tokens rest hls hends
  obtain ⟨hmore, e, hresult, he⟩ := h tokens rest hls hends
  have hloop : levelLoop env (nested env room) k rest.length e rest = ⟨[], rest, some e⟩ := by
    rw [levelLoop, if_neg (by omega)]
    refine chainLoop_of_none ?_ rest.length e
    obtain rfl | rfl := hk <;> rfl
  refine ⟨e, rest.length, Nat.le_refl _, he, ?_⟩
  rw [hloop]
  exact ⟨hmore.symm, hresult.symm⟩

theorem enters_sign {op : UnaryOp} (hop : Prefixes k l op ls)
    (operand : Phrase env.registry room k ls t) (h : Enters env room k ls t)
    (hdepth : t.depth ≤ maxNesting) :
    Enters env (room + 1) k (l :: ls) (.unary .blank op t) := by
  have hplain : k = 3 ∨ k = 8 := by
    cases hop
    exacts [.inl rfl, .inl rfl, .inr rfl, .inr rfl]
  have hoperand := takes_checked (h.takes operand (Nat.le_refl k) (.inr hplain) (by omega)) hdepth
  have hnext (l' : Lexeme) (hl' : Follows env.registry k k (l :: ls) l') :
      Follows env.registry k k ls l' :=
    hl'.imp_right fun hends hgoes => hends (.sign hop operand.ne_nil hgoes)
  have hnegation (p : Position) (e : Expr) (he : e.bare = t) :
      (Typing.negation p e).expr.bare = .unary .blank .not t := by rw [Typing.bare_negation, he]
  have hsigned (op : UnaryOp) (p : Position) (e : Expr) (he : e.bare = t) :
      (Typing.signed op p e).expr.bare = .unary .blank op t := by rw [Typing.bare_signed, he]
  refine arrived_of_takes hplain ?_
  cases hop with
  | word hword =>
    have hl : l ≠ .eof := by
      rintro rfl
      cases hword
    refine .here fun p => .eatIf hl (by simp [hword]) (hoperand.finish hnext fun e he => ?_)
    exact takes_accept (hnegation p e he)
  | bang =>
    refine .here fun p => .eatIf (by simp) rfl (hoperand.finish hnext fun e he => ?_)
    exact takes_accept (hnegation p e he)
  | plus =>
    obtain ⟨first, more, rfl, -⟩ := operand.starts
    refine .here fun p => .peek (.advance (by simp) (.peek ?_))
    split
    · next hnumber hminus => cases hminus
    · exact hoperand.finish hnext fun e he => takes_accept (hsigned .plus p e he)
  | minus hnumber =>
    obtain ⟨first, more, rfl, -⟩ := operand.starts
    refine .here fun p => .peek (.advance (by simp) (.peek ?_))
    rw [hnumber first rfl]
    exact hoperand.finish hnext fun e he => takes_accept (hsigned .negate p e he)

/-- An expression that stands deeper is taken up to what closes it. -/
theorem takes_expression (h : Phrase env.registry room 1 ls t) (henters : Enters env room 1 ls t)
    (hdepth : t.depth ≤ maxNesting) :
    Takes (nested env (room + 1)).expression ls (Follows env.registry 0 1 ls) (·.bare = t) :=
  takes_checked (henters.takes h (Nat.zero_le 1) (.inl Nat.one_pos) (by omega)) hdepth

/-- The loop of accesses goes on with one of them. -/
theorem arrived_of_step {checked : Checked} {fuel : Nat} (hchecked : checked.expr.bare = t)
    (hdepth : t.depth ≤ maxNesting) (n : Nat) (hn : 0 < n) :
    Finds (do postfixLoop (nested env room) fuel (← checkDepth (← accept checked))) [] ends
      fun rest more result => n + rest.length ≤ fuel + 1 →
        Arrived env room 9 t rest more result := by
  refine finds_step (by rwa [← Expr.depth_bare, hchecked]) fun tokens rest hls _ hfuel => ?_
  rw [List.map_eq_nil_iff.mp hls, List.nil_append]
  exact ⟨checked.expr, fuel, by omega, hchecked, rfl, rfl⟩

theorem enters_access {name : String} (hname : l.identifier? = some name)
    (h : Enters env room 9 ls t) (hdepth : (Expr.access .blank t name).depth ≤ maxNesting) :
    Enters env room 9 (ls ++ [.symbol .dot, l]) (.access .blank t name) := by
  refine h.andThen ?_ fun object fuel hobject => ?_
  · rintro _ rfl
    exact .inl (endsLevel_access (.inl rfl))
  obtain _ | fuel := fuel
  · exact fun tokens rest _ _ hfuel => absurd hfuel (by simp)
  have hloop : levelLoop env (nested env room) 9 (fuel + 1) object =
      postfixLoop (nested env room) (fuel + 1) object := rfl
  rw [hloop, postfixLoop]
  refine .here fun p => .eatIf (by simp) (by simp) ?_
  have hl : l = .name name ∨ l = .quotedName name := by
    cases l <;> simp_all [Lexeme.identifier?]
  refine (reads_expectName hl "field name").takes.finish (fun _ _ => trivial) ?_
  rintro _ rfl
  exact arrived_of_step (by rw [Typing.bare_access, hobject]) hdepth _ (by simp)

theorem enters_index {ks : List Lexeme} {key : Expr} (h : Enters env (room + 1) 9 ls t)
    (hkey : Phrase env.registry room 1 ks key) (henters : Enters env room 1 ks key)
    (hdepth : (Expr.index .blank t key).depth ≤ maxNesting) :
    Enters env (room + 1) 9 (ls ++ .symbol .leftBracket :: (ks ++ [.symbol .rightBracket]))
      (.index .blank t key) := by
  have hdepths : key.depth ≤ maxNesting := by
    rw [Expr.depth] at hdepth
    omega
  refine h.andThen ?_ fun object fuel hobject => ?_
  · rintro _ rfl
    exact .inl (endsLevel_access (.inr rfl))
  obtain _ | fuel := fuel
  · exact fun tokens rest _ _ hfuel => absurd hfuel (by simp)
  have hloop : levelLoop env (nested env (room + 1)) 9 (fuel + 1) object =
      postfixLoop (nested env (room + 1)) (fuel + 1) object := rfl
  rw [hloop, postfixLoop]
  refine .here fun p => .eatIf_not rfl (.eatIf (by simp) (by simp) ?_)
  refine (takes_expression hkey henters hdepths).bind ?_ fun e he => ?_
  · rintro _ rfl
    exact .inl (endsLevel_closing (by simp) 0)
  refine (reads_expect .rightBracket "']'").takes.finish (fun _ _ => trivial) fun _ _ => ?_
  exact arrived_of_step (by rw [Typing.bare_index, hobject, he]) hdepth _ (by simp)

/-- Behind what stands for itself, accesses are read. -/
theorem arrived_of_postfixTail {object : Expr} (hobject : object.bare = t) :
    Finds (postfixTail (nested env room) object) [] ends (Arrived env room 9 t) := by
  intro tokens rest hls _
  rw [List.map_eq_nil_iff.mp hls, List.nil_append]
  exact ⟨object, rest.length, Nat.le_refl _, hobject, rfl, rfl⟩

/-- What needs no operator enters the level of accesses, whose loop reads what stands behind. -/
theorem enters_primary (ends : Lexeme → Prop)
    (hp : Takes (primary env (nested env room)) (l :: ls) ends (·.bare = t))
    (hsign : signOperator? l = none)
    (hends : ∀ l', Follows env.registry 9 9 (l :: ls) l' → ends l') :
    Enters env room 9 (l :: ls) t := by
  intro tokens rest hls hfollows
  have htail : Finds (level env (nested env room) 9) (l :: ls) (Follows env.registry 9 9 (l :: ls))
      (Arrived env room 9 t) :=
    hp.finish hends fun object hobject => arrived_of_postfixTail hobject
  have hfound := htail tokens rest hls hfollows
  obtain ⟨first, more, rfl, rfl, -⟩ := List.map_eq_cons_iff.mp hls
  rw [List.cons_append, ← signLevel_of_first hsign] at hfound
  exact hfound

section Primaries

variable {deeper : Deeper Parse}

theorem finds_named {name : String} {goal : List Token → List Token → Option Expr → Prop}
    (h : Finds (named env deeper name) (.name name :: ls) ends goal) :
    Finds (primary env deeper) (.name name :: ls) ends goal := .here fun _ => .peek h

theorem takes_value {value : Value} (h : l.value? = some value) :
    Takes (primary env deeper) [l] ends (·.bare = .literal .blank value) := by
  cases l with
  | integer | float | string =>
    cases h
    exact .here fun p => .peek (.advance (by simp) (takes_pure (Typing.bare_ofValue p _)))
  | name word =>
    refine finds_named ?_
    rw [named_of_value? h]
    exact .here fun p => .advance (by simp) (takes_pure (Typing.bare_ofValue p value))
  | _ => cases h

theorem takes_messageField {word : Lexeme} {name : String} (hword : word.isKeyword "message" = true)
    (hname : l.identifier? = some name) :
    Takes (primary env deeper) [.symbol .dollar, word, .symbol .dot, l] ends
      (·.bare = .field .blank name) := by
  have hne : word ≠ .eof := by
    rintro rfl
    cases hword
  have hl : l = .name name ∨ l = .quotedName name := by
    cases l <;> simp_all [Lexeme.identifier?]
  refine .here fun p => .peek (.advance (by simp) (.peek ?_))
  rw [if_pos hword]
  refine .advance hne ?_
  refine (reads_expect .dot "'.'").takes.bind (fun _ _ => trivial) fun _ _ => ?_
  refine ((reads_expectName hl "field name").takes.imp (fun _ _ => trivial) fun _ h => h).map ?_
  rintro _ rfl
  rw [Expr.bare]

theorem takes_variable {name : String} (h : isReserved name = false) :
    Takes (primary env deeper) [.name name] (· ≠ .symbol .leftParen)
      (·.bare = .var .blank name) := by
  refine finds_named ?_
  rw [named_of_no_value (Lexeme.value?_of_not_reserved h)]
  refine .here fun p => .peekSecond fun second hsecond => ?_
  rw [if_neg hsecond, if_neg (by simp [h])]
  exact .advance (by simp) (takes_accept (Typing.bare_variableIn ..))

end Primaries

theorem enters_atom (h : Atom ls t) : Enters env room 9 ls t := by
  cases h with
  | @literal l value hvalue =>
    refine enters_primary (fun _ => True) (takes_value hvalue) ?_ fun _ _ => trivial
    cases l <;> first | rfl | cases hvalue
  | @negative l value hvalue =>
    have hl : l ≠ .eof := by
      rintro rfl
      cases hvalue
    refine .here fun p => .peek (.advance (by simp) (.peek ?_))
    rw [hvalue]
    exact .advance hl (arrived_of_postfixTail (Typing.bare_ofValue p _))
  | field hword hname =>
    exact enters_primary (fun _ => True) (takes_messageField hword hname) rfl fun _ _ => trivial
  | var hreserved =>
    refine enters_primary (· ≠ .symbol .leftParen) (takes_variable hreserved) rfl ?_
    rintro _ hfollows rfl
    have hvalue := Lexeme.value?_of_not_reserved hreserved
    exact hfollows.elim (fun hends => hends.call rfl) fun hends => hends (.call hvalue)

theorem enters_parens (inner : Phrase env.registry room 1 ls t) (h : Enters env room 1 ls t)
    (hdepth : t.depth ≤ maxNesting) :
    Enters env (room + 1) 9 (.symbol .leftParen :: (ls ++ [.symbol .rightParen])) t := by
  refine enters_primary (fun _ => True) ?_ rfl fun _ _ => trivial
  refine .here fun p => .peek (.advance (by simp) ?_)
  refine (takes_expression inner h hdepth).bind ?_ fun e he => ?_
  · rintro _ rfl
    exact .inl (endsLevel_closing (by simp) 0)
  · exact (reads_expect .rightParen "')'").takes.map fun _ _ => by rw [Expr.bare_moveTo, he]

section Lists

variable {i : Item} {close : Symbol}

/-- An item of a list, without its label. -/
theorem takes_body (hroom : 0 < room) (h : Phrase env.registry (room - 1) 1 i.body i.tree)
    (henters : Enters env (room - 1) 1 i.body i.tree) (hdepth : i.tree.depth ≤ maxNesting)
    (hclose : close = .rightParen ∨ close = .rightBracket ∨ close = .rightBrace) :
    Takes (nested env room).expression i.body (fun l => l = .symbol .comma ∨ l = .symbol close)
      (·.bare = i.tree) := by
  obtain ⟨room, rfl⟩ : ∃ n, room = n + 1 := ⟨room - 1, by omega⟩
  refine (takes_expression h henters hdepth).imp ?_ fun _ h => h
  rintro _ (rfl | rfl)
  · exact .inl (endsLevel_closing (by simp) 0)
  · exact .inl (endsLevel_closing (by tauto) 0)

/-- Whether a parser takes what stands between brackets in the place of an item. -/
abbrev Item.Taken (deeper : Deeper Parse) (close : Symbol) (i : Item) : Prop :=
  Takes deeper.expression i.body (fun l => l = .symbol .comma ∨ l = .symbol close) (·.bare = i.tree)

theorem takes_argument {deeper : Deeper Parse} (h : i.Taken deeper .rightParen)
    (hsecond : i.body.tail.head? ≠ some (.symbol .colon)) (hne : i.body ≠ [])
    (hlabel : ∀ l ∈ i.label, l.identifier?.isSome) :
    Takes (argument deeper) i.lexemes (fun l => l = .symbol .comma ∨ l = .symbol .rightParen)
      fun arg => arg.mapValue Expr.bare = ⟨i.key?, i.tree⟩ := by
  obtain ⟨label, body, tree⟩ := i
  cases label with
  | none =>
    obtain ⟨l, more, rfl⟩ := List.exists_cons_of_ne_nil hne
    refine .peekSecond fun second hfirst => ?_
    have hcolon : second ≠ .symbol .colon := by
      cases more with
      | nil =>
        rintro rfl
        simp [First] at hfirst
      | cons next more =>
        obtain rfl : second = next := hfirst
        simpa using hsecond
    rw [if_neg hcolon]
    exact h.map fun e he => by rw [← he]; rfl
  | some l =>
    refine .peekSecond fun second hfirst => ?_
    obtain rfl : second = .symbol .colon := hfirst
    rw [if_pos rfl]
    have hidentifier := hlabel l rfl
    cases l with
    | name name =>
      exact .peek (.advance (by simp) (.advance (by simp) (h.map fun e he => by rw [← he]; rfl)))
    | quotedName name =>
      exact .peek (.advance (by simp) (.advance (by simp) (h.map fun e he => by rw [← he]; rfl)))
    | _ => cases hidentifier

theorem takes_entry {deeper : Deeper Parse} (h : i.Taken deeper .rightBrace)
    (hkey : i.key?.isSome) :
    Takes (entry deeper) i.lexemes (fun l => l = .symbol .comma ∨ l = .symbol .rightBrace)
      fun found => (found.1, found.2.bare) = (i.key?.getD "", i.tree) := by
  obtain ⟨_ | l, body, tree⟩ := i
  · cases hkey
  have hvalue (key : String) (hl : l.key? = some key) :
      Takes (do
        expect .colon "':'"
        return (key, ← deeper.expression)) (.symbol .colon :: body)
          (fun l => l = .symbol .comma ∨ l = .symbol .rightBrace)
          fun found => (found.1, found.2.bare) = ((Item.key? ⟨some l, body, tree⟩).getD "", tree) :=
    (reads_expect .colon "':'").takes.bind (fun _ _ => trivial) fun _ _ =>
      h.map fun e he => by simp [Item.key?, hl, he]
  cases l with
  | name key | quotedName key | string key => exact .peek (.advance (by simp) (hvalue key rfl))
  | _ => cases hkey

/-- An item does not start like what closes its list. -/
abbrev Item.Opens (close : Symbol) (i : Item) : Prop :=
  ∃ l more, i.lexemes = l :: more ∧ l ≠ .symbol close

section Brackets

variable {deeper : Deeper Parse} {items : List Item}

theorem takes_array (htaken : ∀ i ∈ items, i.Taken deeper .rightBracket)
    (hopens : ∀ i ∈ items, i.Opens .rightBracket) (hlabel : ∀ i ∈ items, i.label = none) :
    Takes (primary env deeper)
      (.symbol .leftBracket :: (listed items ++ [.symbol .rightBracket])) (fun _ => True)
      (·.bare = .array .blank (items.map (·.tree))) := by
  have hitem : ∀ i ∈ items, Takes deeper.expression i.lexemes
      (fun l => l = .symbol .comma ∨ l = .symbol .rightBracket) (·.bare = i.tree) := by
    intro i hi
    have hlexemes : i.lexemes = i.body := by rw [Item.lexemes, hlabel i hi]
    rw [hlexemes]
    exact htaken i hi
  refine .here fun p => .peek (.advance (by simp) ?_)
  refine (takes_separated hitem hopens (by simp) "',' or ']'").map fun elements helements => ?_
  rw [Expr.bare, Expr.bareItems_eq, helements]

theorem takes_map (htaken : ∀ i ∈ items, i.Taken deeper .rightBrace)
    (hopens : ∀ i ∈ items, i.Opens .rightBrace) (hkey : ∀ i ∈ items, i.key?.isSome) :
    Takes (primary env deeper)
      (.symbol .leftBrace :: (listed items ++ [.symbol .rightBrace])) (fun _ => True)
      (·.bare = .map .blank (items.map fun i => (i.key?.getD "", i.tree))) := by
  refine .here fun p => .peek (.advance (by simp) ?_)
  refine (takes_separated (fun i hi => takes_entry (htaken i hi) (hkey i hi)) hopens (by simp)
    "',' or '\x7d'").map fun entries hentries => ?_
  rw [Expr.bare, Expr.bareEntries_eq, Typing.mapArgs, hentries]

theorem takes_call {name : String} (hname : (Lexeme.name name).value? = none)
    (hitem : ∀ i ∈ items, Takes (argument deeper) i.lexemes
      (fun l => l = .symbol .comma ∨ l = .symbol .rightParen)
      fun arg => arg.mapValue Expr.bare = ⟨i.key?, i.tree⟩)
    (hopens : ∀ i ∈ items, i.Opens .rightParen) :
    Takes (primary env deeper)
      (.name name :: .symbol .leftParen :: (listed items ++ [.symbol .rightParen]))
      (fun _ => True)
      (·.bare = env.registry.callTree name (items.map fun i => ⟨i.key?, i.tree⟩)) := by
  refine finds_named ?_
  rw [named_of_no_value hname]
  refine .here fun p => .peekSecond fun second hsecond => ?_
  obtain rfl : second = .symbol .leftParen := hsecond
  rw [if_pos rfl]
  refine .here fun p => .advance (by simp) ?_
  refine (reads_expect .leftParen "'('").takes.bind (fun _ _ => trivial) fun _ _ => ?_
  refine (takes_separated hitem hopens (by simp) "',' or ')'").finish (fun _ h => h) ?_
  intro raw hraw
  refine takes_accept ?_
  rw [Typing.bare_call, hraw]

end Brackets

theorem enters_list {opening : List Lexeme} {items : List Item}
    (h : Bracketed env.registry opening close items t) (hroom : items ≠ [] → 0 < room)
    (hitems : ∀ i ∈ items, Phrase env.registry (room - 1) 1 i.body i.tree)
    (henters : ∀ i ∈ items, Enters env (room - 1) 1 i.body i.tree)
    (hdepth : t.depth ≤ maxNesting) :
    Enters env room 9 (opening ++ (listed items ++ [.symbol close])) t := by
  have hclose : close = .rightParen ∨ close = .rightBracket ∨ close = .rightBrace := by
    cases h <;> simp
  have htaken : ∀ i ∈ items, i.Taken (nested env room) close := fun i hi =>
    takes_body (hroom (List.ne_nil_of_mem hi)) (hitems i hi) (henters i hi)
      ((h.depth_lt hi).le.trans hdepth) hclose
  have hopens : ∀ i ∈ items, i.Opens close := by
    intro i hi
    obtain ⟨l, more, hlexemes, hl⟩ := Item.exists_first (hitems i hi) (h.labelled hi)
    exact ⟨l, more, hlexemes, hl close (by obtain rfl | rfl | rfl := hclose <;> rfl)⟩
  cases h with
  | array hlabel => exact enters_primary _ (takes_array htaken hopens hlabel) rfl fun _ _ => trivial
  | map hkey => exact enters_primary _ (takes_map htaken hopens hkey) rfl fun _ _ => trivial
  | call hname hlabel =>
    refine enters_primary _ (takes_call hname (fun i hi => ?_) hopens) rfl fun _ _ => trivial
    exact takes_argument (htaken i hi) (hitems i hi).second (hitems i hi).ne_nil (hlabel i hi)

end Lists

/-- Every phrase that nests within the room enters its level. -/
theorem Phrase.enters (h : Phrase env.registry room k ls t) (hk : 1 ≤ k)
    (hdepth : t.depth ≤ maxNesting) : Enters env room (min k 9) ls t := by
  -- on the derivation; the last level is entered as that of accesses, which reads it first
  induction h with
  | @up room k ls t h hnot ih =>
    have henters := ih (by omega) hdepth
    by_cases hlast : k ≤ 8
    · have hmin : min (k + 1) 9 = k + 1 ∧ min k 9 = k := by omega
      rw [hmin.1] at henters
      rw [hmin.2]
      exact enters_up hk hlast h hnot henters
    · have hmin : min (k + 1) 9 = 9 ∧ min k 9 = 9 := by omega
      rw [hmin.1] at henters
      rwa [hmin.2]
  | @join room k l op ls rs s t hop hprecedence left right ihl ihr =>
    have hle : k ≤ 7 := by
      rw [← hprecedence]
      cases op <;> decide
    have hmin : min k 9 = k ∧ min (k + 1) 9 = k + 1 := by omega
    have hdepths : s.depth ≤ maxNesting ∧ t.depth ≤ maxNesting := by
      rw [Expr.depth] at hdepth
      omega
    have hleft := ihl hk hdepths.1
    have hright := ihr (by omega) hdepths.2
    rw [hmin.1] at hleft ⊢
    rw [hmin.2] at hright
    exact enters_join hop hprecedence hleft hright left right hdepth
  | @sign room k l op ls t hop operand ih =>
    have hmin : min k 9 = k := by cases hop <;> rfl
    have hoperand : t.depth ≤ maxNesting := by
      rw [Expr.depth] at hdepth
      omega
    have henters := ih hk hoperand
    rw [hmin] at henters ⊢
    exact enters_sign hop operand henters hoperand
  | access hname object ih =>
    refine enters_access hname (ih hk ?_) hdepth
    rw [Expr.depth] at hdepth
    omega
  | index object key iho ihk =>
    rw [Expr.depth] at hdepth
    exact enters_index (iho hk (by omega)) key (ihk (Nat.le_refl 1) (by omega)) hdepth
  | atom h => exact enters_atom h
  | parens inner ih => exact enters_parens inner (ih (Nat.le_refl 1) hdepth) hdepth
  | list h hroom hitems ih =>
    exact enters_list h hroom hitems
      (fun i hi => ih i hi (Nat.le_refl 1) ((h.depth_lt hi).le.trans hdepth)) hdepth

/-- An expression within the limits of nesting is taken whole before what does not go on with it. -/
theorem expression_takes (h : Derives env.registry ls t) :
    Takes (expression env) ls (Follows env.registry 0 1 ls) (·.bare = t) := by
  obtain ⟨⟨room, hroom, hphrase⟩, hdepth⟩ := h
  have hlimit : Phrase env.registry 127 1 ls t := hphrase.mono (Nat.le_of_lt_succ hroom)
  exact takes_expression hlimit (hlimit.enters (Nat.le_refl 1) hdepth) hdepth

end LogRules.Grammar

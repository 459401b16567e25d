import LogRules.Proofs.Answers
import LogRules.Proofs.Levels
import LogRules.Proofs.Openings
import LogRules.Proofs.SignFolding

/-!
How the levels of the grammar read the texts of operands. A level that has read its first operand
stands in its loop, where more operators of the level may follow.
-/
namespace LogRules

open Parse Grammar

/-- A lexeme with which nothing goes on that binds more tightly than a level. -/
structure Lexeme.EndsLevel (k : Nat) (l : Lexeme) : Prop where
  operator : ∀ j, k < j → operatorAt? j l = none
  access : k < 9 → l ≠ .symbol .dot ∧ l ≠ .symbol .leftBracket
  call : l ≠ .symbol .leftParen

theorem Lexeme.EndsLevel.mono {k k' : Nat} {l : Lexeme} (h : l.EndsLevel k) (hk : k ≤ k') :
    l.EndsLevel k' :=
  ⟨fun j hj => h.operator j (by omega), fun hk' => h.access (by omega), h.call⟩

theorem eq_of_operatorAt?_lexeme {j : Nat} {op op' : BinaryOp}
    (h : operatorAt? j op.lexeme = some op') : op' = op := by
  have hprecedence := precedence_of_operatorAt? h
  rw [operatorAt?.eq_def] at h
  split at h <;> cases op <;> cases h <;> rfl

theorem operatorAt?_lexeme (op : BinaryOp) : operatorAt? op.precedence op.lexeme = some op := by
  cases op <;> rfl

theorem endsLevel_lexeme (op : BinaryOp) : op.lexeme.EndsLevel op.precedence := by
  refine ⟨fun j hj => ?_, fun _ => ?_, ?_⟩
  · cases hop : operatorAt? j op.lexeme with
    | none => rfl
    | some op' =>
      have heq := eq_of_operatorAt?_lexeme hop
      have hprecedence := precedence_of_operatorAt? hop
      rw [heq] at hprecedence
      omega
  · cases op <;> simp [BinaryOp.lexeme]
  · cases op <;> simp [BinaryOp.lexeme]

theorem endsLevel_of_none {l : Lexeme} (hoperator : ∀ j, operatorAt? j l = none)
    (hl : l ≠ .symbol .dot ∧ l ≠ .symbol .leftBracket ∧ l ≠ .symbol .leftParen) (k : Nat) :
    l.EndsLevel k :=
  ⟨fun j _ => hoperator j, fun _ => ⟨hl.1, hl.2.1⟩, hl.2.2⟩

theorem endsLevel_closing {s : Symbol}
    (h : s = .comma ∨ s = .rightParen ∨ s = .rightBracket ∨ s = .rightBrace ∨ s = .semicolon)
    (k : Nat) : (Lexeme.symbol s).EndsLevel k := by
  have hoperator (j : Nat) : operatorAt? j (.symbol s) = none := by
    rw [operatorAt?.eq_def]
    split <;> obtain rfl | rfl | rfl | rfl | rfl := h <;> rfl
  refine endsLevel_of_none hoperator ?_ k
  obtain rfl | rfl | rfl | rfl | rfl := h <;> simp

theorem endsLevel_eof (k : Nat) : Lexeme.eof.EndsLevel k := by
  refine endsLevel_of_none (fun j => ?_) (by simp) k
  rw [operatorAt?.eq_def]
  split <;> rfl

theorem endsLevel_access {s : Symbol} (h : s = .dot ∨ s = .leftBracket) :
    (Lexeme.symbol s).EndsLevel 9 := by
  refine ⟨fun j hj => ?_, fun h => absurd h (by omega), ?_⟩
  · rw [operatorAt?.eq_def]
    split <;> first | omega | rfl
  · obtain rfl | rfl := h <;> simp

namespace Grammar

variable {env : Env} {deeper : Deeper Parse} {k : Nat} {l : Lexeme} {ls : List Lexeme}
  {Q : Expr → Prop}

/-- What a level goes on with behind its first operand. -/
def levelLoop (env : Env) (deeper : Deeper Parse) (k fuel : Nat) (left : Expr) : Parse Expr :=
  if k = 9 then postfixLoop deeper fuel left
  else chainLoop (level env deeper (k + 1)) (operatorAt? k) Typing.join fuel left

/-- Behind these lexemes a level stands in its loop, with fuel for all that follows. -/
def Leads (env : Env) (deeper : Deeper Parse) (k : Nat) (ls : List Lexeme) (Q : Expr → Prop) :
    Prop :=
  Answers (level env deeper k) ls (·.EndsLevel k) fun rest reply =>
    ∃ left fuel, rest.length ≤ fuel ∧ Q left ∧ reply = levelLoop env deeper k fuel left rest

theorem chainLoop_of_none {operand : Parse Expr} {operator? : Lexeme → Option BinaryOp}
    {join : BinaryOp → Expr → Expr → Position → Checked} {rest : List Token}
    (h : operator? (tokenAt 0 rest) = none) (fuel : Nat) (left : Expr) :
    chainLoop operand operator? join fuel left rest = ⟨[], rest, some left⟩ := by
  cases fuel with
  | zero => rfl
  | succ fuel =>
    have hhere : here rest = ⟨[], rest, some (positionOf rest)⟩ := rfl
    have hpeek : peek 0 rest = ⟨[], rest, some (tokenAt 0 rest)⟩ := rfl
    rw [chainLoop, bind_lift hhere, bind_lift hpeek, h]
    rfl

theorem postfixLoop_of_ends {rest : List Token} (hdot : tokenAt 0 rest ≠ .symbol .dot)
    (hbracket : tokenAt 0 rest ≠ .symbol .leftBracket) (fuel : Nat) (object : Expr) :
    postfixLoop deeper fuel object rest = ⟨[], rest, some object⟩ := by
  cases fuel with
  | zero => rfl
  | succ fuel =>
    have heat {s : Symbol} (h : tokenAt 0 rest ≠ .symbol s) :
        eat s rest = ⟨[], rest, some false⟩ := by
      rw [eat, eatIf_eq, if_neg (by simpa using h)]
    have hhere : here rest = ⟨[], rest, some (positionOf rest)⟩ := rfl
    rw [postfixLoop, bind_lift hhere, bind_lift (heat hdot), if_neg (by simp),
      bind_lift (heat hbracket)]
    rfl

/-- Before something that goes on with a looser level, a loop is over. -/
theorem levelLoop_of_ends {j : Nat} {rest : List Token} (hends : (tokenAt 0 rest).EndsLevel j)
    (hj : j < k ∨ k = 3 ∨ k = 8) (hk : k ≤ 9) (fuel : Nat) (left : Expr) :
    levelLoop env deeper k fuel left rest = ⟨[], rest, some left⟩ := by
  rw [levelLoop]
  split
  · have hlast : j < 9 := by omega
    exact postfixLoop_of_ends (hends.access hlast).1 (hends.access hlast).2 fuel left
  · refine chainLoop_of_none ?_ fuel left
    obtain hj | rfl | rfl := hj
    · exact hends.operator k hj
    · rfl
    · rfl

/-- A level reads its first operand, if nothing of the level follows. -/
theorem Leads.reads {j : Nat} (h : Leads env deeper k ls Q) (hle : j ≤ k)
    (hj : j < k ∨ k = 3 ∨ k = 8) (hk : k ≤ 9) :
    Reads (level env deeper k) ls (·.EndsLevel j) Q := by
  intro tokens rest hls hends
  obtain ⟨left, fuel, -, hQ, hreply⟩ := h tokens rest hls (hends.mono hle)
  exact ⟨left, by rw [hreply, levelLoop_of_ends hends hj hk], hQ⟩

theorem notLevel_of_first {t : Token} (hword : t.lexeme.isKeyword "not" = false)
    (hbang : t.lexeme ≠ .symbol .bang) (tokens : List Token) :
    notLevel env deeper (t :: tokens) = equalityLevel env deeper (t :: tokens) := by
  have hhere : here (t :: tokens) = ⟨[], t :: tokens, some t.position⟩ := rfl
  have heat : eatIf (fun lexeme => lexeme.isKeyword "not" || lexeme == .symbol .bang)
      (t :: tokens) = ⟨[], t :: tokens, some false⟩ := by
    rw [eatIf_eq, if_neg (by simp [hword, hbang])]
  rw [notLevel, bind_lift hhere, bind_lift heat, if_neg (by simp)]

theorem signLevel_of_first {t : Token} (hsign : signOperator? t.lexeme = none)
    (tokens : List Token) :
    signLevel env deeper (t :: tokens) = level env deeper 9 (t :: tokens) := by
  have hhere : here (t :: tokens) = ⟨[], t :: tokens, some t.position⟩ := rfl
  have hpeek : peek 0 (t :: tokens) = ⟨[], t :: tokens, some t.lexeme⟩ := rfl
  rw [signLevel, bind_lift hhere, bind_lift hpeek, hsign]
  rfl

theorem Leads.down (h : Leads env deeper (k + 1) (l :: ls) Q) (hk : 1 ≤ k) (hk' : k ≤ 8)
    (hnot : k = 3 → l.isKeyword "not" = false ∧ l ≠ .symbol .bang)
    (hsign : k = 8 → signOperator? l = none) : Leads env deeper k (l :: ls) Q := by
  intro tokens rest hls hends
  obtain ⟨left, hreply, hQ⟩ :=
    h.reads (j := k) (by omega) (by omega) (by omega) tokens rest hls hends
  refine ⟨left, rest.length, Nat.le_refl _, hQ, ?_⟩
  by_cases hchain : IsChain k
  · rw [level_chain env deeper hchain, chain, bind_eq hreply, levelLoop, if_neg (by omega)]
    rfl
  · obtain ⟨t, more, rfl, rfl, -⟩ := List.map_eq_cons_iff.mp hls
    have hplain : k = 3 ∨ k = 8 := by
      rw [IsChain] at hchain
      omega
    rw [levelLoop_of_ends hends (.inr hplain) (by omega), ← hreply]
    obtain rfl | rfl := hplain
    · exact notLevel_of_first (hnot rfl).1 (hnot rfl).2 (more ++ rest)
    · exact signLevel_of_first (hsign rfl) (more ++ rest)

/-- What a level reads as its first operand, all looser levels do as well, unless an operator that
stands before an operand comes first. -/
theorem Leads.descend {K : Nat} (h : Leads env deeper K (l :: ls) Q) (hk : 1 ≤ k) (hle : k ≤ K)
    (hK : K ≤ 9) (hnot : k ≤ 3 → 3 < K → l.isKeyword "not" = false ∧ l ≠ .symbol .bang)
    (hsign : 8 < K → signOperator? l = none) : Leads env deeper k (l :: ls) Q := by
  obtain ⟨d, rfl⟩ := Nat.exists_eq_add_of_le hle
  induction d generalizing k with
  | zero => exact h
  | succ d ih =>
    have hadd : k + (d + 1) = k + 1 + d := by omega
    rw [hadd] at h hK hnot hsign
    have hnext := ih (by omega) h (by omega) hK (fun hk => hnot (by omega)) hsign
    exact hnext.down hk (by omega) (fun hk => hnot (by omega) (by omega)) fun hk => hsign (by omega)

theorem leads_primary (ends : Lexeme → Prop) (h : Reads (primary env deeper) ls ends Q)
    (hends : ∀ l, l ≠ .symbol .leftParen → ends l) : Leads env deeper 9 ls Q := by
  intro tokens rest hls hrest
  obtain ⟨object, hreply, hQ⟩ := h tokens rest hls (hends _ hrest.call)
  refine ⟨object, rest.length, Nat.le_refl _, hQ, ?_⟩
  have hlevel : level env deeper 9 = (do postfixTail deeper (← primary env deeper)) := rfl
  rw [hlevel, bind_eq hreply]
  rfl

end Grammar

namespace Expr

variable {env : Env} {e : Expr}

/-- The text of an expression leads every level that binds no more tightly to a tree like it, as
long as the level does not read a call that comes first as an operator. -/
def LeadsBack (env : Env) (room : Nat) (e : Expr) : Prop :=
  ∀ k, 1 ≤ k → k ≤ 9 → k ≤ e.precedence → (k ≤ 3 → e.startsNot = false) →
    Leads env (nested env room) k e.lexemes (·.Rereads e)

/-- It is enough to look at the tightest level. -/
theorem leadsBack_of_top {l : Lexeme} {ps : List Piece} (hopening : Opening e l ps) {room K : Nat}
    (hK : K = min 9 e.precedence)
    (h : Leads env (nested env room) K e.lexemes (·.Rereads e)) : LeadsBack env room e := by
  intro k hk hk' hprec hstart
  have hlexemes : e.lexemes = l :: Piece.lexemes ps := by
    rw [lexemes, hopening.pieces_eq, Piece.lexemes_token]
  rw [hlexemes] at h ⊢
  have hbang : l ≠ .symbol .bang := fun hbang => absurd (hopening.opens .bang hbang) (by decide)
  exact h.descend hk (by omega) (by omega)
    (fun hk hK => ⟨hopening.negation (hstart hk) (by omega), hbang⟩)
    fun hK => hopening.sign (by omega)

/-- An expression that is read back wherever there is room for it. -/
structure Legible (env : Env) (e : Expr) : Prop where
  opening : ∃ l ps, Opening e l ps
  depth_le : e.depth ≤ maxNesting
  leads : ∀ room, e.levels ≤ room → LeadsBack env room e

namespace Legible

/-- With more room a whole expression is read as one that stands deeper. -/
theorem reads_expression (h : Legible env e) (hstart : e.startsNot = false) (room : Nat)
    (hroom : e.levels < room) :
    Reads (nested env room).expression e.lexemes (·.EndsLevel 0) (·.Rereads e) := by
  obtain ⟨room, rfl⟩ : ∃ n, room = n + 1 := ⟨room - 1, by omega⟩
  have hleads := h.leads room (by omega) 1 (by omega) (by omega) (precedence_pos e)
    fun _ => hstart
  have hlevel := hleads.reads (j := 0) (by omega) (by omega) (by omega)
  intro tokens rest hls hends
  obtain ⟨found, hreply, hfound⟩ := hlevel tokens rest hls hends
  have hdepth : found.depth ≤ maxNesting := hfound.depth_le.trans h.depth_le
  refine ⟨found, ?_, hfound⟩
  have hexpression : (nested env (room + 1)).expression =
    (do checkDepth (← level env (nested env room) 1)) := rfl
  rw [hexpression, bind_eq hreply, checkDepth_of_le hdepth]

theorem leads_parens (h : Legible env e) (hstart : e.startsNot = false) (room : Nat)
    (hroom : e.levels < room) :
    Leads env (nested env room) 9 (Piece.lexemes (Piece.parens true e.pieces)) (·.Rereads e) := by
  have hlexemes : Piece.lexemes (Piece.parens true e.pieces) =
      .symbol .leftParen :: (e.lexemes ++ [.symbol .rightParen]) := by
    simp [Piece.parens, Piece.symbol, lexemes]
  rw [hlexemes]
  have hprimary : Reads (primary env (nested env room))
      (.symbol .leftParen :: (e.lexemes ++ [.symbol .rightParen])) (fun _ => True)
      (·.Rereads e) := by
    refine .here fun p => .peek (.advance (by simp) ?_)
    refine (h.reads_expression hstart room hroom).bind ?_ fun inner hinner => ?_
    · rintro _ rfl
      exact endsLevel_closing (by simp) 0
    · refine (reads_expect .rightParen "')'").map fun _ _ => ?_
      rw [Rereads, unplaced_moveTo]
      exact hinner
  exact leads_primary _ hprimary fun _ _ => trivial

/-- An operand is read by a level if it binds as tightly or stands in parentheses. -/
theorem leads_operand (h : Legible env e) {needed : Bool} (room : Nat)
    (hroom : enclosedLevels needed e.levels ≤ room) {k : Nat} (hk : 1 ≤ k) (hk' : k ≤ 9)
    (hneeded : needed = false → k ≤ e.precedence)
    (hstart : needed = true ∨ k ≤ 3 → e.startsNot = false) :
    Leads env (nested env room) k (Piece.lexemes (Piece.parens needed e.pieces)) (·.Rereads e) := by
  cases needed with
  | true =>
    exact (h.leads_parens (hstart (.inl rfl)) room hroom).descend hk hk' (Nat.le_refl 9)
      (fun _ _ => ⟨rfl, by simp⟩) fun _ => rfl
  | false => exact h.leads room hroom k hk hk' (hneeded rfl) fun hk => hstart (.inr hk)

end Legible

end Expr

end LogRules

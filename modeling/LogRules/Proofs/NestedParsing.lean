import LogRules.Proofs.Levels
import LogRules.Proofs.Nesting
import LogRules.Proofs.Postconditions

/-!
Parsing builds trees that nest no deeper than the tokens they were built from. The invariant of a
level is what its operands need with the parentheses they get; an operand that binds too loosely for
a level stood in parentheses before. The parentheses that a text has between two signs are not
counted.
-/
namespace LogRules

open Grammar

namespace Expr

/-- Whether something is looked up in a literal. The text has parentheses there that the source need
not have, and it is an error. -/
def isLiteralLookup : Expr → Bool
  | access _ object _ | index _ object _ => object.isLiteral
  | _ => false

def Tight (e : Expr) : Prop := ∀ n ∈ e.nodes, n.isLiteralLookup = false

theorem Tight.self {e : Expr} (h : e.Tight) : e.isLiteralLookup = false := h e e.self_mem_nodes

theorem Tight.child {e child : Expr} (h : e.Tight) (hchild : child ∈ e.children) : child.Tight :=
  fun n hn => h n (mem_nodes_of_child hchild hn)

section Moved

variable (p : Position) (e : Expr)

theorem children_moveTo : (e.moveTo p).children = e.children := by
  cases e <;> rfl

theorem precedence_moveTo : (e.moveTo p).precedence = e.precedence := by
  cases e with
  | literal _ value => cases value <;> rfl
  | unary _ op => cases op <;> rfl
  | _ => rfl

theorem nesting_moveTo (extra : Nat) : (e.moveTo p).nesting extra = e.nesting extra := by
  cases e with
  | unary _ op => cases op <;> rfl
  | _ => rfl

theorem startsNot_moveTo : (e.moveTo p).startsNot = e.startsNot := by
  cases e <;> rfl

theorem looseParts_moveTo : (e.moveTo p).looseParts = e.looseParts := by
  cases e with
  | unary _ op => cases op <;> rfl
  | _ => rfl

theorem isCallable_moveTo : (e.moveTo p).isCallable = e.isCallable := by
  cases e <;> rfl

theorem isLiteralLookup_moveTo : (e.moveTo p).isLiteralLookup = e.isLiteralLookup := by
  cases e <;> rfl

variable {p e}

theorem Placed.moveTo (h : e.Placed) (p : Position) : (e.moveTo p).Placed := by
  obtain ⟨hcallable, hstart⟩ := h.self
  refine .of_children ?_ ?_ fun child hchild => h.child (children_moveTo p e ▸ hchild)
  · rwa [isCallable_moveTo]
  · rwa [looseParts_moveTo]

theorem tight_moveTo : (e.moveTo p).Tight ↔ e.Tight := by
  rw [Tight, Tight, nodes_eq, nodes_eq, List.forall_mem_cons, List.forall_mem_cons,
    isLiteralLookup_moveTo, children_moveTo]

end Moved

theorem enclosedLevels_of_le {k : Nat} {e : Expr} (h : k ≤ e.precedence) :
    enclosedLevels (e.precedence < k) (e.nesting 0) = e.nesting 0 := by
  rw [decide_eq_false (Nat.not_lt_of_le h)]
  rfl

theorem enclosedLevels_mono {k k' : Nat} (h : k ≤ k') (e : Expr) :
    enclosedLevels (e.precedence < k) (e.nesting 0) ≤
      enclosedLevels (e.precedence < k') (e.nesting 0) := by
  simp only [enclosedLevels, decide_eq_true_eq]
  split_ifs <;> omega

/-- What starts with a sign does not start with a call. -/
theorem startsNot_of_sign {e : Expr} (h : e.precedence = signPrecedence) : e.startsNot = false := by
  cases e with
  | binary _ op => cases op <;> cases h
  | access | index | call => cases h
  | _ => rfl

/-- What holds of the tree that a level builds with some room, if its first token is no `not` where
`free` says so. What binds more loosely than the level stood in parentheses, but for a literal with
its sign at the tightest level. -/
structure Fits (room k : Nat) (free : Prop) (e : Expr) : Prop where
  placed : e.Placed
  nesting_lt : e.Tight → (k = 9 → e.isLiteral = false) →
    enclosedLevels (e.precedence < k) (e.nesting 0) < room
  start : free ∨ k ≤ 3 ∨ e.precedence < k → e.startsNot = false

namespace Fits

variable {room k : Nat} {free : Prop} {site : Site} {e : Expr}

theorem nesting_lt_of_ne (h : e.Fits room k free) (hk : k ≠ 9) (htight : e.Tight) :
    enclosedLevels (e.precedence < k) (e.nesting 0) < room :=
  h.nesting_lt htight fun h9 => absurd h9 hk

/-- A level of operators builds what the next one does. -/
theorem down (h : e.Fits room (k + 1) free) (hk : k ≠ 3) (hk' : k ≠ 8) : e.Fits room k free where
  placed := h.placed
  nesting_lt := fun htight _ =>
    (enclosedLevels_mono (Nat.le_succ k) e).trans_lt (h.nesting_lt_of_ne (by omega) htight)
  start := fun hstart => h.start (hstart.imp_right (by omega))

theorem nesting_lt_of_one (h : e.Fits room 1 free) (htight : e.Tight) : e.nesting 0 < room := by
  have hnesting := h.nesting_lt_of_ne (by omega) htight
  rwa [enclosedLevels_of_le (precedence_pos e)] at hnesting

/-- What stands in brackets takes a level. -/
theorem of_children (hchildren : ∀ child ∈ e.children, child.Fits room 1 False)
    (hparts : e.looseParts = e.children) (hcallable : e.isCallable = true)
    (hprec : 9 ≤ e.precedence) (hstart : free → e.startsNot = false)
    (hnesting : (∀ child ∈ e.children, child.nesting 0 + 1 < room + 1) →
      e.nesting 0 < room + 1) :
    e.Fits (room + 1) 9 free where
  placed := by
    refine .of_children hcallable (fun part hpart => ?_) fun child hchild =>
      (hchildren child hchild).placed
    exact (hchildren part (hparts ▸ hpart)).start (.inr (.inl (by omega)))
  nesting_lt := fun htight _ => by
    rw [enclosedLevels_of_le hprec]
    exact hnesting fun child hchild =>
      Nat.succ_lt_succ ((hchildren child hchild).nesting_lt_of_one (htight.child hchild))
  start := fun h => hstart (h.resolve_right (by omega))

/-- The part of a node that is its object, when that stands in parentheses. -/
theorem start_of_mem_filter {object part : Expr} (h : object.Fits room 9 free)
    (hpart : part ∈ [object].filter (·.precedence < postfixPrecedence)) :
    part.startsNot = false := by
  obtain ⟨hmem, hprec⟩ := List.mem_filter.mp hpart
  obtain rfl := List.mem_singleton.mp hmem
  exact h.start (.inr (.inr (of_decide_eq_true hprec)))

theorem access {object : Expr} (name : String) (h : object.Fits room 9 free) :
    Fits room 9 free (.access site object name) where
  placed := by
    refine .of_children rfl (fun part hpart => h.start_of_mem_filter hpart) fun child hchild => ?_
    rw [List.mem_singleton.mp hchild]
    exact h.placed
  nesting_lt := fun htight _ =>
    h.nesting_lt (htight.child (by simp [children])) fun _ => htight.self
  start := fun hstart => by
    have hfree : free := hstart.resolve_right (by simp [precedence, postfixPrecedence])
    rw [startsNot, h.start (.inl hfree), Bool.and_false]

theorem index {object key : Expr} (h : object.Fits (room + 1) 9 free)
    (hkey : key.Fits room 1 False) : Fits (room + 1) 9 free (.index site object key) where
  placed := by
    refine .of_children rfl (fun part hpart => ?_) fun child hchild => ?_
    · cases hpart with
      | head => exact hkey.start (.inr (.inl (by omega)))
      | tail _ hpart => exact h.start_of_mem_filter hpart
    · simp only [children, List.mem_cons, List.not_mem_nil, or_false] at hchild
      obtain rfl | rfl := hchild
      exacts [h.placed, hkey.placed]
  nesting_lt := fun htight _ => Nat.max_lt.mpr
    ⟨h.nesting_lt (htight.child (by simp [children])) fun _ => htight.self,
      Nat.succ_lt_succ (hkey.nesting_lt_of_one (htight.child (by simp [children])))⟩
  start := fun hstart => by
    have hfree : free := hstart.resolve_right (by simp [precedence, postfixPrecedence])
    rw [startsNot, h.start (.inl hfree), Bool.and_false]

theorem negation {operand : Expr} (h : operand.Fits room 3 False) :
    Fits (room + 1) 3 free (.unary site .not operand) where
  placed := by
    refine .of_children rfl (fun part hpart => ?_) fun child hchild => ?_
    · rw [List.mem_singleton.mp hpart]
      exact h.start (.inr (.inl (Nat.le_refl 3)))
    · rw [List.mem_singleton.mp hchild]
      exact h.placed
  nesting_lt := fun htight _ =>
    Nat.succ_lt_succ (h.nesting_lt_of_ne (by omega) (htight.child (by simp [children])))
  start := fun _ => rfl

theorem signed {op : UnaryOp} {operand : Expr} (hop : op ≠ .not) (h : operand.Fits room 8 False) :
    Fits (room + 1) 8 free (.unary site op operand) where
  placed := by
    refine .of_children rfl (fun part hpart => ?_) fun child hchild => ?_
    · have hfilter : part ∈ [operand].filter (·.precedence ≤ signPrecedence) := by
        cases op with
        | not => exact absurd rfl hop
        | negate | plus => simpa only [looseParts] using hpart
      obtain ⟨hmem, hprec⟩ := List.mem_filter.mp hfilter
      obtain rfl := List.mem_singleton.mp hmem
      obtain hless | heq := (of_decide_eq_true hprec).lt_or_eq
      exacts [h.start (.inr (.inr hless)), startsNot_of_sign heq]
    · rw [List.mem_singleton.mp hchild]
      exact h.placed
  nesting_lt := fun htight _ => by
    have hoperand := h.nesting_lt_of_ne (by omega) (htight.child (by simp [children]))
    have hprec : 8 ≤ precedence (.unary site op operand) := by
      cases op with
      | not => exact absurd rfl hop
      | negate | plus => exact Nat.le_refl 8
    rw [enclosedLevels_of_le hprec, nesting_sign hop]
    split
    · next hsign =>
      have hself : 8 ≤ operand.precedence := hsign.ge
      rw [enclosedLevels_of_le hself] at hoperand
      exact Nat.succ_lt_succ hoperand
    · exact Nat.succ_lt_succ hoperand
  start := fun _ => rfl

theorem joined {op : BinaryOp} {left right : Expr}
    (hleft : left.Fits room op.precedence free)
    (hright : right.Fits room (op.precedence + 1) False) :
    Fits room op.precedence free (.binary site op left right) where
  placed := by
    refine .of_children rfl (fun part hpart => ?_) fun child hchild => ?_
    · obtain ⟨rfl, hprec⟩ | ⟨rfl, hprec⟩ := mem_looseParts_binary.mp hpart
      · exact hleft.start (.inr (hprec.imp_left Nat.le_of_lt))
      · exact hright.start (.inr (hprec.imp id Nat.lt_succ_of_le))
    · simp only [children, List.mem_cons, List.not_mem_nil, or_false] at hchild
      obtain rfl | rfl := hchild
      exacts [hleft.placed, hright.placed]
  nesting_lt := fun htight _ => by
    have hprec : op.precedence ≤ 7 := by cases op <;> decide
    have hnesting := hleft.nesting_lt_of_ne (by omega) (htight.child (by simp [children]))
    have hnesting' := hright.nesting_lt_of_ne (by omega) (htight.child (by simp [children]))
    have hself : op.precedence ≤ precedence (.binary site op left right) := Nat.le_refl _
    rw [enclosedLevels_of_le hself]
    simp only [Nat.lt_succ_iff] at hnesting'
    exact Nat.max_lt.mpr ⟨hnesting, hnesting'⟩
  start := fun hstart => by
    have hloose : free ∨ op.precedence ≤ 3 := hstart.imp_right fun h =>
      h.resolve_right (Nat.lt_irrefl _)
    rw [startsNot, hleft.start (hloose.imp_right .inl), Bool.and_false]

theorem literal (value : Value) : Fits (room + 1) 9 free (.literal site value) where
  placed := .of_children rfl (fun part hpart => by cases hpart) fun child hchild => by cases hchild
  nesting_lt := fun _ hliteral => absurd (hliteral rfl) (by simp [isLiteral])
  start := fun _ => rfl

/-- What stands in parentheses can be anything. -/
theorem enclosed {p : Position} (h : e.Fits room 1 False) :
    (e.moveTo p).Fits (room + 1) 9 free where
  placed := h.placed.moveTo p
  nesting_lt := fun htight _ => by
    have hnesting := h.nesting_lt_of_one (tight_moveTo.mp htight)
    rw [precedence_moveTo, nesting_moveTo]
    exact (enclosedLevels_le _ _).trans_lt (Nat.succ_lt_succ hnesting)
  start := fun _ => by
    rw [startsNot_moveTo]
    exact h.start (.inr (.inl (by omega)))

/-- What is no operand of `not` does not start with the word. -/
theorem not_of_equality (h : e.Fits room 4 True) : e.Fits room 3 free where
  placed := h.placed
  nesting_lt := fun htight _ =>
    (enclosedLevels_mono (Nat.le_succ 3) e).trans_lt (h.nesting_lt_of_ne (by omega) htight)
  start := fun _ => h.start (.inl trivial)

/-- Without a lookup, a literal needs no parentheses at all. -/
theorem sign_of_postfix (h : e.Fits (room + 1) 9 free) : e.Fits (room + 1) 8 free where
  placed := h.placed
  nesting_lt := fun htight _ => by
    cases hliteral : e.isLiteral with
    | false =>
      exact (enclosedLevels_mono (by omega) e).trans_lt (h.nesting_lt htight fun _ => hliteral)
    | true =>
      cases e with
      | literal site value =>
        have hprec : 8 ≤ precedence (.literal site value) := by
          rw [precedence.eq_def]
          cases value <;> simp only <;> (try split) <;> decide
        rw [enclosedLevels_of_le hprec]
        exact Nat.succ_pos room
      | _ => cases hliteral
  start := fun hstart => h.start (hstart.imp_right (by omega))

end Fits

end Expr

namespace Grammar

open Parse LogRules.Expr

/-- The parsers of one level deeper build trees that fit into some room. -/
structure Deeper.Fits (room : Nat) (deeper : Deeper Parse) : Prop where
  expression : AlwaysBuilds deeper.expression (Expr.Fits room 1 False)
  negated : AlwaysBuilds deeper.negated (Expr.Fits room 3 False)
  signed : AlwaysBuilds deeper.signed (Expr.Fits room 8 False)

section Levels

variable {env : Env} {deeper : Deeper Parse} {room k : Nat} {free : Prop} {F : Lexeme → Prop}

/-- Where `free` says so, a lexeme is not the word `not`. -/
def FreeOfNot (free : Prop) (l : Lexeme) : Prop := free → l.isKeyword "not" = false

theorem builds_accept {checked : Checked} {Q : Expr → Prop} (h : Q checked.expr) :
    Builds F (accept checked) Q :=
  builds_after _ fun _ => builds_pure h

theorem builds_checkDepth {e : Expr} {Q : Expr → Prop} (h : Q e) : Builds F (checkDepth e) Q := by
  rw [checkDepth]
  split
  · exact builds_none fun _ => rfl
  · exact builds_pure h

theorem builds_argument (h : deeper.Fits room) :
    AlwaysBuilds (argument deeper) fun arg => arg.value.Fits room 1 False := by
  refine builds_peekSecond fun second => ?_
  split
  · refine builds_peek fun l _ => ?_
    split
    · exact builds_after _ fun _ => builds_after _ fun _ => h.expression.map fun _ he => he
    · exact builds_after _ fun _ => builds_after _ fun _ => h.expression.map fun _ he => he
    · exact h.expression.map fun _ he => he
  · exact h.expression.map fun _ he => he

theorem builds_call (h : deeper.Fits room) {name : String}
    (htrue : Lexeme.sameWord name "true" = false) (hfalse : Lexeme.sameWord name "false" = false)
    (hfree : free → Lexeme.sameWord name "not" = false) :
    Builds F (call env deeper name) (Expr.Fits (room + 1) 9 free) := by
  refine builds_here fun p => builds_after _ fun _ => builds_after _ fun _ => ?_
  refine (builds_separated (builds_argument h) _ _).bind fun raw hraw => builds_accept ?_
  obtain ⟨site, target, args, named, resolved, hcall, hvalues⟩ :=
    @Typing.exists_call_expr env.registry env.inCondition name raw p
  rw [hcall]
  refine .of_children (fun child hchild => ?_) rfl ?_ (Nat.le_succ 9) hfree
    (nestingEntries_lt (Nat.succ_pos room)).mpr
  · rw [children, hvalues] at hchild
    obtain ⟨arg, harg, rfl⟩ := List.mem_map.mp hchild
    exact hraw arg harg
  · rw [isCallable, htrue, hfalse]
    rfl

theorem fits_leaf {e : Expr} (hchildren : e.children = []) (hparts : e.looseParts = [])
    (hcallable : e.isCallable = true) (hprec : 9 ≤ e.precedence) (hstart : e.startsNot = false)
    (hnesting : e.nesting 0 = 0) : e.Fits (room + 1) 9 free :=
  .of_children (by simp [hchildren]) (hparts.trans hchildren.symm) hcallable hprec
    (fun _ => hstart) fun _ => hnesting.trans_lt (Nat.succ_pos room)

theorem builds_named (h : deeper.Fits room) {name : String}
    (hfree : free → Lexeme.sameWord name "not" = false) :
    Builds F (named env deeper name) (Expr.Fits (room + 1) 9 free) := by
  refine builds_here fun p => ?_
  split
  · exact builds_after _ fun _ => builds_pure (.literal _)
  next htrue =>
  split
  · exact builds_after _ fun _ => builds_pure (.literal _)
  next hfalse =>
  refine builds_peekSecond fun second => ?_
  split
  · exact builds_call h (by simpa using htrue) (by simpa using hfalse) hfree
  split
  · exact builds_unexpected _
  · refine builds_after _ fun _ => builds_accept ?_
    rw [Typing.variableIn]
    split <;> exact fits_leaf rfl rfl rfl (Nat.le_succ 9) rfl rfl

theorem builds_entry (h : deeper.Fits room) :
    AlwaysBuilds (entry deeper) fun found => found.2.Fits room 1 False := by
  refine builds_peek fun l _ => ?_
  split
  · exact builds_after _ fun _ => builds_after _ fun _ => h.expression.map fun _ he => he
  · exact builds_after _ fun _ => builds_after _ fun _ => h.expression.map fun _ he => he
  · exact builds_after _ fun _ => builds_after _ fun _ => h.expression.map fun _ he => he
  · exact builds_unexpected _

theorem builds_messageField (p : Position) :
    Builds F (messageField p) (Expr.Fits (room + 1) 9 free) := by
  refine builds_peek fun l _ => ?_
  split
  · exact builds_after _ fun _ => builds_after _ fun _ => builds_after _ fun name =>
      builds_pure (fits_leaf rfl rfl rfl (Nat.le_succ 9) rfl rfl)
  · exact builds_unexpected _

theorem builds_primary (h : deeper.Fits room) :
    Builds (FreeOfNot free) (primary env deeper) (Expr.Fits (room + 1) 9 free) := by
  refine builds_here fun p => builds_peek fun l hl => ?_
  cases l with
  | name name => exact builds_named h hl
  | integer | float | string => exact builds_after _ fun _ => builds_pure (.literal _)
  | symbol s =>
    cases s with
    | dollar => exact builds_after _ fun _ => builds_messageField p
    | leftParen =>
      exact builds_after _ fun _ => h.expression.bind fun inner hinner =>
        builds_after _ fun _ => builds_pure hinner.enclosed
    | leftBracket =>
      refine builds_after _ fun _ => (builds_separated h.expression _ _).map fun items hitems => ?_
      exact .of_children hitems rfl rfl (Nat.le_succ 9) (fun _ => rfl)
        (nestingItems_lt (Nat.succ_pos room)).mpr
    | leftBrace =>
      refine builds_after _ fun _ =>
        (builds_separated (builds_entry h) _ _).map fun entries hentries => ?_
      exact .of_children (List.forall_mem_map.mpr hentries) rfl rfl (Nat.le_succ 9) (fun _ => rfl)
        (nestingEntries_lt (Nat.succ_pos room)).mpr
    | _ => exact builds_unexpected _
  | _ => exact builds_unexpected _

theorem builds_postfixLoop (h : deeper.Fits room) (fuel : Nat) {object : Expr}
    (hobject : object.Fits (room + 1) 9 free) :
    AlwaysBuilds (postfixLoop deeper fuel object) (Expr.Fits (room + 1) 9 free) := by
  induction fuel generalizing object with
  | zero => exact builds_pure hobject
  | succ fuel ih =>
    refine builds_here fun p => builds_after _ fun dot => ?_
    split
    · refine builds_after _ fun name => ?_
      refine (builds_accept (hobject.access name)).bind fun _ hfound => ?_
      exact (builds_checkDepth hfound).bind fun _ hnext => ih hnext
    · refine builds_after _ fun bracket => ?_
      split
      · refine h.expression.bind fun key hkey => builds_after _ fun _ => ?_
        refine (builds_accept (hobject.index hkey)).bind fun _ hfound => ?_
        exact (builds_checkDepth hfound).bind fun _ hnext => ih hnext
      · exact builds_pure hobject

theorem builds_postfixTail (h : deeper.Fits room) {object : Expr}
    (hobject : object.Fits (room + 1) 9 free) :
    AlwaysBuilds (postfixTail deeper object) (Expr.Fits (room + 1) 9 free) :=
  builds_after _ fun fuel => builds_postfixLoop h fuel hobject

theorem builds_signLevel (h : deeper.Fits room) :
    Builds (FreeOfNot free) (signLevel env deeper) (Expr.Fits (room + 1) 8 free) := by
  refine builds_here fun p => builds_peek fun first hfirst => ?_
  split
  · refine (builds_primary h).bind fun object hobject => ?_
    exact (builds_postfixTail h hobject).mono (fun _ h => h) fun _ he => he.sign_of_postfix
  · next op hop =>
    have hsign : op ≠ .not := by
      rintro rfl
      rw [signOperator?.eq_def] at hop
      split at hop <;> cases hop
    refine builds_after _ fun _ => builds_peek fun l _ => ?_
    split
    · refine builds_after _ fun _ => ?_
      exact (builds_postfixTail h (.literal _)).mono (fun _ h => h) fun _ he => he.sign_of_postfix
    · exact h.signed.bind fun operand hoperand => builds_accept (.signed hsign hoperand)

theorem builds_chainLoop {operand : Parse Expr}
    (hoperand : AlwaysBuilds operand (Expr.Fits room (k + 1) False)) (fuel : Nat) {left : Expr}
    (hleft : left.Fits room k free) :
    AlwaysBuilds (chainLoop operand (operatorAt? k) Typing.join fuel left)
      (Expr.Fits room k free) := by
  induction fuel generalizing left with
  | zero => exact builds_pure hleft
  | succ fuel ih =>
    refine builds_here fun p => builds_peek fun l _ => ?_
    split
    · exact builds_pure hleft
    · next op hop =>
      obtain rfl := precedence_of_operatorAt? hop
      refine builds_after _ fun _ => hoperand.bind fun right hright => ?_
      have hjoined : (Typing.join op left right p).expr.Fits room op.precedence free := by
        rw [Typing.join_expr]
        exact hleft.joined hright
      exact (builds_accept hjoined).bind fun _ hfound =>
        (builds_checkDepth hfound).bind fun _ hnext => ih hnext

/-- A chain of operators builds what its operands do. -/
theorem builds_levelChain (hk : IsChain k)
    (hoperand : ∀ free, Builds (FreeOfNot free) (level env deeper (k + 1))
      (Expr.Fits room (k + 1) free)) (free : Prop) :
    Builds (FreeOfNot free) (level env deeper k) (Expr.Fits room k free) := by
  have hlater : AlwaysBuilds (level env deeper (k + 1)) (Expr.Fits room (k + 1) False) :=
    (hoperand False).mono (fun _ _ h => h.elim) fun _ he => he
  have hloose : k ≠ 3 ∧ k ≠ 8 := by
    rw [IsChain] at hk
    omega
  rw [level_chain env deeper hk]
  exact (hoperand free).bind fun first hfirst => builds_after _ fun fuel =>
    builds_chainLoop hlater fuel (hfirst.down hloose.1 hloose.2)

theorem builds_notLevel (h : deeper.Fits room)
    (hequality : ∀ free, Builds (FreeOfNot free) (equalityLevel env deeper)
      (Expr.Fits (room + 1) 4 free)) (free : Prop) :
    Builds F (notLevel env deeper) (Expr.Fits (room + 1) 3 free) := by
  refine builds_here fun p => builds_eatIf ?_ ?_
  · exact h.negated.bind fun operand hoperand => builds_accept hoperand.negation
  · refine (hequality True).mono (fun l hl _ => ?_) fun e he => he.not_of_equality
    simpa using (Bool.or_eq_false_iff.mp hl.2).1

theorem builds_levels (h : deeper.Fits room) :
    AlwaysBuilds (orLevel env deeper) (Expr.Fits (room + 1) 1 False) ∧
      AlwaysBuilds (notLevel env deeper) (Expr.Fits (room + 1) 3 False) ∧
      AlwaysBuilds (signLevel env deeper) (Expr.Fits (room + 1) 8 False) := by
  have h8 (free : Prop) : Builds (FreeOfNot free) (level env deeper 8)
      (Expr.Fits (room + 1) 8 free) := builds_signLevel h
  have h7 := builds_levelChain (k := 7) (by simp [IsChain]) h8
  have h6 := builds_levelChain (k := 6) (by simp [IsChain]) h7
  have h5 := builds_levelChain (k := 5) (by simp [IsChain]) h6
  have h4 := builds_levelChain (k := 4) (by simp [IsChain]) h5
  have h3 (free : Prop) : Builds (FreeOfNot free) (level env deeper 3)
      (Expr.Fits (room + 1) 3 free) := builds_notLevel h h4 free
  have h2 := builds_levelChain (k := 2) (by simp [IsChain]) h3
  have h1 := builds_levelChain (k := 1) (by simp [IsChain]) h2
  have halways {p : Parse Expr} {k : Nat} (hp : ∀ free, Builds (FreeOfNot free) p
      (Expr.Fits (room + 1) k free)) : AlwaysBuilds p (Expr.Fits (room + 1) k False) :=
    (hp False).mono (fun _ _ h => h.elim) fun _ he => he
  exact ⟨halways h1, halways h3, halways h8⟩

end Levels

/-- With some room a tree is built that fits into it. -/
theorem nested_fits (env : Env) (room : Nat) : (nested env room).Fits room := by
  induction room with
  | zero =>
    have hstop {Q : Expr → Prop} : AlwaysBuilds (do tooDeep (← here)) Q :=
      builds_none fun _ => rfl
    exact ⟨hstop, hstop, hstop⟩
  | succ room ih =>
    obtain ⟨hor, hnot, hsign⟩ := @builds_levels env _ _ ih
    have hchecked {p : Parse Expr} {Q : Expr → Prop} (hp : AlwaysBuilds p Q) :
        AlwaysBuilds (do checkDepth (← p)) Q :=
      hp.bind fun _ he => builds_checkDepth he
    exact ⟨hchecked hor, hchecked hnot, hchecked hsign⟩

end Grammar

end LogRules

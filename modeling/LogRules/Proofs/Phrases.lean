import LogRules.Proofs.BareTrees
import LogRules.Proofs.Levels
import LogRules.Proofs.Openings

/-!
The grammar of expressions as a relation: which lexemes derive which tree. A level is told by the
precedence of its operators, so looser levels have smaller numbers: 1 `or`, 2 `and`, 3 `not`,
4 equality, 5 order, 6 sums, 7 products, 8 signs, 9 accesses by name and by key, 10 all that needs
no operator.
-/
namespace LogRules

namespace Lexeme

/-- The operator that a lexeme stands for between two operands. -/
def binary? : Lexeme → Option BinaryOp
  | .symbol .orOr => some .or
  | .symbol .andAnd => some .and
  | .symbol .equal => some .eq
  | .symbol .notEqual => some .ne
  | .symbol .less => some .lt
  | .symbol .lessEqual => some .le
  | .symbol .greater => some .gt
  | .symbol .greaterEqual => some .ge
  | .symbol .plus => some .add
  | .symbol .minus => some .sub
  | .symbol .star => some .mul
  | .symbol .slash => some .div
  | .symbol .percent => some .rem
  | .name word =>
    if sameWord word "or" then some .or
    else if sameWord word "and" then some .and
    else none
  | _ => none

/-- The value that a lexeme is by itself. -/
def value? : Lexeme → Option Value
  | .integer n => some (.long n)
  | .float x => some (.double x)
  | .string text => some (.string text)
  | .name word =>
    if sameWord word "true" then some (.boolean true)
    else if sameWord word "false" then some (.boolean false)
    else none
  | _ => none

theorem sameWord_of_not_reserved {name word : String} (h : isReserved name = false)
    (hword : word ∈ reservedWords) : sameWord name word = false := by
  simpa using List.any_eq_false.mp h word hword

/-- Truth values are reserved words. -/
theorem value?_of_not_reserved {name : String} (h : isReserved name = false) :
    (Lexeme.name name).value? = none := by
  have htrue : sameWord name "true" = false := sameWord_of_not_reserved h (by decide)
  have hfalse : sameWord name "false" = false := sameWord_of_not_reserved h (by decide)
  rw [value?, if_neg (by simp [htrue]), if_neg (by simp [hfalse])]

/-- The name of a field, a function or a parameter. -/
def identifier? : Lexeme → Option String
  | .name text | .quotedName text => some text
  | _ => none

/-- The key of an entry of a map. -/
def key? : Lexeme → Option String
  | .name text | .quotedName text | .string text => some text
  | _ => none

/-- Lexemes that an expression can start with. -/
def starts : Lexeme → Bool
  | .name _ | .string _ | .integer _ | .float _ => true
  | .symbol s => s.opens || s == .bang
  | _ => false

theorem starts_of_isKeyword {l : Lexeme} {word : String} (h : l.isKeyword word = true) :
    l.starts = true := by
  cases l <;> first | rfl | cases h

theorem starts_of_value? {l : Lexeme} {value : Value} (h : l.value? = some value) :
    l.starts = true ∧ l ≠ .symbol .bang := by
  cases l <;> first | exact ⟨rfl, Lexeme.noConfusion⟩ | cases h

end Lexeme

namespace Grammar

theorem operatorAt?_eq_some {k : Nat} {l : Lexeme} {op : BinaryOp} :
    operatorAt? k l = some op ↔ l.binary? = some op ∧ op.precedence = k := by
  constructor
  · intro h
    refine ⟨?_, precedence_of_operatorAt? h⟩
    rw [operatorAt?.eq_def] at h
    cases l with
    | symbol s => split at h <;> cases s <;> cases h <;> rfl
    | name word =>
      have hword : Lexeme.sameWord word "and" = true → Lexeme.sameWord word "or" = false :=
        fun hand => Lexeme.isKeyword_ne (l := .name word) hand rfl
      split at h
      · simp_all [orOperator?, Lexeme.isKeyword, Lexeme.binary?]
      · simp_all [andOperator?, Lexeme.isKeyword, Lexeme.binary?]
      all_goals cases h
    | _ => split at h <;> cases h
  · rintro ⟨h, rfl⟩
    cases l with
    | symbol s => cases s <;> cases h <;> rfl
    | name word =>
      rw [Lexeme.binary?] at h
      split at h
      · next hor =>
        cases h
        exact if_pos (.inl hor)
      split at h
      · next hand =>
        cases h
        exact if_pos (.inl hand)
      · cases h
    | _ => cases h

section Named

variable {env : Env} {deeper : Deeper Parse} {name : String}

/-- A truth value is read as such whatever stands behind it. -/
theorem named_of_value? {value : Value} (h : (Lexeme.name name).value? = some value) :
    named env deeper name = (do
      let position ← Parse.here
      Parse.advance
      return .ofValue position value) := by
  rw [Lexeme.value?] at h
  split_ifs at h with htrue hfalse
  · cases h
    simp only [named, if_pos htrue, Parse.liftM_self]
  · cases h
    simp only [named, if_neg htrue, if_pos hfalse, Parse.liftM_self]

/-- Every other name is called, or it is a variable. -/
theorem named_of_no_value (h : (Lexeme.name name).value? = none) :
    named env deeper name = (do
      let position ← Parse.here
      if (← Parse.peek 1) = .symbol .leftParen then call env deeper name
      else if isReserved name then Parse.unexpected "expression"
      else
        Parse.advance
        accept (Typing.variableIn env.scope name position)) := by
  rw [Lexeme.value?] at h
  split_ifs at h with htrue hfalse
  simp only [named, if_neg htrue, if_neg hfalse, Parse.liftM_self]

end Named

/-- The lexemes of operators before an operand, each with its level. A minus directly before a
number is a part of the number instead. -/
inductive Prefixes : Nat → Lexeme → UnaryOp → List Lexeme → Prop
  | word {l : Lexeme} {ls : List Lexeme} (h : l.isKeyword "not" = true) : Prefixes 3 l .not ls
  | bang {ls : List Lexeme} : Prefixes 3 (.symbol .bang) .not ls
  | plus {ls : List Lexeme} : Prefixes 8 (.symbol .plus) .plus ls
  | minus {ls : List Lexeme} (h : ∀ l ∈ ls.head?, number? l = none) :
    Prefixes 8 (.symbol .minus) .negate ls

/-- What is derived without parts. -/
inductive Atom : List Lexeme → Expr → Prop
  | literal {l : Lexeme} {value : Value} (h : l.value? = some value) :
    Atom [l] (.literal .blank value)
  | negative {l : Lexeme} {value : Value} (h : number? l = some value) :
    Atom [.symbol .minus, l] (.literal .blank (negateNumber value))
  | field {word l : Lexeme} {name : String} (hword : word.isKeyword "message" = true)
    (hl : l.identifier? = some name) :
    Atom [.symbol .dollar, word, .symbol .dot, l] (.field .blank name)
  | var {name : String} (h : isReserved name = false) : Atom [.name name] (.var .blank name)

/-- An expression in a list as it is written: behind a label and a colon, or alone. -/
structure Item where
  label : Option Lexeme
  body : List Lexeme
  tree : Expr

namespace Item

def lexemes (i : Item) : List Lexeme :=
  match i.label with
  | none => i.body
  | some l => l :: .symbol .colon :: i.body

/-- What the label says. -/
def key? (i : Item) : Option String := i.label.bind Lexeme.key?

end Item

/-- Items with commas between them. -/
def listed (items : List Item) : List Lexeme :=
  [.symbol .comma].intercalate (items.map Item.lexemes)

/-- Lists: what opens and closes them, the labels of their items, and their tree. A name directly
before a parenthesis is that of a function, unless it is a truth value. -/
inductive Bracketed (registry : Registry) : List Lexeme → Symbol → List Item → Expr → Prop
  | array {items : List Item} (h : ∀ i ∈ items, i.label = none) :
    Bracketed registry [.symbol .leftBracket] .rightBracket items
      (.array .blank (items.map (·.tree)))
  | map {items : List Item} (h : ∀ i ∈ items, i.key?.isSome) :
    Bracketed registry [.symbol .leftBrace] .rightBrace items
      (.map .blank (items.map fun i => (i.key?.getD "", i.tree)))
  | call {name : String} {items : List Item} (hname : (Lexeme.name name).value? = none)
    (h : ∀ i ∈ items, ∀ l ∈ i.label, l.identifier?.isSome) :
    Bracketed registry [.name name, .symbol .leftParen] .rightParen items
      (registry.callTree name (items.map fun i => ⟨i.key?, i.tree⟩))

/-- Lexemes that derive a tree at a level, nesting no deeper than there is room. Operators between
operands group to the left. Where `not` is an operator it is nothing else. -/
inductive Phrase (registry : Registry) : Nat → Nat → List Lexeme → Expr → Prop
  | up {room k : Nat} {ls : List Lexeme} {t : Expr} (h : Phrase registry room (k + 1) ls t)
    (hnot : k = 3 → ∀ l ∈ ls.head?, l.isKeyword "not" = false) : Phrase registry room k ls t
  | join {room k : Nat} {l : Lexeme} {op : BinaryOp} {ls rs : List Lexeme} {s t : Expr}
    (hop : l.binary? = some op) (hk : op.precedence = k) (left : Phrase registry room k ls s)
    (right : Phrase registry room (k + 1) rs t) :
    Phrase registry room k (ls ++ l :: rs) (.binary .blank op s t)
  | sign {room k : Nat} {l : Lexeme} {op : UnaryOp} {ls : List Lexeme} {t : Expr}
    (hop : Prefixes k l op ls) (operand : Phrase registry room k ls t) :
    Phrase registry (room + 1) k (l :: ls) (.unary .blank op t)
  | access {room : Nat} {l : Lexeme} {name : String} {ls : List Lexeme} {t : Expr}
    (hname : l.identifier? = some name) (object : Phrase registry room 9 ls t) :
    Phrase registry room 9 (ls ++ [.symbol .dot, l]) (.access .blank t name)
  | index {room : Nat} {ls ks : List Lexeme} {s t : Expr}
    (object : Phrase registry (room + 1) 9 ls s) (key : Phrase registry room 1 ks t) :
    Phrase registry (room + 1) 9 (ls ++ .symbol .leftBracket :: (ks ++ [.symbol .rightBracket]))
      (.index .blank s t)
  | atom {room : Nat} {ls : List Lexeme} {t : Expr} (h : Atom ls t) : Phrase registry room 10 ls t
  | parens {room : Nat} {ls : List Lexeme} {t : Expr} (inner : Phrase registry room 1 ls t) :
    Phrase registry (room + 1) 10 (.symbol .leftParen :: (ls ++ [.symbol .rightParen])) t
  | list {room : Nat} {opening : List Lexeme} {close : Symbol} {items : List Item} {t : Expr}
    (h : Bracketed registry opening close items t) (hroom : items ≠ [] → 0 < room)
    (hitems : ∀ i ∈ items, Phrase registry (room - 1) 1 i.body i.tree) :
    Phrase registry room 10 (opening ++ (listed items ++ [.symbol close])) t

/-- Lexemes derive an expression within the limits of nesting. -/
structure Derives (registry : Registry) (ls : List Lexeme) (t : Expr) : Prop where
  phrase : ∃ room < maxNesting, Phrase registry room 1 ls t
  depth_le : t.depth ≤ maxNesting

/-- A lexeme goes on with what others have begun at a level, whatever the limits. -/
def Continues (registry : Registry) (k : Nat) (ls : List Lexeme) (l : Lexeme) : Prop :=
  ∃ room more t, Phrase registry room k (ls ++ l :: more) t

variable {registry : Registry} {room k : Nat} {ls : List Lexeme} {t : Expr}

namespace Phrase

theorem mono (h : Phrase registry room k ls t) {room' : Nat} (hle : room ≤ room') :
    Phrase registry room' k ls t := by
  induction h generalizing room' with
  | up h hnot ih => exact .up (ih hle) hnot
  | join hop hk left right ihl ihr => exact .join hop hk (ihl hle) (ihr hle)
  | sign hop operand ih =>
    obtain ⟨room', rfl⟩ : ∃ n, room' = n + 1 := ⟨room' - 1, by omega⟩
    exact .sign hop (ih (Nat.le_of_succ_le_succ hle))
  | access hname object ih => exact .access hname (ih hle)
  | index object key iho ihk =>
    obtain ⟨room', rfl⟩ : ∃ n, room' = n + 1 := ⟨room' - 1, by omega⟩
    exact .index (iho hle) (ihk (Nat.le_of_succ_le_succ hle))
  | atom h => exact .atom h
  | parens inner ih =>
    obtain ⟨room', rfl⟩ : ∃ n, room' = n + 1 := ⟨room' - 1, by omega⟩
    exact .parens (ih (Nat.le_of_succ_le_succ hle))
  | list h hroom hitems ih =>
    exact .list h (fun hne => (hroom hne).trans_le hle) fun i hi =>
      ih i hi (Nat.sub_le_sub_right hle 1)

/-- A phrase starts with a lexeme that can start one. -/
theorem starts (h : Phrase registry room k ls t) :
    ∃ l more, ls = l :: more ∧ l.starts = true ∧ (3 < k → l ≠ .symbol .bang) := by
  induction h with
  | up h hnot ih =>
    obtain ⟨l, more, hls, hl, hbang⟩ := ih
    exact ⟨l, more, hls, hl, fun hk => hbang (by omega)⟩
  | join hop hk left right ihl ihr =>
    obtain ⟨l, more, rfl, hl, hbang⟩ := ihl
    exact ⟨l, _, rfl, hl, hbang⟩
  | sign hop operand ih =>
    refine ⟨_, _, rfl, ?_, ?_⟩
    · cases hop with
      | word h => exact Lexeme.starts_of_isKeyword h
      | _ => rfl
    · cases hop <;> simp
  | access hname object ih | index object key ih =>
    obtain ⟨l, more, rfl, hl, hbang⟩ := ih
    exact ⟨l, _, rfl, hl, hbang⟩
  | atom h =>
    cases h with
    | literal h =>
      obtain ⟨hstarts, hbang⟩ := Lexeme.starts_of_value? h
      exact ⟨_, _, rfl, hstarts, fun _ => hbang⟩
    | negative h | field hword hl | var h => exact ⟨_, _, rfl, rfl, by simp⟩
  | parens inner ih => exact ⟨_, _, rfl, rfl, by simp⟩
  | list h hroom hitems ih => cases h <;> exact ⟨_, _, rfl, rfl, by simp⟩

theorem ne_nil (h : Phrase registry room k ls t) : ls ≠ [] := by
  obtain ⟨l, more, rfl, -⟩ := h.starts
  exact List.cons_ne_nil l more

/-- What binds tightly is an operand of all looser operators, unless it starts like a negation. -/
theorem loosen (h : Phrase registry room k ls t) {j : Nat} (hle : j ≤ k)
    (hnot : ∀ l ∈ ls.head?, l.isKeyword "not" = false) : Phrase registry room j ls t := by
  obtain ⟨d, rfl⟩ := Nat.exists_eq_add_of_le hle
  induction d with
  | zero => exact h
  | succ d ih => exact ih (.up h fun _ => hnot) (Nat.le_add_right j d)

theorem number (n : Int64) (hk : k ≤ 10) :
    Phrase registry room k [.integer n] (.literal .blank (.long n)) :=
  loosen (.atom (.literal rfl)) hk (by simp [Lexeme.isKeyword])

theorem ofVariable {name : String} (h : isReserved name = false) (hk : k ≤ 10) :
    Phrase registry room k [.name name] (.var .blank name) := by
  refine loosen (.atom (.var h)) hk ?_
  have hnot : Lexeme.sameWord name "not" = false :=
    Lexeme.sameWord_of_not_reserved h (by decide)
  simpa [Lexeme.isKeyword] using hnot

end Phrase

theorem Bracketed.labelled {opening : List Lexeme} {close : Symbol} {items : List Item}
    (h : Bracketed registry opening close items t) {i : Item} (hi : i ∈ items) :
    ∀ l ∈ i.label, l.key?.isSome := by
  intro l hl
  cases h with
  | array h => simp [h i hi] at hl
  | map h => simpa [Item.key?, Option.mem_def.mp hl] using h i hi
  | call hname h =>
    have hidentifier := h i hi l hl
    cases l <;> first | rfl | cases hidentifier

theorem Bracketed.children {opening : List Lexeme} {close : Symbol} {items : List Item}
    (h : Bracketed registry opening close items t) : t.children = items.map (·.tree) := by
  cases h with
  | array => rfl
  | map => simp [Expr.children]
  | call => simp [Registry.children_callTree]

theorem Bracketed.depth_lt {opening : List Lexeme} {close : Symbol} {items : List Item}
    (h : Bracketed registry opening close items t) {i : Item} (hi : i ∈ items) :
    i.tree.depth < t.depth :=
  Expr.depth_child_lt (h.children ▸ List.mem_map_of_mem hi)

/-- An item starts with a label or with its expression, and so with no symbol that closes. -/
theorem Item.exists_first {i : Item} (h : Phrase registry room k i.body i.tree)
    (hlabel : ∀ l ∈ i.label, l.key?.isSome) :
    ∃ l more, i.lexemes = l :: more ∧ ∀ s, (Lexeme.symbol s).starts = false → l ≠ .symbol s := by
  rw [lexemes]
  split
  · obtain ⟨l, more, hbody, hstarts, -⟩ := h.starts
    exact ⟨l, more, hbody, fun s hs hl => by simp [hl, hs] at hstarts⟩
  · next l hl => exact ⟨l, _, rfl, fun s _ hs => by simpa [hs, Lexeme.key?] using hlabel l hl⟩

theorem head?_listed {i : Item} (items : List Item) (hi : i.lexemes ≠ []) :
    (listed (i :: items)).head? = i.lexemes.head? := by
  rw [listed]
  obtain _ | ⟨next, items⟩ := items
  · rw [List.map_singleton, List.intercalate_singleton]
  · rw [List.map_cons, List.map_cons, List.intercalate_cons_cons, List.append_assoc,
      List.head?_append_of_ne_nil _ hi]

theorem second_append {ls rs : List Lexeme} {l other : Lexeme} (hls : ls ≠ [])
    (h : ls.tail.head? ≠ some other) (hl : l ≠ other) :
    (ls ++ l :: rs).tail.head? ≠ some other := by
  obtain _ | ⟨first, _ | ⟨second, ls⟩⟩ := ls
  · exact absurd rfl hls
  · simpa using hl
  · simpa using h

namespace Phrase

/-- A colon is never the second lexeme: what looks like a label is none. -/
theorem second (h : Phrase registry room k ls t) : ls.tail.head? ≠ some (.symbol .colon) := by
  induction h with
  | up h hnot ih => exact ih
  | join hop hk left right ihl ihr =>
    refine second_append left.ne_nil ihl ?_
    rintro rfl
    cases hop
  | sign hop operand ih =>
    obtain ⟨l, more, rfl, hstarts, -⟩ := operand.starts
    rintro ⟨⟩
    cases hstarts
  | access hname object ih | index object key ih =>
    exact second_append object.ne_nil ih (by simp)
  | atom h =>
    cases h with
    | literal h | var h => simp
    | @negative l value h =>
      rintro ⟨⟩
      cases h
    | @field word l name hword hl =>
      rintro ⟨⟩
      cases hword
  | @parens room ls t inner ih =>
    obtain ⟨l, more, rfl, hstarts, -⟩ := inner.starts
    rintro ⟨⟩
    cases hstarts
  | @list room opening close items t h hroom hitems ih =>
    -- a bracket is followed by an item or by what closes it, the name of a function by a bracket
    have hclose : close ≠ .colon := by cases h <;> simp
    have hitem : (listed items ++ [Lexeme.symbol close]).head? ≠ some (.symbol .colon) := by
      obtain _ | ⟨i, items⟩ := items
      · simpa [listed] using hclose
      · obtain ⟨l, more, hfirst, hl⟩ :=
          Item.exists_first (hitems i List.mem_cons_self) (h.labelled List.mem_cons_self)
        rw [List.head?_append, head?_listed items (by simp [hfirst]), hfirst]
        simpa using hl .colon rfl
    cases h with
    | array h | map h => exact hitem
    | call hname h => simp

end Phrase

theorem Prefixes.append {l : Lexeme} {op : UnaryOp} (h : Prefixes k l op ls) (hls : ls ≠ [])
    (more : List Lexeme) : Prefixes k l op (ls ++ more) := by
  cases h with
  | word h => exact .word h
  | bang => exact .bang
  | plus => exact .plus
  | minus h => exact .minus (by rwa [List.head?_append_of_ne_nil ls hls])

namespace Continues

variable {l : Lexeme}

theorem up (h : Continues registry (k + 1) ls l) (hls : ls ≠ [])
    (hnot : k = 3 → ∀ l ∈ ls.head?, l.isKeyword "not" = false) : Continues registry k ls l := by
  obtain ⟨room, more, t, h⟩ := h
  exact ⟨room, more, t, .up h (by rwa [List.head?_append_of_ne_nil ls hls])⟩

theorem join {o : Lexeme} {op : BinaryOp} {rs : List Lexeme} (hop : o.binary? = some op)
    (hk : op.precedence = k) (left : Phrase registry room k ls t)
    (h : Continues registry (k + 1) rs l) : Continues registry k (ls ++ o :: rs) l := by
  obtain ⟨room', more, s, h⟩ := h
  have hjoin := Phrase.join hop hk (left.mono (le_max_left room room'))
    (h.mono (le_max_right room room'))
  exact ⟨max room room', more, _, by rwa [List.append_assoc]⟩

theorem sign {o : Lexeme} {op : UnaryOp} (hop : Prefixes k o op ls) (hls : ls ≠ [])
    (h : Continues registry k ls l) : Continues registry k (o :: ls) l := by
  obtain ⟨room, more, t, h⟩ := h
  exact ⟨room + 1, more, _, .sign (hop.append hls (l :: more)) h⟩

theorem of_binary {op : BinaryOp} (h : Phrase registry room k ls t) (hop : l.binary? = some op)
    (hk : op.precedence = k) : Continues registry k ls l := by
  have hle : k + 1 ≤ 10 := by
    rw [← hk]
    cases op <;> decide
  exact ⟨room, [.integer 1], _, .join hop hk h (.number 1 hle)⟩

theorem dot (h : Phrase registry room 9 ls t) : Continues registry 9 ls (.symbol .dot) :=
  ⟨room, [.name "x"], _, .access rfl h⟩

theorem bracket (h : Phrase registry room 9 ls t) :
    Continues registry 9 ls (.symbol .leftBracket) :=
  ⟨room + 1, [.integer 1, .symbol .rightBracket], _,
    .index (h.mono (Nat.le_succ room)) (.number 1 (by omega))⟩

theorem call {name : String} (h : (Lexeme.name name).value? = none) :
    Continues registry 9 [.name name] (.symbol .leftParen) :=
  ⟨0, [.symbol .rightParen], _, .up (.list (@Bracketed.call registry name [] h (by simp))
    (absurd rfl) (by simp)) (by simp)⟩

end Continues

end Grammar

end LogRules

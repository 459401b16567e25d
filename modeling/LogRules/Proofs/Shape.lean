import LogRules.Proofs.Checks
import LogRules.Grammar.Declaration

/-!
The shape of what is parsed: all of it but what only a registry can tell, namely static types, the
functions behind calls and the parameters that arguments given by place are bound to. The canonical
text, and so the fingerprint of a rule, is one of the shape.
-/
namespace LogRules

def Site.shape (site : Site) : Site := ⟨.any, site.position⟩

namespace Expr

mutual

/-- An expression without its types, with every call left unresolved. -/
def shape : Expr → Expr
  | literal site value => literal site.shape value
  | array site items => array site.shape (shapeItems items)
  | map site entries => map site.shape (shapeEntries true entries)
  | var site name => var site.shape name
  | field site name => field site.shape name
  | access site object name => access site.shape (shape object) name
  | index site object key => index site.shape (shape object) (shape key)
  | unary site op operand => unary site.shape op (shape operand)
  | binary site op left right => binary site.shape op (shape left) (shape right)
  | call site name _ args named _ =>
    call site.shape name .unresolved (shapeEntries named args) named false

def shapeItems : List Expr → List Expr
  | [] => []
  | e :: rest => shape e :: shapeItems rest

/-- Only keys and names of parameters that are written out belong to the shape. -/
def shapeEntries (written : Bool) : List (String × Expr) → List (String × Expr)
  | [] => []
  | (key, e) :: rest => (if written then key else "", shape e) :: shapeEntries written rest

end

theorem shapeItems_eq (items : List Expr) : shapeItems items = items.map shape := by
  induction items with
  | nil => rfl
  | cons e rest ih => rw [shapeItems, ih, List.map_cons]

theorem shapeEntries_eq (written : Bool) (entries : List (String × Expr)) :
    shapeEntries written entries =
      entries.map fun entry => (if written then entry.1 else "", entry.2.shape) := by
  induction entries with
  | nil => rfl
  | cons entry rest ih => rw [shapeEntries, ih, List.map_cons]

theorem site_shape (e : Expr) : e.shape.site = e.site.shape := by
  cases e <;> rw [shape] <;> rfl

@[simp] theorem position_shape (e : Expr) : e.shape.position = e.position := by
  rw [position, site_shape]
  rfl

theorem position_of_shape {e e' : Expr} (h : e.shape = e'.shape) : e.position = e'.position := by
  rw [← position_shape, h, position_shape]

@[simp] theorem isCall_shape (e : Expr) : e.shape.isCall = e.isCall := by
  cases e <;> rw [shape] <;> rfl

@[simp] theorem precedence_shape (e : Expr) : e.shape.precedence = e.precedence := by
  cases e with
  | unary _ op _ => cases op <;> rw [shape] <;> rfl
  | literal _ value => cases value <;> rw [shape] <;> rfl
  | _ => rw [shape]; rfl

theorem shape_moveTo (p : Position) (e : Expr) : (e.moveTo p).shape = e.shape.moveTo p := by
  cases e <;> rw [moveTo, shape, shape, moveTo] <;> rfl

mutual

@[simp] theorem depth_shape : ∀ e : Expr, e.shape.depth = e.depth
  | literal _ _ | var _ _ | field _ _ => by simp only [shape, depth]
  | array _ items => by simp only [shape, depth, depthItems_shape items]
  | map _ entries => by simp only [shape, depth, depthEntries_shape true entries]
  | access _ object _ => by simp only [shape, depth, depth_shape object]
  | index _ object key => by simp only [shape, depth, depth_shape object, depth_shape key]
  | unary _ _ operand => by simp only [shape, depth, depth_shape operand]
  | binary _ _ left right => by simp only [shape, depth, depth_shape left, depth_shape right]
  | call _ _ _ args named _ => by simp only [shape, depth, depthEntries_shape named args]

theorem depthItems_shape : ∀ items, depthItems (shapeItems items) = depthItems items
  | [] => rfl
  | e :: rest => by simp only [shapeItems, depthItems, depth_shape e, depthItems_shape rest]

theorem depthEntries_shape (written : Bool) :
    ∀ entries, depthEntries (shapeEntries written entries) = depthEntries entries
  | [] => rfl
  | (_, e) :: rest => by
    simp only [shapeEntries, depthEntries, depth_shape e, depthEntries_shape written rest]

end

mutual

/-- The canonical text is one of the shape. -/
@[simp] theorem text_shape : ∀ e : Expr, e.shape.text = e.text
  | literal _ _ | var _ _ | field _ _ => by simp only [shape, text]
  | array _ items => by simp only [shape, text, textItems_shape items]
  | map _ entries => by simp only [shape, text, textEntries_shape entries]
  | access _ object _ => by simp only [shape, text, text_shape object, precedence_shape]
  | index _ object key => by
    simp only [shape, text, text_shape object, text_shape key, precedence_shape]
  | unary _ op operand => by
    cases op <;> simp only [shape, text, text_shape operand, precedence_shape]
  | binary _ _ left right => by
    simp only [shape, text, text_shape left, text_shape right, precedence_shape]
  | call _ _ _ args named _ => by simp only [shape, text, textArgs_shape named args]

theorem textItems_shape : ∀ items, textItems (shapeItems items) = textItems items
  | [] => rfl
  | e :: rest => by simp only [shapeItems, textItems, text_shape e, textItems_shape rest]

theorem textEntries_shape :
    ∀ entries, textEntries (shapeEntries true entries) = textEntries entries
  | [] => rfl
  | (_, e) :: rest => by
    simp only [shapeEntries, textEntries, text_shape e, textEntries_shape rest, if_true]

theorem textArgs_shape (named : Bool) :
    ∀ args, textArgs named (shapeEntries named args) = textArgs named args
  | [] => rfl
  | (_, e) :: rest => by
    cases named <;>
      simp only [shapeEntries, textArgs, text_shape e, textArgs_shape _ rest, if_true,
        Bool.false_eq_true, if_false]

end

end Expr

def Statement.shape : Statement → Statement
  | perform expression => perform expression.shape
  | bind name _ value position => bind name .any value.shape position

@[simp] theorem Statement.text_shape (s : Statement) : s.shape.text = s.text := by
  cases s <;> simp only [shape, text, Expr.text_shape]

namespace Rule

def shape (r : Rule) : Rule :=
  ⟨r.name, r.condition.shape, r.statements.map Statement.shape, r.position⟩

@[simp] theorem body_shape (r : Rule) : r.shape.body = r.body := by
  simp only [shape, body, Expr.text_shape, List.map_map, Function.comp_def, Statement.text_shape]

@[simp] theorem text_shape (r : Rule) : r.shape.text = r.text := by
  rw [text, body_shape]
  rfl

@[simp] theorem fingerprint_shape (r : Rule) : r.shape.fingerprint = r.fingerprint := by
  rw [fingerprint, body_shape]
  rfl

end Rule

namespace Declaration

def shape : Declaration → Declaration
  | rule r => rule r.shape
  | pipeline p => pipeline p

@[simp] theorem name_shape (d : Declaration) : d.shape.name = d.name := by cases d <;> rfl

@[simp] theorem text_shape (d : Declaration) : d.shape.text = d.text := by
  cases d with
  | rule r => exact r.text_shape
  | pipeline p => rfl

theorem rule?_shape (d : Declaration) : d.shape.rule? = d.rule?.map Rule.shape := by
  cases d <;> rfl

end Declaration

end LogRules

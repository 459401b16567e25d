import LogRules.Eval

/-!
The nodes of an expression that its evaluation comes to, each with the state it is evaluated in. The
operands of a node are evaluated in order, until one of them fails or answers for the node. A run of
a rule comes to the nodes of its condition, or to those of its statements.
-/
namespace LogRules

open EvalM

namespace Expr

/-- Whether a node whose first operands have these values evaluates the next one. -/
def goesOn : Expr → List Value → Bool
  | binary _ .and _ _, [value] => value.asBoolean? == some true
  | binary _ .or _ _, [value] => value.asBoolean? == some false
  | _, _ => true

/-- An operator that looks at both of its operands always goes on to the second. -/
theorem goesOn_of_eager {site : Site} {op : BinaryOp} {left right : Expr} {values : List Value}
    (hand : op ≠ .and) (hor : op ≠ .or) : (binary site op left right).goesOn values = true := by
  cases op <;> first | rfl | exact absurd rfl hand | exact absurd rfl hor

theorem eval_of_eager {site : Site} {op : BinaryOp} {left right : Expr} (hand : op ≠ .and)
    (hor : op ≠ .or) : (binary site op left right).eval = (do
      let a ← left.eval
      let b ← right.eval
      lift (Operator.binary op a b)) := by
  cases op <;> first | rfl | exact absurd rfl hand | exact absurd rfl hor

/-- The evaluation of an expression in a state comes to a node in another state. -/
inductive Reaches : Expr → Context → Expr → Context → Prop
  | here (e : Expr) (c : Context) : Reaches e c e c
  | operand {e next n : Expr} {before after : List Expr} {values : List Value} {c c' d : Context}
      (hchildren : e.children = before ++ next :: after)
      (hbefore : (evalItems before).runOn c = (.ok values, c'))
      (hgoes : e.goesOn values = true) (hnext : Reaches next c' n d) : Reaches e c n d

theorem evalEntries_eq (entries : List (String × Expr)) :
    evalEntries entries = do
      let values ← evalItems (entries.map (·.2))
      return (entries.map (·.1)).zip values := by
  induction entries with
  | nil => simp [evalEntries, evalItems]
  | cons entry rest ih => simp [evalEntries, evalItems, ih]

section Values

variable {e other : Expr} {c c' d : Context} {value answer : Value}

theorem evalItems_one (h : e.eval.runOn c = (.ok value, d)) :
    (evalItems [e]).runOn c = (.ok [value], d) := by
  simp only [evalItems, runOn_bind, h, runOn_pure]

theorem evalItems_two (h : e.eval.runOn c = (.ok value, c'))
    (h' : other.eval.runOn c' = (.ok answer, d)) :
    (evalItems [e, other]).runOn c = (.ok [value, answer], d) := by
  simp only [evalItems, runOn_bind, h, h', runOn_pure]

end Values

end Expr

/-- A run of the rule comes to a node in a state: its condition does, or one of its statements
behind those before it. -/
inductive Rule.Reaches (r : Rule) (c : Context) (n : Expr) (d : Context) : Prop
  | condition (h : r.condition.Reaches c n d)
  | statement {before after : List Statement} {s : Statement} {c' : Context}
      (hstatements : r.statements = before ++ s :: after)
      (hbefore : (Statement.executeAll before).runOn c = (.ok (), c'))
      (h : s.expression.Reaches c' n d)

end LogRules

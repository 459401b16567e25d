import LogRules.Operator
import LogRules.Rule

/-!
Evaluation by walking the tree of an expression, and the run of a rule's statements.
-/
namespace LogRules

namespace Expr

mutual

def eval : Expr → EvalM Value
  | literal _ value => return value
  | array _ items => return .list (← evalItems items)
  | map _ entries => return .map (Entries.ofList (← evalEntries entries))
  | var _ name => EvalM.lookup name
  | field _ name => return (← EvalM.message).field name
  | access _ object name => do
    let value ← eval object
    EvalM.lift (Operator.access value name)
  | index _ object key => do
    let value ← eval object
    let place ← eval key
    EvalM.lift (Operator.index value place)
  | unary _ op operand => do
    let value ← eval operand
    EvalM.lift (Operator.unary op value)
  | binary _ .and left right => do
    if ← EvalM.lift (Operator.truthy (← eval left)) then
      return .boolean (← EvalM.lift (Operator.truthy (← eval right)))
    else return .boolean false
  | binary _ .or left right => do
    if ← EvalM.lift (Operator.truthy (← eval left)) then return .boolean true
    else return .boolean (← EvalM.lift (Operator.truthy (← eval right)))
  | binary _ op left right => do
    let a ← eval left
    let b ← eval right
    EvalM.lift (Operator.binary op a b)
  | call _ name target args _ _ => do target.invoke name (← evalEntries args)

def evalItems : List Expr → EvalM (List Value)
  | [] => return []
  | e :: rest => return (← eval e) :: (← evalItems rest)

def evalEntries : List (String × Expr) → EvalM (List (String × Value))
  | [] => return []
  | (key, e) :: rest => return (key, ← eval e) :: (← evalEntries rest)

end

def evalCondition (e : Expr) : EvalM Bool := do EvalM.lift (Operator.truthy (← e.eval))

end Expr

namespace Statement

def execute : Statement → EvalM Unit
  | perform expression => discard expression.eval
  | bind name type value _ => do EvalM.define name type (← value.eval)

/-- Statements in order, up to the first that fails. -/
def executeAll : List Statement → EvalM Unit
  | [] => return ()
  | s :: rest => do
    s.execute
    executeAll rest

end Statement

end LogRules

import LogRules.Eval

/-!
Rules compiled to computations. A compiled expression no longer looks at its tree, and the parts of
it that read nothing but literals are evaluated once, when that evaluation succeeds; a part that
fails is compiled as it stands, so that its fault still arises when it is run.
-/
namespace LogRules

-- The instance of the core library, whatever else a file has in scope.
attribute [local instance (high)] Zero.ofOfNat0

/-- Why a rule is not compiled. -/
inductive CompileError
  | unresolvedFunction (name : String)
  | tooDeep (depth limit : Nat)
deriving DecidableEq, Inhabited, Repr

def CompileError.message : CompileError → String
  | unresolvedFunction name => s!"rule calls unresolved function '{name}'"
  | tooDeep depth limit => s!"expression depth {depth} exceeds limit {limit}"

/-- A compiled part and the number of constants that were evaluated for it. -/
structure Compiled (α : Type) where
  run : EvalM α
  folded : Nat

namespace Expr

/-- The value of an expression that reads nothing, if it has one. -/
def foldConstant? (e : Expr) : Option Value :=
  if e.isLiteral || !e.isConstant then none
  else match (e.eval.runOn (.start (.empty .nil .epoch))).1 with
    | .ok value => some value
    | .error _ => none

/-- Puts the evaluated constant in the place of a compiled expression, if there is one. -/
def withConstant (e : Expr) (compiled : Compiled Value) : Compiled Value :=
  match e.foldConstant? with
  | some value => ⟨return value, 1⟩
  | none => compiled

mutual

def compile : Expr → Compiled Value
  | literal _ value => ⟨return value, 0⟩
  | array site items =>
    let parts := compileItems items
    withConstant (.array site items) ⟨return .list (← parts.run), parts.folded⟩
  | map site entries =>
    let parts := compileEntries entries
    withConstant (.map site entries)
      ⟨return .map (Entries.ofList (← parts.run)), parts.folded⟩
  | var _ name => ⟨EvalM.lookup name, 0⟩
  | field _ name => ⟨return (← EvalM.message).field name, 0⟩
  | access site object name =>
    let part := compile object
    withConstant (.access site object name)
      ⟨do EvalM.lift (Operator.access (← part.run) name), part.folded⟩
  | index site object key =>
    let a := compile object
    let b := compile key
    withConstant (.index site object key)
      ⟨do
        let value ← a.run
        let place ← b.run
        EvalM.lift (Operator.index value place), a.folded + b.folded⟩
  | unary site op operand =>
    let part := compile operand
    withConstant (.unary site op operand)
      ⟨do EvalM.lift (Operator.unary op (← part.run)), part.folded⟩
  | binary site op left right =>
    let a := compile left
    let b := compile right
    let run : EvalM Value := match op with
      | .and => do
        if ← EvalM.lift (Operator.truthy (← a.run)) then
          return .boolean (← EvalM.lift (Operator.truthy (← b.run)))
        else return .boolean false
      | .or => do
        if ← EvalM.lift (Operator.truthy (← a.run)) then return .boolean true
        else return .boolean (← EvalM.lift (Operator.truthy (← b.run)))
      | op => do
        let x ← a.run
        let y ← b.run
        EvalM.lift (Operator.binary op x y)
    withConstant (.binary site op left right) ⟨run, a.folded + b.folded⟩
  | call _ name target args _ _ =>
    let parts := compileEntries args
    ⟨do target.invoke name (← parts.run), parts.folded⟩

def compileItems : List Expr → Compiled (List Value)
  | [] => ⟨return [], 0⟩
  | e :: rest =>
    let first := compile e
    let others := compileItems rest
    ⟨return (← first.run) :: (← others.run), first.folded + others.folded⟩

def compileEntries : List (String × Expr) → Compiled (List (String × Value))
  | [] => ⟨return [], 0⟩
  | (key, e) :: rest =>
    let first := compile e
    let others := compileEntries rest
    ⟨return (key, ← first.run) :: (← others.run), first.folded + others.folded⟩

end

end Expr

def Statement.compile : Statement → Compiled Unit
  | .perform expression =>
    let part := expression.compile
    ⟨discard part.run, part.folded⟩
  | .bind name type value _ =>
    let part := value.compile
    ⟨do EvalM.define name type (← part.run), part.folded⟩

structure CompiledRule where
  fingerprint : Fingerprint
  condition : EvalM Value
  statements : List (EvalM Unit)
  folded : Nat
deriving Inhabited

namespace CompiledRule

def evalCondition (c : CompiledRule) : EvalM Bool := do
  EvalM.lift (Operator.truthy (← c.condition))

/-- Runs computations in order, up to the first that fails. -/
def runAll : List (EvalM Unit) → EvalM Unit
  | [] => return ()
  | s :: rest => do
    s
    runAll rest

def execute (c : CompiledRule) : EvalM Unit := runAll c.statements

def listing (c : CompiledRule) : String :=
  "CompiledRule \x7b fingerprint: " ++ c.fingerprint.label ++
    ", statements: " ++ toString c.statements.length ++ ", folded: " ++ toString c.folded ++ " \x7d"

end CompiledRule

/-- The deepest expression that is compiled when nothing else is asked for. -/
def standardCompileDepth : Nat := 64

/-- What keeps an expression from being compiled, if anything does. -/
def Expr.obstacle? (limit : Nat) (e : Expr) : Option CompileError :=
  if limit < e.depth then some (.tooDeep e.depth limit)
  else (e.calls.find? (!·.resolved)).map fun call => .unresolvedFunction call.name

/-- Compiles a rule unless one of its expressions is too deep or calls an unknown function; the
first of them that does tells why. -/
def Rule.compile (limit : Nat) (r : Rule) : Except CompileError CompiledRule :=
  match r.expressions.findSome? (Expr.obstacle? limit) with
  | some error => .error error
  | none =>
    let condition := r.condition.compile
    let statements := r.statements.map Statement.compile
    .ok {
      fingerprint := r.fingerprint
      condition := condition.run
      statements := statements.map (·.run)
      folded := condition.folded + (statements.map (·.folded)).sum }

end LogRules

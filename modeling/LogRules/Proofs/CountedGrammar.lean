import LogRules.Grammar.Declaration

/-!
The grammar with a counter: the same productions in a monad that keeps one. How deep parsing is
nested is a number that goes up where an expression is entered and down where it is left, found or
not; a parser that would take it above the limit is not entered. The highest number that was reached
is kept as well, only to speak of it.
-/
namespace LogRules

/-- How deep parsing is nested, and how deep it has been. -/
structure Counter where
  depth : Nat
  peak : Nat

namespace Counter

def start : Counter := ⟨0, 0⟩

def enter (c : Counter) : Counter := ⟨c.depth + 1, max c.peak (c.depth + 1)⟩

def leave (c : Counter) : Counter := { c with depth := c.depth - 1 }

end Counter

/-- A parser that keeps a counter. -/
def Counting (α : Type) : Type := Counter → List Token → Reply α × Counter

namespace Counting

open Grammar (Env Deeper checkDepth tooDeep)

variable {α β : Type}

protected def bind (q : Counting α) (f : α → Counting β) : Counting β := fun c tokens =>
  let (first, c) := q c tokens
  match first.result with
  | none => (⟨first.errors, first.rest, none⟩, c)
  | some a =>
    let (second, c) := f a c first.rest
    (⟨first.errors ++ second.errors, second.rest, second.result⟩, c)

instance : Monad Counting where
  pure a := fun c tokens => (⟨[], tokens, some a⟩, c)
  bind := Counting.bind

/-- Without looking at the counter. -/
instance : MonadLift Parse Counting := ⟨fun p c tokens => (p tokens, c)⟩

def depth : Counting Nat := fun c tokens => (⟨[], tokens, some c.depth⟩, c)

def count (f : Counter → Counter) : Counting Unit := fun c tokens => (⟨[], tokens, some ()⟩, f c)

/-- Goes on behind a failure, with the counter as it was left there. -/
def attempt (q : Counting α) : Counting (Option α) := fun c tokens =>
  let (reply, c) := q c tokens
  (⟨reply.errors, reply.rest, some reply.result⟩, c)

instance : Attempts Counting := ⟨attempt⟩

/-- One level deeper, if the limit allows it. The level is left whether or not there is a result. -/
def nested (parse : Counting Expr) : Counting Expr := do
  if maxNesting ≤ (← depth) then tooDeep (← Parse.here)
  else
    count Counter.enter
    let result ← attempt parse
    count Counter.leave
    match result with
    | none => Parse.abandon
    | some e => checkDepth e

/-- The parsers of what stands deeper. They are unfolded as often as they are needed, which is no
more often than the counter allows. -/
def deeperOf (env : Env) : Nat → Deeper Counting
  | 0 => ⟨Parse.abandon, Parse.abandon, Parse.abandon⟩
  | unfoldings + 1 =>
    let deeper := deeperOf env unfoldings
    { expression := nested (Grammar.orLevel env deeper)
      negated := nested (Grammar.notLevel env deeper)
      signed := nested (Grammar.signLevel env deeper) }

def expression (env : Env) : Counting Expr := (deeperOf env (maxNesting + 1)).expression

def declarations (registry : Registry) (fuel : Nat) : Counting (List Declaration) :=
  Grammar.declarationsWith expression registry fuel

end Counting

end LogRules

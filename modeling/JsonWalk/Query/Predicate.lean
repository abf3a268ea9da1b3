import JsonWalk.Value

/-!
# Predicates with a state

A predicate may remember what it was asked, so a query's result can depend on the order in which it
offers values.
-/

namespace JsonWalk

/-- Tells whether it accepts a value, and how it goes on. -/
abbrev Predicate (σ : Type) := Value → σ → Bool × σ

namespace Predicate

def ofTest {σ : Type} (p : Value → Bool) : Predicate σ := fun v s => (p v, s)

def always {σ : Type} : Predicate σ := ofTest fun _ => true

def ofKind {σ : Type} (kind : NodeKind) : Predicate σ := ofTest fun v => v.kind == kind

def nonPositive {σ : Type} : Predicate σ := ofTest fun
  | .number n => n.asInt64?.any (· ≤ 0)
  | _ => false

/-- Accepts every second value it is asked about; the state counts the questions before. -/
def everySecond : Predicate Nat := fun _ asked => (asked % 2 == 1, asked + 1)

def counted {σ : Type} (p : Predicate σ) : Predicate (σ × Nat) := fun v (s, asked) =>
  let (answer, s) := p v s
  (answer, s, asked + 1)

end Predicate
end JsonWalk

import ClauseLearning.Assignment

/-!
# What an order of decision is

A search decides variables one by one, and an order of decision says which one is next.  It is told
which variables were in a conflict, and which have become unassigned.

* `DecisionOrder` — the operations of an order.
-/

namespace ClauseLearning

/-- An order from which variables are decided. -/
class DecisionOrder (ω : Type) where
  /-- Adds variables until there are so many. -/
  growTo : ω → Nat → ω
  /-- Takes note that a variable has become unassigned. -/
  reinsert : ω → Nat → ω
  /-- The unassigned variable to decide. -/
  next? : ω → Assignment → Option Nat × ω
  /-- Takes note that variables were in the conflict with a given number.  The answer also has the
  variables in the order in which that was done. -/
  bump : ω → Assignment → List Nat → Nat → List Nat × ω
  /-- Brings the order up to date, given the variables that may be decided. -/
  reconcile : ω → List Nat → ω
  /-- Takes a variable out for good. -/
  deactivate : ω → Nat → ω
  /-- Whether a variable would be found when all other ones are assigned. -/
  represents : ω → Nat → Bool

end ClauseLearning

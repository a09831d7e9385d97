import ClauseLearning.Value

/-!
# Phases

For every variable, values it had in assignments of the past, from which a decision picks.

* *Saved* phases hold the last value of each variable.
* *Target* phases hold the largest assignment without a conflict since the last reset.
* *Best* phases hold the largest assignment without a conflict since saved phases were last reset.
-/

namespace ClauseLearning

/-- Values of variables in assignments of the past. -/
structure Phases where
  /-- The last value of each variable. -/
  saved : Array Value := #[]
  /-- The values in the target assignment. -/
  target : Array Value := #[]
  /-- The values in the best assignment. -/
  best : Array Value := #[]
  /-- The count of variables assigned in the target assignment. -/
  targetAssigned : Nat := 0
  /-- The count of variables assigned in the best assignment. -/
  bestAssigned : Nat := 0
deriving Repr, Inhabited

namespace Phases

/-- Adds variables, without any phase, until there are `n`. -/
def growTo (p : Phases) (n : Nat) : Phases :=
  if p.saved.size < n then
    { p with
      saved := p.saved ++ Array.replicate (n - p.saved.size) .unassigned
      target := p.target ++ Array.replicate (n - p.target.size) .unassigned
      best := p.best ++ Array.replicate (n - p.best.size) .unassigned }
  else p

/-- The saved phase of a variable. -/
def savedOf (p : Phases) (v : Nat) : Option Bool := (p.saved.getD v .unassigned).toBool?

/-- The target phase of a variable. -/
def targetOf (p : Phases) (v : Nat) : Option Bool := (p.target.getD v .unassigned).toBool?

/-- Replaces the saved phase of a variable. -/
def setSaved (p : Phases) (v : Nat) (x : Value) : Phases :=
  { p with saved := p.saved.setIfInBounds v x }

/-- Replaces the target phase of a variable. -/
def setTarget (p : Phases) (v : Nat) (x : Value) : Phases :=
  { p with target := p.target.setIfInBounds v x }

/-- Replaces the best phase of a variable. -/
def setBest (p : Phases) (v : Nat) (x : Value) : Phases :=
  { p with best := p.best.setIfInBounds v x }

end Phases

end ClauseLearning

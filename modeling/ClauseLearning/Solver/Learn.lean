import ClauseLearning.Solver.Assign

/-!
# Learning

A learnt clause is stored by its size: a unit is assigned at the root, a binary clause becomes a pair
of watches, and a longer clause goes into the store.  Before that, levels are taken back; afterwards
the first literal of the clause is assigned, with the clause as its reason.

By default the levels above the *jump* level are taken back, which is the least level on which the
clause is a unit.  Where that would be too many levels only the highest one is.

Each clause of two or more literals is compared with the clauses learnt last, and those that contain
it are garbage.  Each clause is also offered to what is outside.

* `Solver.backtrackLevel` — the level to go back to.
* `Solver.subsumeRecent` — the comparison with recent clauses.
* `Solver.exportClause` — the offer.
* `Solver.learn` — all of it.
-/

namespace ClauseLearning

namespace Solver

variable {ε : Type}

/-- The level to go back to, given the jump level. -/
def backtrackLevel (s : Solver ε) (jump : Nat) : Nat :=
  let below := s.trail.level - 1
  if s.trail.level = 0 then 0
  else if s.settings.chronoLevels.value < below - jump then below
  else jump

/-! ## Subsumption -/

/-- Whether a clause of the store is the reason of its first literal. -/
def isReason (s : Solver ε) (r : Reference) (first : Literal) : Bool :=
  s.val first = .tt && s.assignment.reason first = .large r

/-- Whether a recent clause contains every marked literal, of which there are `n`, and may go.  A clause
which is a reason may not. -/
def isSubsumed (s : Solver ε) (n : Nat) (r : Reference) : Bool :=
  match s.store.record? r with
  | .error _ => false
  | .ok c =>
    !c.flags.garbage && n ≤ c.literals.size && !s.isReason r (c.literals.getD 0 .invalid) &&
      (c.literals.filter s.isMarked).size == n

/-- Removes a recent clause, if it contains every marked literal, of which there are `n`. -/
def subsumeOne (n : Nat) (s : Solver ε) (r : Reference) : Solver ε :=
  if s.isSubsumed n r then
    let s := match onStore (Store.markGarbage r) s with
      | .ok true s => s.count fun c => { c with subsumed := c.subsumed + 1 }
      | .ok false s => s
      | .error _ s => s
    { s with recent := s.recent.remove r }
  else s

/-- Removes every recent clause that contains all literals of a clause. -/
def subsumeRecent (s : Solver ε) (clause : Array Literal) : Solver ε :=
  if s.recent.capacity = 0 then s
  else
    let s := s.mark clause true
    let s := s.recent.toList.foldl (subsumeOne clause.size) s
    s.mark clause false

/-! ## Export -/

/-- Offers a clause to what is outside. -/
def exportClause (s : Solver ε) (clause : Array Literal) (glue : Nat) : Solver ε :=
  match s.hooks.exportClause with
  | none => s
  | some f =>
    let (accepted, outside) := f (clause.toList.map Numbering.toExternal) glue s.outside
    let s := { s with outside }
    if accepted then s.count fun c => { c with exported := c.exported + 1 }
    else s.count fun c => { c with exportRejected := c.exportRejected + 1 }

/-! ## Storing -/

/-- Stores and watches a redundant clause of three or more literals.  Small glue lets it survive
reductions. -/
def storeRedundant (clause : Array Literal) (glue : Nat) : SolverM ε Reference := do
  let r ← onStore (Store.allocate clause true glue)
  let s ← get
  let used := s.usesForGlue glue
  let keep : Bool := glue ≤ s.settings.keep.tier1.value
  onStore (Store.updateFlags r fun f => { f with used, keep })
  modify fun s =>
    { s with watches := s.watches.addLarge r (clause.getD 0 .invalid) (clause.getD 1 .invalid) }
  return r

/-- Stores a learnt clause, and assigns its first literal. -/
def storeLearned (clause : Array Literal) (jump glue : Nat) : SolverM ε Unit :=
  match clause.toList with
  | [] => return ()
  | [a] =>
    modify fun s =>
      let s := (s.backtrack 0).assign a .unit
      { s with
        iterating := true
        counters.learnedUnits := s.counters.learnedUnits + 1 }
  | [a, b] =>
    modify fun s =>
      let s := s.backtrack (s.backtrackLevel jump)
      let s := { s with watches := s.watches.addBinary a b true false }
      let s := (s.assign a (.binary b)).subsumeRecent clause
      s.count fun c => { c with learnedBinaries := c.learnedBinaries + 1 }
  | a :: _ => do
    modify fun s => s.backtrack (s.backtrackLevel jump)
    let r ← storeRedundant clause glue
    modify fun s =>
      let s := (s.assign a (.large r)).subsumeRecent clause
      let s := { s with recent := s.recent.push r }
      s.count fun c => { c with learnedLarge := c.learnedLarge + 1 }

/-- Learns the clause of the last analysis. -/
def learn (jump glue : Nat) : SolverM ε Unit := do
  let clause := (← get).learned
  modify fun s => { s with learned := #[] }
  storeLearned clause jump glue
  modify fun s =>
    let s := if clause.isEmpty then s else s.exportClause clause glue
    { s with learned := clause }

end Solver

end ClauseLearning

import ClauseLearning.Average
import ClauseLearning.Extension
import ClauseLearning.Hooks
import ClauseLearning.Numbering
import ClauseLearning.Order.Basic
import ClauseLearning.Phases
import ClauseLearning.Random
import ClauseLearning.Recent
import ClauseLearning.Reluctant
import ClauseLearning.Report
import ClauseLearning.Store.Sweep
import ClauseLearning.Trail
import ClauseLearning.Watches

/-!
# The state of a solver

A solver is one value.  Procedures which always succeed are functions from solvers to solvers, and
procedures which may meet a fault are in a monad in which the solver outlives the fault, since the
caller goes on with it.

* `Solver` — the state, with that of what is outside in it.
* `Solver.ofSettings` — a solver before any clause was added.
* `SolverM` — procedures which may fail.
* `Solver.unassigned`, `Solver.free`, `Solver.value?` — what can be asked at any time.
-/

namespace ClauseLearning

/-- How often things were done. -/
structure Counters where
  /-- Conflicts during a search. -/
  conflicts : Nat := 0
  /-- Decisions. -/
  decisions : Nat := 0
  /-- Literals propagated. -/
  propagations : Nat := 0
  /-- Passes of the search. -/
  iterations : Nat := 0
  /-- Restarts. -/
  restarts : Nat := 0
  /-- Reductions of the learnt clauses. -/
  reductions : Nat := 0
  /-- Collections of garbage. -/
  collections : Nat := 0
  /-- Resets of the saved phases. -/
  rephases : Nat := 0
  /-- Changes of the mode. -/
  modeSwitches : Nat := 0
  /-- Simplifications at the root. -/
  simplifications : Nat := 0
  /-- Units learnt. -/
  learnedUnits : Nat := 0
  /-- Binary clauses learnt. -/
  learnedBinaries : Nat := 0
  /-- Clauses of three or more literals learnt. -/
  learnedLarge : Nat := 0
  /-- Recent clauses found to be subsumed. -/
  subsumed : Nat := 0
  /-- Binary clauses derived during propagation. -/
  hyperBinaries : Nat := 0
  /-- Variables eliminated. -/
  eliminated : Nat := 0
  /-- Learnt clauses that were accepted outside. -/
  exported : Nat := 0
  /-- Learnt clauses that were not. -/
  exportRejected : Nat := 0
  /-- Units taken over from outside. -/
  importedUnits : Nat := 0
  /-- Clauses taken over from outside. -/
  importedClauses : Nat := 0
  /-- Units and clauses from outside that were of no use. -/
  importSkipped : Nat := 0
deriving DecidableEq, Repr, Inhabited

/-- The counts by their names. -/
def Counters.toList (c : Counters) : List (String × Nat) :=
  [("conflicts", c.conflicts), ("decisions", c.decisions), ("propagations", c.propagations),
    ("iterations", c.iterations), ("restarts", c.restarts), ("reductions", c.reductions),
    ("collections", c.collections), ("rephases", c.rephases), ("mode_switches", c.modeSwitches),
    ("simplifications", c.simplifications), ("learned_units", c.learnedUnits),
    ("learned_binaries", c.learnedBinaries), ("learned_large", c.learnedLarge),
    ("subsumed", c.subsumed), ("hyper_binaries", c.hyperBinaries), ("eliminated", c.eliminated),
    ("exported", c.exported), ("export_rejected", c.exportRejected),
    ("imported_units", c.importedUnits), ("imported_clauses", c.importedClauses),
    ("import_skipped", c.importSkipped)]

/-- The counts at which something is due. -/
structure Limits where
  /-- The conflicts at which a search ends. -/
  conflicts : Option Nat := none
  /-- The decisions at which a search ends. -/
  decisions : Option Nat := none
  /-- The conflicts that a solve may take. -/
  conflictBudget : Option Nat := none
  /-- The decisions that a solve may take. -/
  decisionBudget : Option Nat := none
  /-- The conflicts of the next reduction. -/
  reduce : Nat := 0
  /-- The conflicts of the next reset of saved phases. -/
  rephase : Nat := 0
  /-- The conflicts of the next change of mode. -/
  mode : Nat := 0
  /-- The least conflicts of the next restart in focused mode. -/
  restart : Nat := 0
deriving DecidableEq, Repr, Inhabited

/-- The state of a solver.  The state of what is outside of it has the type `ε`. -/
structure Solver (ε : Type) where
  /-- What it was told about how to search. -/
  settings : Settings
  /-- How often things were done. -/
  counters : Counters := {}
  /-- Where it is in its life. -/
  status : Status := .configuration
  /-- The source of random words. -/
  random : Random
  /-- The clauses of three or more literals. -/
  store : Store := {}
  /-- The watches, and so the binary clauses. -/
  watches : Watches := {}
  /-- The values of variables. -/
  assignment : Assignment := {}
  /-- The assigned literals in order. -/
  trail : Trail := {}
  /-- Values in assignments of the past. -/
  phases : Phases := {}
  /-- The orders from which variables are decided. -/
  orders : Orders
  /-- The known external variables. -/
  numbering : Numbering := {}
  /-- The clauses removed with eliminated variables. -/
  extension : Extension := {}
  /-- The clauses learnt last. -/
  recent : Recent
  /-- The counts at which something is due. -/
  limits : Limits := {}
  /-- The average glue of the last few learnt clauses. -/
  fastGlue : Average
  /-- The average glue of many learnt clauses. -/
  slowGlue : Average
  /-- The restarts in stable mode. -/
  reluctant : Reluctant
  /-- The clause of the last analysis. -/
  learned : Array Literal := #[]
  /-- The variables seen in the conflict under analysis. -/
  analyzed : Array Nat := #[]
  /-- The variables with a mark from minimization. -/
  minimized : Array Nat := #[]
  /-- A mark for each literal.  None is set between procedures. -/
  marks : Array Bool := #[]
  /-- The count of variables that are not eliminated. -/
  active : Nat := 0
  /-- Whether the clauses were found to have no model. -/
  inconsistent : Bool := false
  /-- Whether a unit was learnt since the last simplification. -/
  iterating : Bool := false
  /-- The count of root literals assigned since the last simplification. -/
  unflushed : Nat := 0
  /-- Binary clauses derived during propagation, to be stored after the current literal. -/
  derived : Array (Literal × Literal) := #[]
  /-- The external literals of a clause which is not ended yet. -/
  pending : Array Int := #[]
  /-- The value of each literal in the model found. -/
  model : Array Value := #[]
  /-- Whether it was asked to stop. -/
  stopped : Bool := false
  /-- How to deal with what is outside. -/
  hooks : Hooks ε := {}
  /-- What is outside. -/
  outside : ε
deriving Inhabited

/-- Procedures on a solver which may meet a fault, and leave a solver behind in any case. -/
abbrev SolverM (ε : Type) := EStateM Fault (Solver ε)

namespace Solver

variable {ε α : Type}

/-- A solver with some settings, before any clause was added. -/
def ofSettings (c : Settings) (outside : ε) : Solver ε :=
  { settings := c
    random := .ofSeed c.randomSeed.value
    orders := .ofSettings c
    recent := .ofCapacity c.keep.eagerSubsume.value
    fastGlue := .ofWindow c.restart.fastWindow.value
    slowGlue := .ofWindow c.restart.slowWindow.value
    reluctant := .start c.restart.reluctantPeriod.value c.restart.reluctantMax.value
    outside }

/-! ## Procedures from parts -/

/-- A result as a procedure which changes nothing. -/
def ofExcept (x : Except Fault α) : SolverM ε α := fun s =>
  match x with
  | .ok a => .ok a s
  | .error e => .error e s

/-- A change of the store as a procedure. -/
@[inline] def onStore (x : StoreM α) : SolverM ε α := fun s =>
  -- the store is taken out of the solver, so that there is one reference to it while it changes
  let store := s.store
  let s := { s with store := {} }
  match x store with
  | .ok a store => .ok a { s with store }
  | .error e store => .error e { s with store }

/-- Applies a function to the orders, and answers with its first result. -/
@[inline] def onOrders (f : Orders → α × Orders) (s : Solver ε) : α × Solver ε :=
  let orders := s.orders
  let s := { s with orders := default }
  let (a, orders) := f orders
  (a, { s with orders })

/-- Applies a change to the counters. -/
@[inline] def count (f : Counters → Counters) (s : Solver ε) : Solver ε :=
  { s with counters := f s.counters }

/-! ## Questions -/

/-- What is known of the formula. -/
def report (s : Solver ε) : Report := s.status.report

/-- The current level. -/
def level (s : Solver ε) : Nat := s.trail.level

/-- The value of a literal. -/
def val (s : Solver ε) (l : Literal) : Value := s.assignment.value l

/-- The count of variables which are neither assigned nor eliminated. -/
def unassigned (s : Solver ε) : Nat := s.active - s.trail.size

/-- The variables which are neither assigned nor eliminated. -/
def free (s : Solver ε) : List Nat :=
  (List.range s.assignment.size).filter fun v =>
    !s.numbering.isEliminated v && !(s.assignment.valueOf v).isAssigned

/-- The value of an external literal in the model found, if its variable is known. -/
def value? (s : Solver ε) (e : Int) : Except Fault (Option Bool) :=
  if s.status ≠ .satisfiable then .error .noModel
  else if s.numbering.knows e then
    .ok (s.model.getD (Numbering.toLiteral e).code .unassigned).toBool?
  else .ok none

/-- The external literals which are true in the model found, by their variables. -/
def modelLiterals (s : Solver ε) : Except Fault (List Int) :=
  (List.range s.numbering.size).mapM fun (v : Nat) =>
    let e : Int := v + 1
    (s.value? e).map fun b => if b = some false then -e else e

/-- The decision phase of a variable: in stable mode its target phase, if it has one; otherwise its
saved phase, or else the initial one. -/
def decisionPhase (s : Solver ε) (v : Nat) : Bool :=
  let saved := (s.phases.savedOf v).getD s.settings.phase.initial.value
  if s.orders.stable && s.settings.phase.target.value then (s.phases.targetOf v).getD saved else saved

/-- How many reductions a clause of some glue survives for having been used. -/
def usesForGlue (s : Solver ε) (glue : Nat) : Nat :=
  if glue ≤ s.settings.keep.tier2.value then Flags.maxUsed else 1

/-! ## Changes -/

/-- Takes note that the clauses have no model. -/
def refute (s : Solver ε) : Solver ε := { s with inconsistent := true }

/-- Makes room for every known variable. -/
def ensureVariables (s : Solver ε) : Solver ε :=
  let n := s.numbering.size
  let known := s.assignment.size
  if n ≤ known then s
  else
    { s with
      assignment := s.assignment.growTo n
      watches := s.watches.growTo (2 * n)
      phases := s.phases.growTo n
      orders := s.orders.growTo n
      marks := s.marks ++ Array.replicate (2 * n - s.marks.size) false
      active := s.active + (n - known) }

/-- Asks whether to stop.  What is outside is asked only if the solver itself was not. -/
def isTerminated (s : Solver ε) : Bool × Solver ε :=
  if s.stopped then (true, s)
  else
    match s.hooks.terminate with
    | none => (false, s)
    | some f =>
      let (b, outside) := f s.outside
      (b, { s with outside })

/-- Sets or clears the marks of some literals. -/
def mark (s : Solver ε) (ls : Array Literal) (b : Bool) : Solver ε :=
  { s with marks := ls.foldl (fun m l => m.setIfInBounds l.code b) s.marks }

/-- Whether a literal is marked. -/
def isMarked (s : Solver ε) (l : Literal) : Bool := s.marks.getD l.code false

end Solver

end ClauseLearning

import ClauseLearning.Solver.Collect
import ClauseLearning.Solver.Propagate
import Std.Data.TreeSet

/-!
# Pure literals

A literal is pure if its variable occurs, but the negation of the literal does not.  It may be made
true without harm to any clause, so the clauses with a pure literal are removed, and its variable is
eliminated.  Each removed clause goes on the extension stack with a pure literal as its witness.  As
other literals may become pure by this, it is done again until there are none.

* `pureVariables` — the variables that occur only negatively, and those that occur only positively.
* `Solver.eliminatePure` — one round.
* `Solver.preprocess` — every round.
-/

namespace ClauseLearning

/-- The variables that occur with a polarity among some literals. -/
def occurring (ls : List Literal) (polarity : Bool) : Std.TreeSet Nat :=
  .ofList ((ls.filter fun l => l.positive == polarity).map Literal.var)

/-- The variables with only negative occurrences among some literals, and those with only positive ones,
each in ascending order. -/
def pureVariables (ls : List Literal) : List Nat × List Nat :=
  let pos := occurring ls true
  let neg := occurring ls false
  (neg.toList.filter fun v => !pos.contains v, pos.toList.filter fun v => !neg.contains v)

namespace Solver

variable {ε : Type}

/-- The literals of the clauses which are not garbage. -/
def liveLiterals (s : Solver ε) : List Literal :=
  let large := s.store.references.flatMap fun r =>
    match s.store.record? r with
    | .ok c => if c.flags.garbage then [] else c.literals.toList
    | .error _ => []
  large ++ s.watches.binaries.flatMap fun c => [c.a, c.b]

/-- The pure literals on variables which are neither assigned nor eliminated. -/
def pureLiterals (s : Solver ε) : List Literal :=
  let (neg, pos) := pureVariables s.liveLiterals
  let ls := neg.map (fun v => .make v false) ++ pos.map (fun v => .make v true)
  ls.filter fun l => !(s.val l).isAssigned && !s.numbering.isEliminated l.var

/-- Puts a removed clause on the extension stack, unless it is redundant. -/
def extendBy (s : Solver ε) (redundant : Bool) (witness : Literal) (clause : List Literal) :
    Solver ε :=
  if redundant then s else { s with extension := s.extension.push witness clause }

/-- Removes the clauses with a marked literal from the store. -/
def removeMarked : List Reference → SolverM ε Unit
  | [] => return ()
  | r :: rest => do
    let s ← get
    let c ← ofExcept (s.store.record? r)
    if !c.flags.garbage then
      if let some witness := c.literals.find? s.isMarked then
        modify fun s => s.extendBy c.flags.redundant witness c.literals.toList
        let _ ← onStore (Store.markGarbage r)
    removeMarked rest

/-- Removes a binary clause with a marked literal. -/
def removeMarkedBinary (s : Solver ε) (c : BinaryClause) : Solver ε :=
  let witness := if s.isMarked c.a then c.a else c.b
  let s := s.extendBy c.redundant witness [c.a, c.b]
  { s with watches := (s.watches.removeBinary c.a c.b).2 }

/-- Eliminates the variable of a literal. -/
def eliminate (s : Solver ε) (l : Literal) : Solver ε :=
  { s with
    numbering := s.numbering.eliminate l.var
    orders := s.orders.deactivate l.var
    active := s.active - 1
    counters.eliminated := s.counters.eliminated + 1 }

/-- Eliminates the variables of pure literals.  The answer is their count. -/
def eliminatePure : SolverM ε Nat := do
  let ls := (← get).pureLiterals
  if ls.isEmpty then return 0
  modify fun s => s.mark ls.toArray true
  removeMarked (← get).store.references
  modify fun s =>
    let found := s.watches.binaries.filter fun c => s.isMarked c.a || s.isMarked c.b
    let s := found.foldl removeMarkedBinary s
    ls.foldl eliminate (s.mark ls.toArray false)
  collect 0 .dense
  return ls.length

/-- Eliminates pure literals at most `n` times, until there are none or it is asked to stop. -/
def eliminateRounds : Nat → SolverM ε Unit
  | 0 => throw .invalidState
  | n + 1 => do
    if ← modifyGet isTerminated then return ()
    let count ← tryCatch eliminatePure fun _ => throw .pureLiterals
    if count = 0 then return ()
    eliminateRounds n

/-- Eliminates pure literals at the root.  Each round but the last eliminates a variable. -/
def preprocess : SolverM ε Unit := do
  if (← get).trail.level ≠ 0 then throw .notAtRoot
  if ← propagateRoot then
    eliminateRounds ((← get).assignment.size + 1)

end Solver

end ClauseLearning

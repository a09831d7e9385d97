import ClauseLearning.Solver.Input
import ClauseLearning.Solver.Learn

/-!
# Taking over units and clauses from outside

At the root, what is outside is asked for units and for clauses until it has no more, or until they
show that there is no model.  What mentions an unknown or an eliminated variable is skipped, and so is
what is satisfied already.  Of a clause, root-false literals are removed; what is left is assigned or
stored.  Since none of its literals is assigned then, the clause may be watched on its first two.

* `Solver.drain` — takes over all that a source hands out.
* `Solver.importUnits`, `Solver.importClauses` — the two sources.
-/

namespace ClauseLearning

namespace Solver

variable {ε : Type}

/-- Takes note that something from outside was of no use. -/
def skipImport (s : Solver ε) : Solver ε :=
  s.count fun c => { c with importSkipped := c.importSkipped + 1 }

/-- Assigns a unit from outside. -/
def assignImported (s : Solver ε) (l : Literal) : Solver ε :=
  (s.assign l .unit).count fun c => { c with importedUnits := c.importedUnits + 1 }

/-- Takes over a unit. -/
def importUnit (s : Solver ε) (e : Int) : Solver ε :=
  match s.numbering.lookup? e with
  | none => s.skipImport
  | some l =>
    match s.val l with
    | .tt => s.skipImport
    | .ff => s.refute
    | .unassigned => s.assignImported l

/-- Takes over a clause. -/
def importClause (clause : List Int) (glue : Nat) : SolverM ε Unit := do
  let s ← get
  match clause.mapM s.numbering.lookup? with
  | none => modify skipImport
  | some ls =>
    match s.assignment.rootClause ls with
    | .useless => modify skipImport
    | .literals [] => modify refute
    | .literals [a] => modify fun s => s.assignImported a
    | .literals [a, b] =>
      modify fun s =>
        { s with watches := s.watches.addBinary a b true false }.count fun c =>
          { c with importedClauses := c.importedClauses + 1 }
    | .literals ls => do
      let r ← storeRedundant ls.toArray (min glue (ls.length - 1))
      modify fun s =>
        { s with recent := s.recent.push r }.count fun c =>
          { c with importedClauses := c.importedClauses + 1 }

/-- Takes over what a source hands out, until it has no more or there is no model.  What is outside is
`e` at first; taking something over does not touch it. -/
def drain {α : Type} (source : Source ε α) (take : α → SolverM ε Unit) (e : ε) : SolverM ε Unit :=
  fun s =>
    if s.inconsistent then .ok () { s with outside := e }
    else
      match next : source.next e with
      | (none, e') => .ok () { s with outside := e' }
      | (some a, e') =>
        have : source.size e' < source.size e := source.size_lt next
        match take a s with
        | .ok _ s => drain source take e' s
        | .error fault s => .error fault { s with outside := e' }
termination_by source.size e

/-- Takes over units. -/
def importUnits : SolverM ε Unit := do
  let s ← get
  if s.trail.level ≠ 0 then throw .notAtRoot
  match s.hooks.units with
  | none => return ()
  | some source => drain source (fun e => modify fun s => s.importUnit e) s.outside

/-- Takes over clauses. -/
def importClauses : SolverM ε Unit := do
  let s ← get
  if s.trail.level ≠ 0 then throw .notAtRoot
  match s.hooks.clauses with
  | none => return ()
  | some source => drain source (fun c => importClause c.literals c.glue) s.outside

end Solver

end ClauseLearning

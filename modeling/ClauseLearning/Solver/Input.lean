import ClauseLearning.Solver.Propagate

/-!
# Adding clauses

Clauses are added before a solve, whole or literal by literal with a zero at the end.  Literals are
checked before anything changes, and each variable is imported when it is first mentioned.

A clause is sorted, and duplicates are removed.  A clause with a literal and its negation, or one that
is satisfied at the root, is of no use; root-false literals are removed from the others.  An empty
clause means that there is no model.  A unit is assigned and propagated, a binary clause becomes a pair
of watches, and a longer one goes into the store.

* `Assignment.rootClause` — what is left of a clause.
* `Solver.addClause`, `Solver.addLiteral` — the two ways to add a clause.
-/

namespace ClauseLearning

/-- What is left of a clause at the root. -/
inductive RootClause where
  /-- It is satisfied by every assignment, or by what is known already. -/
  | useless
  /-- The literals that may still satisfy it. -/
  | literals (ls : List Literal)
deriving DecidableEq, Repr, Inhabited

/-- Removes copies that follow directly on one another. -/
def dropRepeats : List Literal → List Literal
  | [] => []
  | [l] => [l]
  | l :: m :: ls => if l = m then dropRepeats (m :: ls) else l :: dropRepeats (m :: ls)

/-- Whether two literals that follow directly on one another are on the same variable. -/
def hasOpposites : List Literal → Bool
  | l :: m :: ls => l.var == m.var || hasOpposites (m :: ls)
  | _ => false

/-- What is left of a clause under an assignment at the root. -/
def Assignment.rootClause (a : Assignment) (ls : List Literal) : RootClause :=
  let ls := dropRepeats (Literal.sorted ls)
  if hasOpposites ls then .useless
  else if ls.any fun l => a.value l = .tt then .useless
  else .literals (ls.filter fun l => a.value l ≠ .ff)

namespace Solver

variable {ε : Type}

/-- Takes note that a clause is added, which may be done only before a solve. -/
def beginInput : SolverM ε Unit := do
  match (← get).status with
  | .configuration | .input => modify fun s => { s with status := .input }
  | _ => throw .addAfterSolve

/-- Imports external literals one after another. -/
def importLiterals : List Int → SolverM ε (List Literal)
  | [] => return []
  | e :: es => do
    let (l, numbering) ← ofExcept ((← get).numbering.import? e)
    modify fun s => { s with numbering }
    let ls ← importLiterals es
    return l :: ls

/-- Stores what is left of a clause at the root. -/
def addLiterals (ls : List Literal) : SolverM ε Unit :=
  match ls with
  | [] => modify refute
  | [a] => do
    modify fun s => s.assign a .unit
    let _ ← propagateRoot
  | [a, b] => modify fun s => { s with watches := s.watches.addBinary a b false false }
  | a :: b :: _ => do
    let r ← onStore (Store.allocate ls.toArray false 0)
    modify fun s => { s with watches := s.watches.addLarge r a b }

/-- Adds a clause whose literals were checked. -/
def addChecked (clause : List Int) : SolverM ε Unit := do
  let ls ← importLiterals clause
  modify ensureVariables
  let s ← get
  if s.inconsistent then return ()
  match s.assignment.rootClause ls with
  | .useless => return ()
  | .literals ls => addLiterals ls

/-- Adds a clause. -/
def addClause (clause : List Int) : SolverM ε Unit := do
  beginInput
  if !(← get).pending.isEmpty then throw .unterminatedClause
  ofExcept (clause.forM Numbering.check)
  addChecked clause

/-- Adds a literal to the clause that was begun, or ends that clause if it is zero. -/
def addLiteral (e : Int) : SolverM ε Unit := do
  beginInput
  if e = 0 then
    let clause := (← get).pending
    modify fun s => { s with pending := #[] }
    addChecked clause.toList
  else
    ofExcept (Numbering.check e)
    modify fun s => { s with pending := s.pending.push e }

end Solver

end ClauseLearning

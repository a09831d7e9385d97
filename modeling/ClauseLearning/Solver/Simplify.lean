import ClauseLearning.Solver.Collect
import ClauseLearning.Solver.Propagate

/-!
# Simplification at the root

Once every root literal was propagated, clauses in the store that are satisfied are garbage, and false
literals are removed from the others.  A clause that is left with two literals becomes a binary clause.
A collection of the whole store follows.

* `Simplification` — what is to be done about one clause.
* `Solver.simplify` — the whole simplification.
-/

namespace ClauseLearning

/-- What is to be done about a clause. -/
inductive Simplification where
  /-- Nothing. -/
  | unchanged
  /-- It is satisfied, and so garbage. -/
  | satisfied
  /-- It becomes a binary clause. -/
  | binary (a b : Literal)
  /-- It is cut to the given literals, three or more of them. -/
  | shrunk (literals : Array Literal)
deriving DecidableEq, Repr, Inhabited

/-- What is to be done about a clause under an assignment at the root. -/
def Assignment.simplification (a : Assignment) (c : Store.Record) : Simplification :=
  if c.flags.garbage then .unchanged
  else if c.literals.any fun l => a.value l = .tt then .satisfied
  else
    let rest := c.literals.filter fun l => a.value l ≠ .ff
    if rest.size = c.literals.size ∨ rest.size < 2 then .unchanged
    else if rest.size = 2 then .binary (rest.getD 0 .invalid) (rest.getD 1 .invalid)
    else .shrunk rest

namespace Solver

variable {ε : Type}

/-- Simplifies one clause. -/
def simplifyOne (r : Reference) : SolverM ε Unit := do
  let s ← get
  let c ← ofExcept (s.store.record? r)
  let action := s.assignment.simplification c
  match action with
  | .unchanged => return ()
  | .satisfied =>
    let _ ← onStore (Store.markGarbage r)
  | .binary a b =>
    modify fun s => { s with
      store := s.store.setLiteralsAt r.offset 0 [a, b]
      watches := s.watches.addBinary a b c.flags.redundant false }
    let _ ← onStore (Store.markGarbage r)
  | .shrunk ls =>
    modify fun s => { s with store := s.store.setLiteralsAt r.offset 0 ls.toList }
    onStore (Store.shrink r ls.size)

/-- Simplifies clauses one after another. -/
def simplifyAll : List Reference → SolverM ε Unit
  | [] => return ()
  | r :: rest => do
    simplifyOne r
    simplifyAll rest

/-- Simplifies every clause by what is known at the root. -/
def simplify : SolverM ε Unit := do
  if (← get).trail.level ≠ 0 then throw .notAtRoot
  if (← get).inconsistent then return ()
  if ← propagateRoot then
    modify fun s => { s with
      counters.simplifications := s.counters.simplifications + 1
      iterating := false }
    simplifyAll (← get).store.references
    collect 0 .sparse
    modify fun s => { s with unflushed := 0 }

end Solver

end ClauseLearning

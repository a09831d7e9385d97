import ClauseLearning.Literal
import ClauseLearning.Value

/-!
# The extension stack

When a variable is eliminated, each clause that mentions it is removed and pushed here together with
a *witness*, a literal of the clause which may be made true without harm to what remains.  From an
assignment that satisfies what remains, the clauses are gone through from the most recent one, and
where a clause is not satisfied its witness is made true.

* `Extension` — the stack.
* `Extension.extend` — the assignment with the values of eliminated variables.
-/

namespace ClauseLearning

/-- A removed clause with its witness. -/
structure Witnessed where
  /-- The literal to make true where the clause is not satisfied. -/
  witness : Literal
  /-- The literals of the clause. -/
  clause : List Literal
deriving DecidableEq, Repr, Inhabited

/-- A stack of removed clauses. -/
structure Extension where
  /-- The clauses, the most recent one first. -/
  entries : List Witnessed := []
deriving DecidableEq, Repr, Inhabited

namespace Extension

/-- Adds a clause. -/
def push (e : Extension) (witness : Literal) (clause : List Literal) : Extension :=
  ⟨{ witness, clause } :: e.entries⟩

/-- The count of clauses. -/
def size (e : Extension) : Nat := e.entries.length

/-- Makes the witness of a clause true, unless the clause is satisfied. -/
def Witnessed.satisfy (values : Array Value) (w : Witnessed) : Array Value :=
  if w.clause.any fun l => (values.getD l.code .unassigned).isTrue then values
  else (values.setIfInBounds w.witness.code .tt).setIfInBounds (-w.witness).code .ff

/-- The values of literals after every clause was satisfied, the most recent one first. -/
def extend (e : Extension) (values : Array Value) : Array Value :=
  e.entries.foldl Witnessed.satisfy values

end Extension

end ClauseLearning

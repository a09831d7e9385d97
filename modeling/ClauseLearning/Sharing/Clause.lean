/-!
# Shared clauses

What engines hand to one another: a clause in external literals, with its glue and the engine it
comes from.
-/

namespace ClauseLearning

/-- A clause on its way from one engine to others. -/
structure SharedClause where
  /-- The external literals of the clause. -/
  literals : List Int
  /-- The glue of the clause where it was learnt. -/
  glue : Nat
  /-- The number of the engine which learnt it. -/
  source : Nat
deriving DecidableEq, Repr, Inhabited

namespace SharedClause

/-- The count of literals. -/
def size (c : SharedClause) : Nat := c.literals.length

end SharedClause

end ClauseLearning

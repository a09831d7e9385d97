import ClauseLearning.Store.Reference

/-!
# Watch lists

Every literal has a list of watches, to be looked at when the literal becomes false.

A binary clause is nothing but a pair of watches: each of its literals has a watch with the other
literal in it.  A clause in the store is watched by its first two literals; such a watch also holds
a *blocking* literal of the clause, and while that is true the clause need not be read.

* `Watch` — one watch.
* `Watches` — the lists.
* `Watches.addBinary`, `Watches.removeBinary`, `Watches.binaries` — the binary clauses.
* `Watches.addLarge`, `Watches.dropLarge` — watches on clauses in the store.
* `Watches.take`, `Watches.restore` — a list taken out while it is worked on, and put back in front
  of what was added meanwhile.
-/

namespace ClauseLearning

/-- A note that a literal is watched. -/
inductive Watch where
  /-- By the binary clause with the other literal. -/
  | binary (other : Literal) (redundant hyper : Bool)
  /-- By a clause in the store. -/
  | large (blocking : Literal) (clause : Reference)
deriving DecidableEq, Repr, Inhabited

namespace Watch

/-- Whether a watch is of a binary clause. -/
def isBinary : Watch → Bool
  | binary .. => true
  | large .. => false

/-- Whether a watch is of a binary clause with a given other literal. -/
def isBinaryWith (l : Literal) : Watch → Bool
  | binary other _ _ => other = l
  | large .. => false

end Watch

/-- A clause of two literals. -/
structure BinaryClause where
  /-- The literal with the smaller code. -/
  a : Literal
  /-- The literal with the greater code. -/
  b : Literal
  /-- The clause follows from others, and may be dropped. -/
  redundant : Bool
  /-- The clause was derived during propagation. -/
  hyper : Bool
deriving DecidableEq, Repr, Inhabited

/-- A list of watches for each literal. -/
structure Watches where
  /-- The lists, by the codes of the literals. -/
  lists : Array (Array Watch) := #[]
deriving Repr, Inhabited

namespace Watches

/-- The count of literals with a list. -/
def size (w : Watches) : Nat := w.lists.size

/-- Adds empty lists until there are `n`. -/
def growTo (w : Watches) (n : Nat) : Watches :=
  ⟨w.lists ++ Array.replicate (n - w.lists.size) #[]⟩

/-- The list of a literal. -/
def of (w : Watches) (l : Literal) : Array Watch := w.lists.getD l.code #[]

/-- Replaces the list of a literal. -/
def set (w : Watches) (l : Literal) (list : Array Watch) : Watches :=
  ⟨w.lists.setIfInBounds l.code list⟩

/-- Adds a watch at the end of the list of a literal. -/
def add (w : Watches) (l : Literal) (watch : Watch) : Watches :=
  ⟨w.lists.modify l.code fun list => list.push watch⟩

/-- Takes the list of a literal out. -/
def take (w : Watches) (l : Literal) : Array Watch × Watches := (w.of l, w.set l #[])

/-- Puts a list back, in front of the watches added since it was taken out. -/
def restore (w : Watches) (l : Literal) (list : Array Watch) : Watches :=
  ⟨w.lists.modify l.code fun added => list ++ added⟩

/-- Stores a binary clause. -/
def addBinary (w : Watches) (a b : Literal) (redundant hyper : Bool) : Watches :=
  (w.add a (.binary b redundant hyper)).add b (.binary a redundant hyper)

/-- Watches a clause in the store by two literals, each of which blocks the watch of the other. -/
def addLarge (w : Watches) (r : Reference) (first second : Literal) : Watches :=
  (w.add first (.large second r)).add second (.large first r)

/-- Removes the first watch with the other literal `b` from the list of `a`, if there is one. -/
def removeHalf (w : Watches) (a b : Literal) : Bool × Watches :=
  let list := w.of a
  match list.findIdx? (Watch.isBinaryWith b) with
  | some i => (true, w.set a (list.eraseIdxIfInBounds i))
  | none => (false, w)

/-- Removes one copy of a binary clause.  The answer is whether both of its watches were there. -/
def removeBinary (w : Watches) (a b : Literal) : Bool × Watches :=
  let (inA, w) := w.removeHalf a b
  let (inB, w) := w.removeHalf b a
  (inA && inB, w)

/-- The binary clause of a watch in the list of `a`, unless the list of its other literal is the one
that counts. -/
def binaryOf? (a : Literal) : Watch → Option BinaryClause
  | .binary b redundant hyper => if a.before b then some { a, b, redundant, hyper } else none
  | .large .. => none

/-- Every literal with its list. -/
def toList (w : Watches) : List (Literal × Array Watch) :=
  w.lists.toList.zipIdx.map fun (list, code) => (⟨code⟩, list)

/-- Every binary clause, once, in the order of the lists of their first literals. -/
def binaries (w : Watches) : List BinaryClause :=
  w.toList.flatMap fun (l, list) => list.toList.filterMap (binaryOf? l)

/-- The lists without the watches on clauses in the store. -/
def dropLarge (w : Watches) : Watches := ⟨w.lists.map fun list => list.filter Watch.isBinary⟩

end Watches

end ClauseLearning

import ClauseLearning.Sharing.Clause

/-!
# The pool of shared clauses

Clauses that wait to be handed on, in buckets by their size.  A bucket holds a bounded count of
literals, and a clause for which there is no room is refused.  A selection is greedy: every unit,
and then the shorter clauses before the longer ones, up to a limit on the count of literals.

* `Pool.add` — one more clause.
* `Pool.give` — takes a selection out.
-/

namespace ClauseLearning

/-- Clauses in buckets by their size. -/
structure Pool where
  /-- The clauses of each size from one on, those that came first in front. -/
  buckets : Array (Array SharedClause)
  /-- The count of literals that a bucket must stay below. -/
  bucketLiterals : Nat
deriving DecidableEq, Repr, Inhabited

namespace Pool

/-- The usual bound on the literals of a bucket. -/
def usualBucketLiterals : Nat := 10000

/-- An empty pool for clauses of at most `maxSize` literals, with a bound on each bucket. -/
def ofBounds (maxSize bucketLiterals : Nat) : Pool :=
  { buckets := Array.replicate maxSize #[], bucketLiterals }

/-- An empty pool for clauses of at most `maxSize` literals. -/
def ofMaxSize (maxSize : Nat) : Pool := ofBounds maxSize usualBucketLiterals

/-- The count of clauses. -/
def size (p : Pool) : Nat := p.buckets.foldl (fun n bucket => n + bucket.size) 0

/-- Whether there is no clause. -/
def isEmpty (p : Pool) : Bool := p.buckets.all Array.isEmpty

/-- The clauses, the shorter ones first. -/
def toList (p : Pool) : List SharedClause := p.buckets.toList.flatMap Array.toList

/-- Whether there is a bucket with room for a clause.  There is none for the empty clause. -/
def accepts (p : Pool) (c : SharedClause) : Bool :=
  match c.size with
  | 0 => false
  | n + 1 =>
    match p.buckets[n]? with
    | some bucket => (bucket.size + 1) * (n + 1) < p.bucketLiterals
    | none => false

/-- Adds a clause, if there is room for it.  The answer is whether there was. -/
def add (p : Pool) (c : SharedClause) : Bool × Pool :=
  if p.accepts c then
    (true, { p with buckets := p.buckets.modify (c.size - 1) fun bucket => bucket.push c })
  else (false, p)

/-- Goes through the buckets for clauses of `size` literals and more.  Units are all taken.  Of the
clauses of another size as many are taken as there is room for, and where there is no room for one
the rest stays as it is.  The answer is what is taken, and what stays. -/
def select (limit : Nat) : List (Array SharedClause) → Nat → Nat →
    List SharedClause × List (Array SharedClause)
  | [], _, _ => ([], [])
  | bucket :: rest, size, literals =>
    if size = 1 then
      let (taken, kept) := select limit rest 2 (literals + bucket.size)
      (bucket.toList ++ taken, #[] :: kept)
    else
      let room := (limit - literals) / size
      if room = 0 then ([], bucket :: rest)
      else
        let n := min room bucket.size
        let (taken, kept) := select limit rest (size + 1) (literals + n * size)
        ((bucket.take n).toList ++ taken, bucket.drop n :: kept)

/-- Takes out a selection of at most `limit` literals, or of all units if these are more. -/
def give (p : Pool) (limit : Nat) : List SharedClause × Pool :=
  let (taken, kept) := select limit p.buckets.toList 1 0
  (taken, { p with buckets := kept.toArray })

/-- Removes every clause. -/
def clear (p : Pool) : Pool := { p with buckets := p.buckets.map fun _ => #[] }

end Pool

end ClauseLearning

import ClauseLearning.Solver.Collect

/-!
# Reduction of the learnt clauses

From time to time a part of the learnt clauses is removed.  A clause is not considered if it is kept
for its glue or is a reason, and one that was used lately survives and uses up that credit.  Of the
others, the candidates, those with the greatest glue go first, and of these the longest.

* `Solver.candidates` — what is considered.
* `Solver.reduce` — marks the worst candidates, and collects them.
-/

namespace ClauseLearning

/-- A clause that a reduction may remove. -/
structure Candidate where
  /-- The glue of the clause. -/
  glue : Nat
  /-- The count of its literals. -/
  size : Nat
  /-- The clause. -/
  reference : Reference
deriving DecidableEq, Repr, Inhabited

namespace Candidate

/-- Whether `a` is at least as bad as `b`: by glue, and then by size. -/
def worse (a b : Candidate) : Bool :=
  b.glue < a.glue || (a.glue == b.glue && b.size ≤ a.size)

end Candidate

namespace Solver

variable {ε : Type}

/-- Whether a reduction is due. -/
def reducing (s : Solver ε) : Bool := s.limits.reduce ≤ s.counters.conflicts

/-- Goes through clauses for candidates.  The answer also has the least of `start` and the offsets of
garbage clauses. -/
def candidates : List Reference → Nat → SolverM ε (Nat × List Candidate)
  | [], start => return (start, [])
  | r :: rest, start => do
    let size ← onStore (Store.locate r)
    let s ← get
    let f := s.store.flagsAt r.offset
    let glue := s.store.glueAt r.offset
    let start := if f.garbage then min start r.offset else start
    if !f.redundant || f.garbage || f.reason || f.keep then candidates rest start
    else if 0 < f.used then
      onStore (Store.updateFlags r fun f => { f with used := f.used - 1 })
      candidates rest start
    else
      let (start, others) ← candidates rest start
      return (start, { glue, size, reference := r } :: others)

/-- Marks clauses as garbage.  The answer is the least of `start` and their offsets. -/
def markAll : List Candidate → Nat → SolverM ε Nat
  | [], start => return start
  | c :: rest, start => do
    let _ ← onStore (Store.markGarbage c.reference)
    markAll rest (min start c.reference.offset)

/-- How many of `n` candidates a reduction removes. -/
def reduceTarget (s : Solver ε) (n : Nat) : Nat :=
  (floatOfCount n * s.settings.keep.reduceFraction.value).toUInt64.toNat

/-- The conflicts from the last reduction to the next one, which grow with the square root of the count
of reductions. -/
def reduceDelta (s : Solver ε) : Nat :=
  let interval := floatOfCount s.settings.keep.reduceInterval.value
  (interval * (floatOfCount (s.counters.reductions + 1)).sqrt).toUInt64.toNat

/-- Removes the worst candidates.  Garbage is collected from the first garbage clause on. -/
def reduce : SolverM ε Unit := do
  modify fun s => s.count fun c => { c with reductions := c.reductions + 1 }
  pinReasons true
  let s ← get
  let (start, found) ← candidates s.store.references s.store.words.size
  pinReasons false
  let sorted := found.mergeSort Candidate.worse
  let target := (← get).reduceTarget sorted.length
  let start ← markAll (sorted.take target) start
  collect start .sparse
  modify fun s =>
    { s with limits.reduce := s.counters.conflicts + s.reduceDelta }

end Solver

end ClauseLearning

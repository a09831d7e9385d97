import ClauseLearning.Solver.Assign

/-!
# Collection of garbage

A collection sweeps the store from some position on, and then brings up to date whatever holds a
reference: watches, reasons, and the recent clauses, which are forgotten.

* A *sparse* collection also removes clauses that are satisfied at the root, and root-false literals of
  the others.  A clause that is left with two literals becomes a binary clause.  Binary clauses with a
  root literal go, and so do derived ones which are no reason.  Clauses that may have moved are watched
  afresh.
* A *dense* collection only drops garbage, and watches every clause afresh.

A clause which is the reason of a literal above the root is *pinned* while this is done.  It is never
dropped, and the literal gets the clause where it then is as its reason.

* `Solver.pinReasons` — pins reasons, or releases them.
* `Solver.flushWatches`, `Solver.sweepRule`, `Solver.retag`, `Solver.rewatch` — the steps.
* `Solver.collect` — a collection.
-/

namespace ClauseLearning

/-- The two ways to collect garbage. -/
inductive CollectMode where
  /-- Clauses are simplified by what is known at the root. -/
  | sparse
  /-- Clauses stay as they are. -/
  | dense
deriving DecidableEq, Repr, Inhabited

namespace Assignment

/-- How good a literal is to be watched: best if it is not false, and then on a low level; otherwise
the better the higher its level. -/
def watchRank (a : Assignment) (l : Literal) : Nat :=
  let word := greatestWord + 1
  match a.value l with
  | .unassigned => 2 * word + greatestWord
  | .tt => 2 * word + (greatestWord - a.level l)
  | .ff => word + a.level l

/-- Whether a binary clause is the reason of one of its literals. -/
def isBinaryReason (a : Assignment) (l m : Literal) : Bool :=
  (a.value l = .tt && a.reason l = .binary m) || (a.value m = .tt && a.reason m = .binary l)

end Assignment

namespace Solver

variable {ε : Type}

/-! ## Pinning -/

/-- Sets or clears the note on every clause which is the reason of one of some literals. -/
def pinLiterals (pin : Bool) : List Literal → SolverM ε Unit
  | [] => return ()
  | l :: rest => do
    match (← get).assignment.reason l with
    | .large r => onStore (Store.updateFlags r fun f => { f with reason := pin })
    | _ => pure ()
    pinLiterals pin rest

/-- Sets or clears the note on every clause which is a reason above the root. -/
def pinReasons (pin : Bool) : SolverM ε Unit := do
  pinLiterals pin ((← get).trail.above 0)

/-! ## Watches before a sweep -/

/-- Whether a watch in the list of a literal stays: a binary clause unless it is settled at the root or
was derived and is no reason, and another clause if it is before the start of the sweep. -/
def keepsWatch (a : Assignment) (start : Nat) (l : Literal) : Watch → Bool
  | .binary other _ hyper =>
    if (a.fixed l).isAssigned || (a.fixed other).isAssigned then false
    else !hyper || a.isBinaryReason l other
  | .large _ r => r.offset < start

/-- Removes the watches which do not stay. -/
def flushWatches (start : Nat) (s : Solver ε) : Solver ε :=
  let assignment := s.assignment
  { s with
    watches := ⟨s.watches.lists.mapIdx fun code list =>
      list.filter (keepsWatch assignment start ⟨code⟩)⟩ }

/-! ## The sweep -/

/-- Gives a literal a reason where a clause has moved. -/
def rehome (x : Assignment × Watches) (l : Literal) (reason : Reason) : Assignment × Watches :=
  (x.1.setReason l reason, x.2)

/-- What a dense collection does to a clause. -/
def denseRule : Store.SweepRule (Assignment × Watches) := fun x _ new c =>
  if c.flags.garbage && !c.flags.reason then (none, x)
  else if c.flags.reason then (some c, rehome x (c.literals.getD 0 .invalid) (.large new))
  else (some c, x)

/-- What a sparse collection does to a clause. -/
def sparseRule : Store.SweepRule (Assignment × Watches) := fun x _ new c =>
  let a := x.1
  if c.flags.garbage && !c.flags.reason then (none, x)
  else if !c.flags.reason && c.literals.any fun l => a.fixed l = .tt then (none, x)
  else
    let rest := c.literals.filter fun l => a.fixed l ≠ .ff
    if rest.size < 2 then (some c, x)
    else
      let first := rest.getD 0 .invalid
      if rest.size = 2 then
        let second := rest.getD 1 .invalid
        let x := (a, x.2.addBinary first second c.flags.redundant false)
        (none, if c.flags.reason then rehome x first (.binary second) else x)
      else
        let x := if c.flags.reason then rehome x first (.large new) else x
        (some { c with literals := rest }, x)

/-- Sweeps the store. -/
def sweep (start : Nat) (mode : CollectMode) (s : Solver ε) : Store.Relocation × Solver ε :=
  let { store, assignment, watches, .. } := s
  let s := { s with store := {}, assignment := {}, watches := {} }
  let rule := match mode with
    | .sparse => sparseRule
    | .dense => denseRule
  let (store, relocation, assignment, watches) := store.sweep start rule (assignment, watches)
  (relocation, { s with store, assignment, watches })

/-! ## References after a sweep -/

/-- The reference of the new epoch, if a clause has not moved. -/
def carry (t : Store.Relocation) (r : Reference) : Reference := (t.retag r).getD r

/-- A watch with the reference of the new epoch. -/
def carryWatch (t : Store.Relocation) : Watch → Watch
  | .large blocking r => .large blocking (carry t r)
  | w => w

/-- A record with the reference of the new epoch. -/
def carryReason (t : Store.Relocation) (record : Assigned) : Assigned :=
  match record.reason with
  | .large r => { record with reason := .large (carry t r) }
  | _ => record

/-- Carries over the references to clauses that have not moved. -/
def retag (t : Store.Relocation) (mode : CollectMode) (s : Solver ε) : Solver ε :=
  let s :=
    if mode = .sparse ∧ 0 < t.start then
      { s with watches := ⟨s.watches.lists.map fun list => list.map (carryWatch t)⟩ }
    else s
  let literals := s.trail.above 0
  { s with
    assignment := literals.foldl (fun a l => a.modify l.var (carryReason t)) s.assignment }

/-- The first of `n` positions from `i` on at which the clause at an offset has a literal which is better
to watch than the one at position `best` and all before it. -/
def bestFrom (s : Solver ε) (o best i : Nat) : Nat → Nat
  | 0 => best
  | n + 1 =>
    let rank (j : Nat) := s.assignment.watchRank (s.store.literalAt o j)
    s.bestFrom o (if rank best < rank i then i else best) (i + 1) n

/-- Moves the best literal from a position on to that position, in the clause at an offset of size
`size`. -/
def moveBest (o size i : Nat) (s : Solver ε) : Solver ε :=
  let best := s.bestFrom o i (i + 1) (size - (i + 1))
  { s with store := s.store.swapAt o i best }

/-- Watches clauses on their two best literals. -/
def rewatchAll : List Reference → SolverM ε Unit
  | [] => return ()
  | r :: rest => do
    let size ← onStore (Store.locate r)
    let o := r.offset
    modify fun s =>
      let s := moveBest o size 1 (moveBest o size 0 s)
      { s with watches := s.watches.addLarge r (s.store.literalAt o 0) (s.store.literalAt o 1) }
    rewatchAll rest

/-- Watches every clause from a position on. -/
def rewatch (start : Nat) : SolverM ε Unit := do
  rewatchAll ((← get).store.referencesFrom start)

/-! ## A collection -/

/-- Collects garbage from a position of the store on. -/
def collect (start : Nat) (mode : CollectMode) : SolverM ε Unit := do
  modify fun s => s.count fun c => { c with collections := c.collections + 1 }
  pinReasons true
  modify fun s =>
    match mode with
    | .sparse => s.flushWatches start
    | .dense => { s with watches := s.watches.dropLarge }
  let relocation ← modifyGet (sweep start mode)
  modify (retag relocation mode)
  rewatch (match mode with
    | .sparse => relocation.start
    | .dense => 0)
  pinReasons false
  modify fun s => { s with recent := s.recent.clear }

end Solver

end ClauseLearning

import ClauseLearning.Solver.Assign

/-!
# Analysis of conflicts

Every literal of a conflict clause is false.  The clause is resolved with the reasons of its literals
on the highest level, going backwards along the trail, until one literal of that level is left.  The
negation of that literal then follows from the rest, and the resolvent is learnt.  Literals assigned
at the root are left out, since they are false for good.

A literal of the resolvent is *redundant* if it follows from the others: if its reason has only
literals that are at the root, in the resolvent, or redundant themselves.  Redundant literals are
removed.  What is found out about a variable is kept as a mark on its record.

* `Solver.keyLiterals`, `Solver.reasonLiterals` — the clauses to be resolved.
* `Solver.resolve` — the walk along the trail.
* `Solver.redundant`, `Solver.minimize` — the removal of redundant literals.
* `Solver.analyze` — the whole analysis, with `Analysis` as its outcome.
-/

namespace ClauseLearning

/-- The outcome of the analysis of a conflict. -/
inductive Analysis where
  /-- The conflict holds at the root, so there is no model. -/
  | fundamental
  /-- A clause was learnt which is a unit on the level `jump`. -/
  | asserting (jump glue : Nat)
deriving DecidableEq, Repr, Inhabited

namespace Solver

variable {ε : Type}

/-- The literals of a clause. -/
def keyLiterals (s : Solver ε) : Key → Except Fault (Array Literal)
  | .binary a b => .ok #[a, b]
  | .large r => s.store.literals? r

/-- Takes note that a redundant clause was used. -/
def noteUsed (r : Reference) : SolverM ε Unit := do
  let _ ← onStore (Store.locate r)
  let s ← get
  if (s.store.flagsAt r.offset).redundant then
    let used := s.usesForGlue (s.store.glueAt r.offset)
    onStore (Store.updateFlags r fun f => { f with used := max f.used used })

/-- The other literals of the reason of a literal.  A stored clause counts as used. -/
def reasonLiterals (l : Literal) : SolverM ε (Array Literal) := do
  match (← get).assignment.reason l with
  | .binary other => return #[other]
  | .large r =>
    noteUsed r
    return ((← get).store.literalsAt r.offset).drop 1
  | .decision | .unit => throw .missingReason

/-- Adds a literal to the resolvent, unless its variable was seen before or is assigned at the root.
A literal on the conflict level is only counted. -/
def note (level : Nat) (x : Nat × Solver ε) (l : Literal) : Nat × Solver ε :=
  let (n, s) := x
  let v := l.var
  let record := s.assignment.record v
  if record.analyzed || record.level == 0 then (n, s)
  else
    let s := { s with
      assignment := s.assignment.modify v fun r => { r with analyzed := true }
      analyzed := s.analyzed.push v }
    if record.level = level then (n + 1, s) else (n, { s with learned := s.learned.push l })

/-- Adds literals to the resolvent.  The answer is how many of them are on the conflict level. -/
def noteAll (level : Nat) (ls : Array Literal) : SolverM ε Nat := fun s =>
  let (n, s) := ls.foldl (note level) (0, s)
  .ok n s

/-- Walks down the first `n` literals of the trail, while so many literals of the conflict level are in the
resolvent, and resolves on each of them until one is left.  The count is off, and may be negative, only
where variables were left marked by an analysis which met a fault. -/
def resolve (level : Nat) : Nat → Int → SolverM ε Literal
  | 0, _ => throw .noAssertion
  | n + 1, opened => do
    let s ← get
    let l := s.trail.literals.getD n .invalid
    let record := s.assignment.record l.var
    if record.analyzed && record.level == level then
      if opened = 1 then return l
      let ls ← reasonLiterals l
      let more ← noteAll level ls
      resolve level n (opened - 1 + more)
    else resolve level n opened

/-! ## Minimization -/

/-- How deep reasons are followed. -/
def minimizeDepth : Nat := 1000

/-- The levels of some literals, as a table up to the level `top`. -/
def levelTable (s : Solver ε) (top : Nat) (ls : List Literal) : Array Bool :=
  ls.foldl (fun t l => t.setIfInBounds (s.assignment.level l) true) (Array.replicate (top + 1) false)

/-- The other literals of the reason of a variable, if it has one and its level is in the table. -/
def minimizeReason (levels : Array Bool) (record : Assigned) :
    SolverM ε (Option (Array Literal)) := do
  if !levels.getD record.level false then return none
  match record.reason with
  | .decision | .unit => return none
  | .binary other => return some #[other]
  | .large r => return some ((← ofExcept ((← get).store.literals? r)).drop 1)

/-- Marks what was found out about a variable. -/
def noteRedundant (s : Solver ε) (v : Nat) (b : Bool) : Solver ε :=
  { s with
    assignment := s.assignment.modify v fun r =>
      if b then { r with removable := true } else { r with poisoned := true }
    minimized := s.minimized.push v }

/-- Whether a variable of the resolvent (`top`), or one which was come to from there, follows from the
other literals of the resolvent.  Reasons are followed `depth` steps further. -/
def redundant (levels : Array Bool) : Nat → Bool → Nat → SolverM ε Bool
  | depth, top, v => do
    let record := (← get).assignment.record v
    if record.level == 0 || record.removable then return true
    if record.poisoned then return false
    if !top && record.analyzed then return true
    match depth with
    | 0 => return false
    | depth + 1 =>
      let b ← match ← minimizeReason levels record with
        | none => pure false
        | some others => others.toList.allM fun l => redundant levels depth false l.var
      modify fun s => s.noteRedundant v b
      return b

/-- Clears the marks of minimization. -/
def clearMinimized (s : Solver ε) : Solver ε :=
  let assignment := s.minimized.foldl
    (fun a v => a.modify v fun r => { r with removable := false, poisoned := false }) s.assignment
  { s with assignment, minimized := #[] }

/-- Removes redundant literals from the learnt clause.  Its first literal stays. -/
def minimize (level : Nat) : SolverM ε Unit := do
  let learned := (← get).learned
  modify fun s => { s with learned := #[] }
  let rest := learned.toList.drop 1
  let levels := (← get).levelTable level rest
  let kept ← rest.filterM fun l => do
    return !(← redundant levels (minimizeDepth + 1) true l.var)
  modify fun s => { s.clearMinimized with learned := (learned.take 1) ++ kept }

/-! ## The learnt clause -/

/-- The count of levels of some literals, none of them above `top`. -/
def glueOf (s : Solver ε) (top : Nat) (ls : List Literal) : Nat :=
  (ls.foldl
    (fun (n, t) l =>
      let level := s.assignment.level l
      if t.getD level false then (n, t) else (n + 1, t.setIfInBounds level true))
    (0, Array.replicate (top + 1) false)).1

/-- The first of `n` positions from `i` on whose literal is on a higher level than the one at position
`best` and all before it. -/
def highestFrom (s : Solver ε) (ls : Array Literal) (best i : Nat) : Nat → Nat
  | 0 => best
  | n + 1 =>
    let level (j : Nat) := s.assignment.level (ls.getD j .invalid)
    s.highestFrom ls (if level best < level i then i else best) (i + 1) n

/-- Moves a literal on the highest level after the first one to position one.  The answer is its level,
or zero for a unit. -/
def placeSecond (s : Solver ε) : Nat × Solver ε :=
  let learned := s.learned
  if learned.size ≤ 1 then (0, s)
  else
    let best := s.highestFrom learned 1 2 (learned.size - 2)
    let learned := learned.swapIfInBounds 1 best
    (s.assignment.level (learned.getD 1 .invalid), { s with learned })

/-- Bumps every variable that was seen, and clears its mark. -/
def bumpAnalyzed (s : Solver ε) : Solver ε :=
  let vs := s.analyzed.toList
  let assignment := s.assignment
  let conflicts := s.counters.conflicts
  let (vs, s) := s.onOrders fun o => o.bump assignment vs conflicts
  { s with
    assignment := vs.foldl (fun a v => a.modify v fun r => { r with analyzed := false }) s.assignment
    analyzed := #[] }

/-- Takes the glue of a learnt clause into the averages, and the conflict into the restarts. -/
def averageGlue (s : Solver ε) (glue : Nat) : Solver ε :=
  let y := floatOfCount glue
  let s := { s with fastGlue := s.fastGlue.update y, slowGlue := s.slowGlue.update y }
  if s.orders.stable then { s with reluctant := s.reluctant.tick } else s

/-- The highest level of some literals. -/
def highestLevel (s : Solver ε) (ls : Array Literal) : Nat :=
  ls.foldl (fun m l => max m (s.assignment.level l)) 0

/-- Analyzes a conflict.  If all its literals are below the current level, the levels in between are
taken back first. -/
def analyze (conflict : Key) : SolverM ε Analysis := do
  let ls ← ofExcept ((← get).keyLiterals conflict)
  let level := (← get).highestLevel ls
  if level = 0 then return .fundamental
  modify fun s => s.backtrack level
  modify fun s => { s with learned := #[.invalid], analyzed := #[] }
  let opened ← noteAll level ls
  let last ← resolve level (← get).trail.size opened
  modify fun s => { s with learned := s.learned.setIfInBounds 0 (-last) }
  if (← get).settings.minimize.value then minimize level
  let s ← get
  let glue := s.glueOf level s.learned.toList
  let jump ← modifyGet placeSecond
  modify bumpAnalyzed
  modify fun s => s.averageGlue glue
  return .asserting jump glue

end Solver

end ClauseLearning

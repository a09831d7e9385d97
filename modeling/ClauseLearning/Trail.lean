import ClauseLearning.Literal

/-!
# The trail

The assigned literals in the order in which they were assigned, cut into levels.  Each level but the
root begins with a decision, and a frame notes the decision and its position.  Propagation reads the
trail from a position that moves forward, and backtracking moves it back where needed.

* `Trail` — the literals, the frames, and the position from which to propagate.
* `Trail.pushDecision`, `Trail.push` — one more literal, on a new level or on the current one.
* `Trail.next?` — the next literal to propagate.
* `Trail.truncate` — the trail without the levels above one of them.
-/

namespace ClauseLearning

/-- The start of a level. -/
structure Frame where
  /-- The decision of the level. -/
  decision : Literal
  /-- The length of the trail when the level began. -/
  start : Nat
deriving DecidableEq, Repr, Inhabited

/-- Assigned literals in order, cut into levels. -/
structure Trail where
  /-- The literals. -/
  literals : Array Literal := #[]
  /-- The frame of each level.  The root has no decision. -/
  frames : Array Frame := #[{ decision := .invalid, start := 0 }]
  /-- The position of the first literal that was not propagated yet. -/
  propagated : Nat := 0
deriving DecidableEq, Repr, Inhabited

namespace Trail

/-- The count of literals. -/
def size (t : Trail) : Nat := t.literals.size

/-- Whether no literal is assigned. -/
def isEmpty (t : Trail) : Bool := t.literals.isEmpty

/-- The current level. -/
def level (t : Trail) : Nat := t.frames.size - 1

/-- Whether every literal was propagated. -/
def fullyPropagated (t : Trail) : Bool := t.propagated == t.size

/-- The position at which a level begins, or would begin next. -/
def levelStart (t : Trail) (level : Nat) : Nat :=
  match t.frames[level]? with
  | some f => f.start
  | none => t.size

/-- The decision of a level. -/
def decision (t : Trail) (level : Nat) : Literal :=
  (t.frames.getD level { decision := .invalid, start := 0 }).decision

/-- Adds a literal to the current level. -/
def push (t : Trail) (l : Literal) : Trail := { t with literals := t.literals.push l }

/-- Begins a level with its decision. -/
def pushDecision (t : Trail) (l : Literal) : Trail :=
  let frame := { decision := l, start := t.size }
  { t with frames := t.frames.push frame, literals := t.literals.push l }

/-- The next literal to propagate, and the trail on which it counts as propagated. -/
def next? (t : Trail) : Option (Literal × Trail) :=
  match t.literals[t.propagated]? with
  | some l => some (l, { t with propagated := t.propagated + 1 })
  | none => none

/-- The trail on which every literal counts as propagated. -/
def markPropagated (t : Trail) : Trail := { t with propagated := t.size }

/-- The literals of the levels above `level`, in order. -/
def above (t : Trail) (level : Nat) : List Literal :=
  (t.literals.extract (t.levelStart (level + 1)) t.size).toList

/-- The trail without the levels above `level`. -/
def truncate (t : Trail) (level : Nat) : Trail :=
  let start := t.levelStart (level + 1)
  { literals := t.literals.shrink start
    frames := t.frames.shrink (level + 1)
    propagated := min t.propagated start }

end Trail

end ClauseLearning

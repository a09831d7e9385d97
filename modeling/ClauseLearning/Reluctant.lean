import ClauseLearning.Luby
import ClauseLearning.Word

/-!
# Reluctant doubling

A schedule of signals.  Ticks are counted, and once as many have been seen as the wait in force
there is a signal.  While it stands, ticks do not count; taking it starts the next wait.  The waits
are the Luby sequence scaled by a period.  When the next wait would exceed a maximum the sequence
starts again.

* `Reluctant.start` — the schedule of a period and a maximum.
* `Reluctant.tick`, `Reluctant.take` — one tick, and the end of a signal.
-/

namespace ClauseLearning

/-- A reluctant doubling schedule. -/
structure Reluctant where
  /-- The position after the element of the wait in force. -/
  luby : Luby
  /-- The factor from an element to a wait, at least one. -/
  period : Nat
  /-- The longest wait. -/
  longest : Nat
  /-- The wait in force, or the next one while there is a signal. -/
  limit : Nat
  /-- The ticks counted towards the limit. -/
  wait : Nat
  /-- Whether there is a signal. -/
  triggered : Bool
deriving DecidableEq, Repr, Inhabited

namespace Reluctant

/-- The current element of the sequence and the position after it.  Where the sequence cannot go on
the element is one and the position stays. -/
def draw (l : Luby) : Nat × Luby :=
  match l.next? with
  | some (v, l') => (v.toNat, l')
  | none => (1, l)

/-- The wait of an element, capped. -/
def scaled (element period : Nat) : Nat := capped (element * period)

/-- The schedule of a period and a longest wait, each raised to what makes sense. -/
def start (period longest : Nat) : Reluctant :=
  let (first, luby) := draw {}
  let period := max period 1
  { luby := luby, period := period, longest := max longest period, limit := first * period,
    wait := 0, triggered := false }

/-- The schedule once the limit is reached: a signal, and the next wait. -/
def signal (r : Reluctant) : Reluctant :=
  let (element, luby) := draw r.luby
  let next := scaled element r.period
  if r.longest < next then
    let (first, luby) := draw {}
    { r with wait := 0, triggered := true, luby := luby, limit := first * r.period }
  else
    { r with wait := 0, triggered := true, luby := luby, limit := next }

/-- The schedule after one tick. -/
def tick (r : Reluctant) : Reluctant :=
  if r.triggered then r
  else if r.wait + 1 < r.limit then { r with wait := r.wait + 1 }
  else r.signal

/-- Whether there is a signal, and the schedule without it. -/
def take (r : Reluctant) : Bool × Reluctant :=
  (r.triggered, { r with triggered := false })

end Reluctant

end ClauseLearning

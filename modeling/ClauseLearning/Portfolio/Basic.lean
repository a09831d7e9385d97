import ClauseLearning.Settings

/-!
# Portfolios

Several engines solve one formula and hand clauses to one another.  Where they search in different
ways, one of them may find an answer that the others are far from.

* `Portfolio` — the settings of each engine and the limits on what is shared.
* `Portfolio.diverse` — variations on some settings, a given count of them.
-/

namespace ClauseLearning

/-- Engines by their settings, with limits on what they share. -/
structure Portfolio where
  /-- The settings of each engine. -/
  settings : List Settings
  /-- The greatest glue of a shared clause.  Units are shared in any case. -/
  glueLimit : Nat := 8
  /-- The most literals of a shared clause. -/
  maxSize : Nat := 40
  /-- The most literals delivered to an engine in one round, units aside. -/
  literalLimit : Nat := 1500
  /-- The pause from one round to the next, in milliseconds. -/
  interval : Nat := 5
deriving Inhabited

namespace Portfolio

/-- The modes, in the order in which engines are given one. -/
def modeCycle : Array Mode := #[.focused, .stable, .switching]

/-- Whether an engine also differs from the usual in its scores and initial phase.  Every other run of
engines through the modes does. -/
def isContrary (engine : Nat) : Bool := engine / modeCycle.size % 2 == 1

/-- The settings of one engine among others that start from the same settings. -/
def variation (base : Settings) (engine : Nat) : Settings :=
  let seed := (base.randomSeed.value + engine) % (greatestLong + 1)
  let mode := modeCycle.getD (engine % modeCycle.size) .focused
  let c := { base with
    randomSeed := (base.randomSeed.set seed).2
    mode := (base.mode.set mode).2 }
  if isContrary engine then
    { c with
      score.score := (c.score.score.set .chb).2
      phase.initial := { c.phase.initial with value := !base.phase.initial.value } }
  else c

/-- A portfolio of a count of engines, each a variation on some settings. -/
def diverse (base : Settings) (engines : Nat) : Portfolio :=
  { settings := (List.range engines).map (variation base) }

end Portfolio

end ClauseLearning

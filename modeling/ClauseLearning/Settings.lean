import ClauseLearning.Report
import ClauseLearning.Word

/-!
# Settings

What a solver may be told about how to search.  Every setting is a bounded option: a value between
a least and a greatest one, and a value out of these bounds is refused.

* `Mode`, `Score` — the two settings whose values are names.
* `Bounded` — an option, with `Bounded.set`.
* `Settings` — all options and what they start from, in groups by what they control.
* `Settings.Key` — the names of the options, with `Settings.setNumber` and its like to set the
  option of a name.
-/

namespace ClauseLearning

/-- Which of its two ways to search a solver uses. -/
inductive Mode where
  /-- Decide the variable seen in a conflict most recently, and restart often. -/
  | focused
  /-- Decide the variable with the highest score, and restart seldom. -/
  | stable
  /-- Change from one to the other and back. -/
  | switching
deriving DecidableEq, Repr, Inhabited

namespace Mode

/-- The place of a mode in the order of modes. -/
def rank : Mode → Nat
  | focused => 0
  | stable => 1
  | switching => 2

/-- The name of a mode. -/
def text : Mode → String
  | focused => "Focused"
  | stable => "Stable"
  | switching => "Switching"

instance : ToString Mode := ⟨text⟩

/-- The mode of a name. -/
def ofName? (s : String) : Option Mode :=
  [focused, stable, switching].find? fun m => m.text == s

instance : LE Mode := ⟨fun a b => a.rank ≤ b.rank⟩
instance : DecidableLE Mode := fun a b => inferInstanceAs (Decidable (a.rank ≤ b.rank))

end Mode

/-- How variables are scored when the one with the highest score is decided. -/
inductive Score where
  /-- A sum over the conflicts that a variable was in, with a decay. -/
  | vsids
  /-- An average of rewards for conflicts that follow soon on one another. -/
  | chb
deriving DecidableEq, Repr, Inhabited

namespace Score

/-- The place of a score in the order of scores. -/
def rank : Score → Nat
  | vsids => 0
  | chb => 1

/-- The name of a score. -/
def text : Score → String
  | vsids => "VSIDS"
  | chb => "CHB"

instance : ToString Score := ⟨text⟩

/-- The score of a name. -/
def ofName? (s : String) : Option Score :=
  [vsids, chb].find? fun m => m.text == s

instance : LE Score := ⟨fun a b => a.rank ≤ b.rank⟩
instance : DecidableLE Score := fun a b => inferInstanceAs (Decidable (a.rank ≤ b.rank))

end Score

/-- An option with a least and a greatest value. -/
structure Bounded (α : Type) where
  /-- The value of the option. -/
  value : α
  /-- The least value it may be set to. -/
  least : α
  /-- The greatest value it may be set to. -/
  greatest : α
deriving Repr, Inhabited

namespace Bounded

/-- Whether a value is within the bounds of an option. -/
def allows {α : Type} [LE α] [DecidableLE α] (b : Bounded α) (v : α) : Bool :=
  b.least ≤ v && v ≤ b.greatest

/-- Sets an option, if the value is within its bounds.  The answer is whether it was. -/
def set {α : Type} [LE α] [DecidableLE α] (b : Bounded α) (v : α) : Bool × Bounded α :=
  if b.allows v then (true, { b with value := v }) else (false, b)

/-- An option that is on or off. -/
def switch (v : Bool) : Bounded Bool := { value := v, least := false, greatest := true }

/-- A whole number up to `greatest`. -/
def number (v least greatest : Nat) : Bounded Nat := { value := v, least, greatest }

/-- A float between two others. -/
def float (v least greatest : Float) : Bounded Float := { value := v, least, greatest }

end Bounded

/-- How learnt clauses are kept and thrown away. -/
structure KeepSettings where
  /-- Learnt clauses with at most this glue are kept for good. -/
  tier1 : Bounded Nat := .number 2 0 greatestWord
  /-- Learnt clauses with at most this glue survive two reductions after they were used. -/
  tier2 : Bounded Nat := .number 6 0 greatestWord
  /-- The conflicts from one reduction to the next, before scaling. -/
  reduceInterval : Bounded Nat := .number 1000 1 greatestLong
  /-- The part of the candidates which a reduction removes. -/
  reduceFraction : Bounded Float := .float 0.75 0.0 1.0
  /-- How many recent clauses a learnt clause is checked against. -/
  eagerSubsume : Bounded Nat := .number 20 0 1000
  /-- Whether binary clauses are derived at the first level. -/
  hyperBinaries : Bounded Bool := .switch false
deriving Inhabited

/-- When to restart. -/
structure RestartSettings where
  /-- Whether to restart at all. -/
  restart : Bounded Bool := .switch true
  /-- The least count of conflicts between restarts in focused mode. -/
  interval : Bounded Nat := .number 1 1 greatestLong
  /-- How far the recent glue must be above the usual one. -/
  margin : Bounded Float := .float 1.1 1.0 10.0
  /-- The window of the average of recent glue. -/
  fastWindow : Bounded Float := .float 33.0 1.0 1e9
  /-- The window of the average of usual glue. -/
  slowWindow : Bounded Float := .float 1e5 1.0 1e9
  /-- The period of the restarts in stable mode. -/
  reluctantPeriod : Bounded Nat := .number 1024 1 greatestLong
  /-- The longest wait for a restart in stable mode. -/
  reluctantMax : Bounded Nat := .number 1048576 1 greatestLong
deriving Inhabited

/-- Which value a decided variable is given. -/
structure PhaseSettings where
  /-- The value of a variable which had none yet. -/
  initial : Bounded Bool := .switch true
  /-- Whether stable mode follows target phases. -/
  target : Bounded Bool := .switch true
  /-- Whether saved phases are reset now and then. -/
  rephase : Bounded Bool := .switch true
  /-- The conflicts from one reset to the next, before scaling. -/
  rephaseInterval : Bounded Nat := .number 1000 1 greatestLong
deriving Inhabited

/-- How variables are scored in stable mode. -/
structure ScoreSettings where
  /-- The kind of score. -/
  score : Bounded Score := { value := .vsids, least := .vsids, greatest := .chb }
  /-- The factor by which scores of the first kind decay. -/
  vsidsDecay : Bounded Float := .float 0.95 0.5 1.0
  /-- The first step size of the second kind. -/
  chbStep : Bounded Float := .float 0.4 0.0 1.0
  /-- The amount by which the step size decays. -/
  chbStepDecay : Bounded Float := .float 1e-6 0.0 1.0
  /-- The least step size. -/
  chbStepMin : Bounded Float := .float 0.06 0.0 1.0
deriving Inhabited

/-- Every option of a solver. -/
structure Settings where
  /-- How learnt clauses are kept and thrown away. -/
  keep : KeepSettings := {}
  /-- When to restart. -/
  restart : RestartSettings := {}
  /-- Which value a decided variable is given. -/
  phase : PhaseSettings := {}
  /-- How variables are scored in stable mode. -/
  score : ScoreSettings := {}
  /-- Which way to search. -/
  mode : Bounded Mode := { value := .switching, least := .focused, greatest := .switching }
  /-- The conflicts before the first change of mode. -/
  modeInit : Bounded Nat := .number 1000 1 greatestLong
  /-- The longest jump after a conflict, beyond which a single level is undone. -/
  chronoLevels : Bounded Nat := .number 100 0 greatestWord
  /-- Whether learnt clauses are minimized. -/
  minimize : Bounded Bool := .switch true
  /-- Whether pure literals are eliminated before the search. -/
  preprocessing : Bounded Bool := .switch false
  /-- The seed of the source of random words. -/
  randomSeed : Bounded Nat := .number 0 0 greatestLong
deriving Inhabited

namespace Settings

/-! ## Options by name -/

/-- The options whose values are whole numbers. -/
inductive NumberKey where
  | tier1 | tier2 | chronoLevels | eagerSubsume | reduceInterval | restartInterval
  | reluctantPeriod | reluctantMax | rephaseInterval | modeInit | randomSeed
deriving DecidableEq, Repr

/-- The options which are on or off. -/
inductive SwitchKey where
  | hyperBinaries | restart | initialPhase | targetPhase | rephase | minimize | preprocessing
deriving DecidableEq, Repr

/-- The options whose values are floats. -/
inductive FloatKey where
  | reduceFraction | restartMargin | emaFast | emaSlow | vsidsDecay | chbStep | chbStepDecay
  | chbStepMin
deriving DecidableEq, Repr

/-- The name of an option which is a whole number. -/
def NumberKey.text : NumberKey → String
  | tier1 => "tier1"
  | tier2 => "tier2"
  | chronoLevels => "chrono_levels"
  | eagerSubsume => "eager_subsume"
  | reduceInterval => "reduce_interval"
  | restartInterval => "restart_interval"
  | reluctantPeriod => "reluctant_period"
  | reluctantMax => "reluctant_max"
  | rephaseInterval => "rephase_interval"
  | modeInit => "mode_init"
  | randomSeed => "random_seed"

/-- The name of an option which is on or off. -/
def SwitchKey.text : SwitchKey → String
  | hyperBinaries => "hyper_binaries"
  | restart => "restart"
  | initialPhase => "initial_phase"
  | targetPhase => "target_phase"
  | rephase => "rephase"
  | minimize => "minimize"
  | preprocessing => "preprocessing"

/-- The name of an option which is a float. -/
def FloatKey.text : FloatKey → String
  | reduceFraction => "reduce_fraction"
  | restartMargin => "restart_margin"
  | emaFast => "ema_fast"
  | emaSlow => "ema_slow"
  | vsidsDecay => "vsids_decay"
  | chbStep => "chb_step"
  | chbStepDecay => "chb_step_decay"
  | chbStepMin => "chb_step_min"

/-- The options which are whole numbers, in the order in which they are listed. -/
def NumberKey.all : List NumberKey :=
  [tier1, tier2, chronoLevels, eagerSubsume, reduceInterval, restartInterval, reluctantPeriod,
    reluctantMax, rephaseInterval, modeInit, randomSeed]

/-- The options which are on or off, in the order in which they are listed. -/
def SwitchKey.all : List SwitchKey :=
  [hyperBinaries, restart, initialPhase, targetPhase, rephase, minimize, preprocessing]

/-- The options which are floats, in the order in which they are listed. -/
def FloatKey.all : List FloatKey :=
  [reduceFraction, restartMargin, emaFast, emaSlow, vsidsDecay, chbStep, chbStepDecay, chbStepMin]

/-- The option of a name. -/
def NumberKey.ofName? (s : String) : Option NumberKey := all.find? fun k => k.text == s

/-- The option of a name. -/
def SwitchKey.ofName? (s : String) : Option SwitchKey := all.find? fun k => k.text == s

/-- The option of a name. -/
def FloatKey.ofName? (s : String) : Option FloatKey := all.find? fun k => k.text == s

/-- The option with a key. -/
def number (c : Settings) : NumberKey → Bounded Nat
  | .tier1 => c.keep.tier1
  | .tier2 => c.keep.tier2
  | .chronoLevels => c.chronoLevels
  | .eagerSubsume => c.keep.eagerSubsume
  | .reduceInterval => c.keep.reduceInterval
  | .restartInterval => c.restart.interval
  | .reluctantPeriod => c.restart.reluctantPeriod
  | .reluctantMax => c.restart.reluctantMax
  | .rephaseInterval => c.phase.rephaseInterval
  | .modeInit => c.modeInit
  | .randomSeed => c.randomSeed

/-- Replaces the option with a key. -/
def withNumber (c : Settings) (k : NumberKey) (b : Bounded Nat) : Settings :=
  match k with
  | .tier1 => { c with keep.tier1 := b }
  | .tier2 => { c with keep.tier2 := b }
  | .chronoLevels => { c with chronoLevels := b }
  | .eagerSubsume => { c with keep.eagerSubsume := b }
  | .reduceInterval => { c with keep.reduceInterval := b }
  | .restartInterval => { c with restart.interval := b }
  | .reluctantPeriod => { c with restart.reluctantPeriod := b }
  | .reluctantMax => { c with restart.reluctantMax := b }
  | .rephaseInterval => { c with phase.rephaseInterval := b }
  | .modeInit => { c with modeInit := b }
  | .randomSeed => { c with randomSeed := b }

/-- The option with a key. -/
def switch (c : Settings) : SwitchKey → Bounded Bool
  | .hyperBinaries => c.keep.hyperBinaries
  | .restart => c.restart.restart
  | .initialPhase => c.phase.initial
  | .targetPhase => c.phase.target
  | .rephase => c.phase.rephase
  | .minimize => c.minimize
  | .preprocessing => c.preprocessing

/-- Replaces the option with a key. -/
def withSwitch (c : Settings) (k : SwitchKey) (b : Bounded Bool) : Settings :=
  match k with
  | .hyperBinaries => { c with keep.hyperBinaries := b }
  | .restart => { c with restart.restart := b }
  | .initialPhase => { c with phase.initial := b }
  | .targetPhase => { c with phase.target := b }
  | .rephase => { c with phase.rephase := b }
  | .minimize => { c with minimize := b }
  | .preprocessing => { c with preprocessing := b }

/-- The option with a key. -/
def float (c : Settings) : FloatKey → Bounded Float
  | .reduceFraction => c.keep.reduceFraction
  | .restartMargin => c.restart.margin
  | .emaFast => c.restart.fastWindow
  | .emaSlow => c.restart.slowWindow
  | .vsidsDecay => c.score.vsidsDecay
  | .chbStep => c.score.chbStep
  | .chbStepDecay => c.score.chbStepDecay
  | .chbStepMin => c.score.chbStepMin

/-- Replaces the option with a key. -/
def withFloat (c : Settings) (k : FloatKey) (b : Bounded Float) : Settings :=
  match k with
  | .reduceFraction => { c with keep.reduceFraction := b }
  | .restartMargin => { c with restart.margin := b }
  | .emaFast => { c with restart.fastWindow := b }
  | .emaSlow => { c with restart.slowWindow := b }
  | .vsidsDecay => { c with score.vsidsDecay := b }
  | .chbStep => { c with score.chbStep := b }
  | .chbStepDecay => { c with score.chbStepDecay := b }
  | .chbStepMin => { c with score.chbStepMin := b }

/-- Sets the option with a key.  The answer is whether the value was within its bounds. -/
def setNumber (c : Settings) (k : NumberKey) (v : Nat) : Bool × Settings :=
  let (ok, b) := (c.number k).set v
  (ok, c.withNumber k b)

/-- Sets the option with a key.  Neither value is out of bounds. -/
def setSwitch (c : Settings) (k : SwitchKey) (v : Bool) : Bool × Settings :=
  (true, c.withSwitch k { c.switch k with value := v })

/-- Sets the option with a key.  The answer is whether the value was within its bounds, which what is
not a number never is. -/
def setFloat (c : Settings) (k : FloatKey) (v : Float) : Bool × Settings :=
  let (ok, b) := (c.float k).set v
  (ok, c.withFloat k b)

/-- Sets the mode by its name. -/
def setMode (c : Settings) (name : String) : Bool × Settings :=
  match Mode.ofName? name with
  | none => (false, c)
  | some m =>
    let (ok, b) := c.mode.set m
    (ok, { c with mode := b })

/-- Sets the score by its name. -/
def setScore (c : Settings) (name : String) : Bool × Settings :=
  match Score.ofName? name with
  | none => (false, c)
  | some m =>
    let (ok, b) := c.score.score.set m
    (ok, { c with score.score := b })

/-- Every option may be set until clauses are added. -/
def lastStatus : Status := .configuration

end Settings

end ClauseLearning

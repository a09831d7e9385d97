import ClauseLearning.Proofs.LubySequence
import ClauseLearning.Reluctant

/-!
# Reluctant doubling keeps its timetable

A timetable says how many ticks each signal waits for.  The waits are the Luby sequence times a period, from its start
again whenever the next one would be too long.  A schedule does not know the timetable: it has a place in the sequence,
and fixes the next wait at the moment of a signal, before anybody takes it.

Words have room for `Luby.total` elements of the sequence.  A schedule gets to the end of these only if no wait is too
long, so that it never starts again, and not before as many signals.  From there on it waits for one period each time,
and that is no part of the sequence any more.

* `Luby.luby_pos`, `Reluctant.draw_take` — the elements that are drawn.
* `Reluctant.place`, `Reluctant.waitOf` — the place in the sequence before a signal, and the wait.
* `Reluctant.waitOf_luby`, `Reluctant.waitOf_beyond` — the waits are those of the sequence itself, or one period.
* `Reluctant.Timetable`, `Reluctant.Event` — how far the timetable is, and what happens.
* `Reluctant.Follows`, `Reluctant.Follows.step` — one event keeps schedule and timetable together.
* `Reluctant.played_timetable` — so do any events.
-/

namespace ClauseLearning

/-! ## The elements that are drawn -/

theorem luby_pos {n : Nat} (h : 0 < n) : 0 < luby n := by
  induction n using luby.induct with
  | case1 => exact absurd h (Nat.lt_irrefl 0)
  | case2 n hn hend =>
    rw [luby, if_neg hn, if_pos hend]
    omega
  | case3 n hn hend ih =>
    have hle : powerBelow n ≤ n := by
      rw [powerBelow, Nat.one_shiftLeft]
      exact Nat.log2_self_le hn
    rw [luby, if_neg hn, if_neg hend]
    exact ih (by omega)

/-- Before the end of a block, no element is greater than the one there. -/
theorem luby_le {n k : Nat} (h : n < 2 ^ (k + 1)) : luby n ≤ 2 ^ k := by
  induction n using luby.induct with
  | case1 => simp [luby]
  | case2 n hn hend =>
    rw [luby, if_neg hn, if_pos hend, powerBelow, Nat.one_shiftLeft]
    exact Nat.pow_le_pow_right (by decide) (Nat.le_of_lt_succ ((Nat.log2_lt hn).2 h))
  | case3 n hn hend ih =>
    have hpos : 0 < powerBelow n := by
      rw [powerBelow, Nat.one_shiftLeft]
      exact Nat.two_pow_pos _
    rw [luby, if_neg hn, if_neg hend]
    exact ih (by omega)

namespace Reluctant

variable {r : Reluctant} {f : Nat → Nat} {p m k n period longest : Nat}

/-- The `n`-th element that is drawn, counted from one. -/
def element (n : Nat) : Nat := if n ≤ Luby.total then ClauseLearning.luby n else 1

theorem element_eq (h : n ≤ Luby.total) : element n = ClauseLearning.luby n := if_pos h

@[simp] theorem element_one : element 1 = 1 := (element_eq (by decide)).trans (luby_end 0)

/-- The end of the last block that is drawn as a whole is the greatest element. -/
theorem element_le (n : Nat) : element n ≤ 2 ^ 63 := by
  rw [element, Luby.total]
  split
  next hn =>
    rcases Nat.lt_or_ge n (2 ^ 64) with hlt | hge
    · exact luby_le hlt
    · obtain ⟨i, rfl⟩ := Nat.exists_eq_add_of_le (show 2 ^ (63 + 1) - 1 ≤ n by omega)
      rw [luby_again (by omega) (by omega)]
      exact luby_le (by omega)
  next => decide

theorem element_pos (h : 0 < n) : 0 < element n := by
  rw [element]
  split
  · exact luby_pos h
  · exact Nat.one_pos

/-- After `n` elements the next one is drawn. -/
theorem draw_take (n : Nat) : draw (Luby.take n {}).2 = (element (n + 1), (Luby.take (n + 1) {}).2) := by
  rcases Nat.lt_or_ge n Luby.total with hn | hn
  · obtain ⟨v, hnext, hv⟩ := Luby.next_take hn
    rw [draw, hnext, element_eq hn, ← hv]
  · -- there is no way on from the end
    have hend : (Luby.take Luby.total {}).2 = Luby.at' (2 ^ 64 - 1) 1 := by
      have := Luby.gives_all.2
      rwa [length_lubyFirst] at this
    have hstuck : (Luby.at' (2 ^ 64 - 1) 1).next? = none := by decide
    have hstay : ∀ i, Luby.total ≤ i → (Luby.take i {}).2 = Luby.at' (2 ^ 64 - 1) 1 := fun i hi => by
      rw [← Nat.add_sub_cancel' hi, Luby.take_add, hend, Luby.take_stuck hstuck]
    rw [hstay n hn, hstay (n + 1) (by omega), draw, hstuck, element, if_neg (by omega)]

@[simp] theorem draw_first : draw {} = (1, (Luby.take 1 {}).2) := by
  have h := draw_take 0
  rwa [Nat.zero_add, element_one] at h

/-! ## The timetable -/

/-- The place of a wait in a sequence: the one after the last, or the first where that wait would be too long. -/
def place (f : Nat → Nat) (p m : Nat) : Nat → Nat
  | 0 => 1
  | k + 1 => if m < min (f (place f p m k + 1) * p) (2 ^ 64 - 1) then 1 else place f p m k + 1

/-- The wait after `k` signals: as many periods as the element says, and not more than a word has room for. -/
def waitOf (f : Nat → Nat) (p m k : Nat) : Nat := min (f (place f p m k) * p) (2 ^ 64 - 1)

theorem scaled_eq (n p : Nat) : scaled n p = min (n * p) (2 ^ 64 - 1) := rfl

theorem place_pos (f : Nat → Nat) (p m k : Nat) : 0 < place f p m k := by
  cases k with
  | zero => exact Nat.one_pos
  | succ k =>
    rw [place]
    split
    · exact Nat.one_pos
    · exact Nat.succ_pos _

theorem place_le (f : Nat → Nat) (p m k : Nat) : place f p m k ≤ k + 1 := by
  induction k with
  | zero => exact Nat.le_refl 1
  | succ k ih =>
    rw [place]
    split
    · exact Nat.succ_le_succ (Nat.zero_le _)
    · exact Nat.succ_le_succ ih

theorem min_one_mul (hp : p ≤ greatestLong) : min (1 * p) (2 ^ 64 - 1) = p := by
  rw [Nat.one_mul]
  exact Nat.min_eq_left hp

/-- No wait is shorter than the period. -/
theorem le_waitOf (hp : p ≤ greatestLong) (hf : ∀ n, 0 < n → 0 < f n) (k : Nat) : p ≤ waitOf f p m k :=
  Nat.le_min.2 ⟨Nat.le_mul_of_pos_left p (hf _ (place_pos f p m k)), hp⟩

/-- No wait is longer than the longest. -/
theorem waitOf_le (hp : p ≤ greatestLong) (hm : p ≤ m) (hone : f 1 = 1) (k : Nat) : waitOf f p m k ≤ m := by
  have hfirst : min (f 1 * p) (2 ^ 64 - 1) ≤ m := by rwa [hone, min_one_mul hp]
  cases k with
  | zero => exact hfirst
  | succ k =>
    rw [waitOf, place]
    split
    next => exact hfirst
    next hle => exact Nat.not_lt.1 hle

/-- A sequence starts again before an element whose wait is too long. -/
theorem place_lt {e : Nat} (he : 1 < e) (hlong : m < min (f e * p) (2 ^ 64 - 1)) (k : Nat) : place f p m k < e := by
  induction k with
  | zero => exact he
  | succ k ih =>
    rw [place]
    split
    next => exact he
    next hle => exact Nat.lt_of_le_of_ne ih fun h => hle (h ▸ hlong)

/-- The places are the same as long as those elements are the same that are looked at. -/
theorem place_congr {g : Nat → Nat} (h : ∀ i < k, f (place f p m i + 1) = g (place f p m i + 1)) :
    place f p m k = place g p m k := by
  induction k with
  | zero => rfl
  | succ k ih => rw [place, place, ← ih fun i hi => h i (Nat.lt_succ_of_lt hi), h k (Nat.lt_succ_self k)]

/-- Where no wait is too long, the sequence does not start again. -/
theorem place_eq (h : ∀ n, min (f n * p) (2 ^ 64 - 1) ≤ m) (k : Nat) : place f p m k = k + 1 := by
  induction k with
  | zero => rfl
  | succ k ih => rw [place, if_neg (Nat.not_lt.2 (h _)), ih]

/-- The waits are those of the sequence itself, if an element of `2 ^ 63` is too long, and otherwise up to a number of
signals that is the number of elements. -/
theorem waitOf_luby (h : m < min (2 ^ 63 * p) (2 ^ 64 - 1) ∨ k < Luby.total) :
    waitOf element p m k = waitOf ClauseLearning.luby p m k := by
  have hlooked : ∀ i ≤ k, place element p m i ≤ Luby.total ∧ (i < k → place element p m i + 1 ≤ Luby.total) := by
    intro i hi
    rcases h with hlong | hk
    · have helement : element (2 ^ 64 - 1) = 2 ^ 63 := (element_eq (by decide)).trans (luby_end 63)
      have := place_lt (f := element) (e := 2 ^ 64 - 1) (by decide) (by rwa [helement]) i
      rw [Luby.total]
      omega
    · have := place_le element p m i
      omega
  have hplace : place element p m k = place ClauseLearning.luby p m k :=
    place_congr fun i hi => element_eq ((hlooked i (Nat.le_of_lt hi)).2 hi)
  rw [waitOf, waitOf, ← hplace, element_eq (hlooked k (Nat.le_refl k)).1]

/-- After that number of signals, and if an element of `2 ^ 63` is not too long, a wait is one period. -/
theorem waitOf_beyond (hp : p ≤ greatestLong) (h : ¬ (m < min (2 ^ 63 * p) (2 ^ 64 - 1) ∨ k < Luby.total)) :
    waitOf element p m k = p := by
  obtain ⟨hlong, hk⟩ := not_or.1 h
  have hnever : ∀ n, min (element n * p) (2 ^ 64 - 1) ≤ m := fun n => by
    have := Nat.mul_le_mul_right p (element_le n)
    omega
  rw [waitOf, place_eq hnever, element, if_neg (by omega), min_one_mul hp]

/-- How far a timetable is. -/
structure Timetable where
  /-- How many signals there have been. -/
  raised : Nat := 0
  /-- How many ticks there have been without a signal since the last one was taken. -/
  counted : Nat := 0
  /-- Whether there is a signal. -/
  standing : Bool := false
deriving DecidableEq, Repr

/-- What happens. -/
inductive Event where
  /-- A tick. -/
  | tick
  /-- Somebody asks whether there is a signal. -/
  | ask
  /-- The signal is taken, if there is one. -/
  | take

/-- What an event does to the schedule. -/
def Event.act (r : Reluctant) : Event → Reluctant
  | tick => r.tick
  | ask => r
  | take => r.take.2

/-- What the schedule answers to an event. -/
def Event.answer (r : Reluctant) : Event → Option Bool
  | tick => none
  | ask => some r.triggered
  | take => some r.take.1

/-- What an event does to a timetable, where `w k` is the wait after `k` signals. -/
def Event.step (w : Nat → Nat) (t : Timetable) : Event → Timetable
  | tick =>
    if t.standing then t
    else if t.counted + 1 = w t.raised then { raised := t.raised + 1, counted := 0, standing := true }
    else { t with counted := t.counted + 1 }
  | ask => t
  | take => { t with standing := false }

/-- What the timetable answers to an event. -/
def Event.due (t : Timetable) : Event → Option Bool
  | tick => none
  | ask | take => some t.standing

/-- The timetable after some events. -/
def Timetable.after (w : Nat → Nat) (t : Timetable) (es : List Event) : Timetable := es.foldl (Event.step w) t

/-- The answers of the timetable to some events. -/
def Timetable.answers (w : Nat → Nat) (t : Timetable) : List Event → List (Option Bool)
  | [] => []
  | e :: es => e.due t :: Timetable.answers w (e.step w t) es

/-- No signal is unmade, and an event makes one at most. -/
theorem Event.raised_step (w : Nat → Nat) (t : Timetable) (e : Event) :
    t.raised ≤ (e.step w t).raised ∧ (e.step w t).raised ≤ t.raised + 1 := by
  cases e with
  | tick =>
    rw [Event.step]
    split
    · exact ⟨Nat.le_refl _, Nat.le_succ _⟩
    · split
      · exact ⟨Nat.le_succ _, Nat.le_refl _⟩
      · exact ⟨Nat.le_refl _, Nat.le_succ _⟩
  | ask | take => exact ⟨Nat.le_refl _, Nat.le_succ _⟩

/-- There are no more signals than events. -/
theorem Timetable.raised_after (w : Nat → Nat) (t : Timetable) (es : List Event) :
    t.raised ≤ (t.after w es).raised ∧ (t.after w es).raised ≤ t.raised + es.length := by
  induction es generalizing t with
  | nil => exact ⟨Nat.le_refl _, Nat.le_refl _⟩
  | cons e es ih =>
    obtain ⟨hstep, hstep'⟩ := e.raised_step w t
    obtain ⟨hrest, hrest'⟩ := ih (e.step w t)
    rw [List.length_cons]
    exact ⟨Nat.le_trans hstep hrest, Nat.le_trans hrest' (by omega)⟩

/-- What happens does not depend on waits that are not reached. -/
theorem Timetable.congr {w w' : Nat → Nat} (t : Timetable) (es : List Event)
    (h : ∀ k ≤ (t.after w es).raised, w k = w' k) : t.answers w es = t.answers w' es ∧ t.after w es = t.after w' es := by
  induction es generalizing t with
  | nil => exact ⟨rfl, rfl⟩
  | cons e es ih =>
    have hstep : e.step w t = e.step w' t := by
      cases e with
      | tick => rw [Event.step, Event.step, h _ (raised_after w t (.tick :: es)).1]
      | ask | take => rfl
    obtain ⟨hanswers, hafter⟩ := ih (e.step w t) h
    rw [hstep] at hanswers
    refine ⟨by rw [answers, answers, hstep, hanswers], hafter.trans ?_⟩
    rw [hstep]
    rfl

/-- The schedule after some events. -/
def played (r : Reluctant) (es : List Event) : Reluctant := es.foldl Event.act r

/-- The answers of the schedule to some events. -/
def answers (r : Reluctant) : List Event → List (Option Bool)
  | [] => []
  | e :: es => e.answer r :: (e.act r).answers es

/-! ## One event -/

variable {t : Timetable}

/-- A schedule is as far as a timetable. -/
structure Follows (p m : Nat) (r : Reluctant) (t : Timetable) : Prop where
  /-- The factor is the period. -/
  period : r.period = p
  /-- The longest wait is that of the timetable. -/
  longest : r.longest = m
  /-- The place in the sequence is after the element of the wait. -/
  luby : r.luby = (Luby.take (place element p m t.raised) {}).2
  /-- The limit is the wait. -/
  limit : r.limit = waitOf element p m t.raised
  /-- The same ticks have been counted. -/
  counted : r.wait = t.counted
  /-- The wait is not over. -/
  short : t.counted < r.limit
  /-- There is a signal in both or in none. -/
  standing : r.triggered = t.standing

namespace Follows

/-- At first the schedule waits for one period. -/
theorem start (hp : period ≤ greatestLong) (longest : Nat) :
    Follows (max period 1) (max longest (max period 1)) (start period longest) {} := by
  have hmax : max period 1 ≤ greatestLong := Nat.max_le.2 ⟨hp, by decide⟩
  refine ⟨rfl, rfl, by simp [Reluctant.start, place], ?_, rfl, ?_, rfl⟩
  · simp only [Reluctant.start, waitOf, place, draw_first, element_one]
    rw [min_one_mul hmax, Nat.one_mul]
  · simp [Reluctant.start]

/-- A signal comes with the next wait. -/
theorem signal (h : Follows p m r t) (hp : p ≤ greatestLong) (hpos : 0 < p) :
    Follows p m r.signal { raised := t.raised + 1, counted := 0, standing := true } := by
  have hlimit : 0 < waitOf element p m (t.raised + 1) :=
    Nat.lt_of_lt_of_le hpos (le_waitOf hp (fun _ => element_pos) _)
  rw [Reluctant.signal, h.luby, draw_take]
  dsimp only
  rw [h.period, h.longest, draw_first]
  split
  next hlong =>
    have hplace : place element p m (t.raised + 1) = 1 := if_pos hlong
    have hwait : 1 * p = waitOf element p m (t.raised + 1) := by
      rw [waitOf, hplace, element_one, min_one_mul hp, Nat.one_mul]
    exact ⟨rfl, rfl, by rw [hplace], hwait, rfl, hwait ▸ hlimit, rfl⟩
  next hle =>
    have hplace : place element p m (t.raised + 1) = place element p m t.raised + 1 := if_neg hle
    have hwait : scaled (element (place element p m t.raised + 1)) p = waitOf element p m (t.raised + 1) := by
      rw [waitOf, hplace, scaled_eq]
    exact ⟨rfl, rfl, by rw [hplace], hwait, rfl, hwait ▸ hlimit, rfl⟩

/-- One event keeps schedule and timetable together. -/
theorem step (h : Follows p m r t) (hp : p ≤ greatestLong) (hpos : 0 < p) (e : Event) :
    Follows p m (e.act r) (e.step (waitOf element p m) t) := by
  cases e with
  | ask => exact h
  | take => exact ⟨h.period, h.longest, h.luby, h.limit, h.counted, h.short, rfl⟩
  | tick =>
    rw [Event.act, Event.step, tick, h.standing, h.counted, ← h.limit]
    have hshort := h.short
    split
    next => exact h
    next =>
      split
      next hlt =>
        rw [if_neg (Nat.ne_of_lt hlt)]
        exact ⟨h.period, h.longest, h.luby, h.limit, rfl, hlt, rfl⟩
      next hge =>
        rw [if_pos (by omega)]
        exact h.signal hp hpos

/-- So do any events. -/
theorem played (h : Follows p m r t) (hp : p ≤ greatestLong) (hpos : 0 < p) (es : List Event) :
    Follows p m (r.played es) (t.after (waitOf element p m) es) := by
  induction es generalizing r t with
  | nil => exact h
  | cons e es ih => exact ih (h.step hp hpos e)

/-- A wait is no shorter than the period. -/
theorem le_limit (h : Follows p m r t) (hp : p ≤ greatestLong) : p ≤ r.limit :=
  h.limit ▸ le_waitOf hp (fun _ => element_pos) _

/-- A wait is no longer than the longest. -/
theorem limit_le (h : Follows p m r t) (hp : p ≤ greatestLong) (hm : p ≤ m) : r.limit ≤ m :=
  h.limit ▸ waitOf_le hp hm element_one _

/-- What is added for a tick, and multiplied where the sequence starts again, has room. -/
theorem room (h : Follows p m r t) (hp : p ≤ greatestLong) (hm : p ≤ m) (hm' : m ≤ greatestLong) :
    r.wait + 1 ≤ greatestLong ∧ (draw {}).1 * r.period ≤ greatestLong := by
  refine ⟨?_, ?_⟩
  · have := h.short
    have := h.counted
    have := h.limit_le hp hm
    omega
  · rw [draw_first, h.period, Nat.one_mul]
    exact hp

theorem answer (h : Follows p m r t) (e : Event) : e.answer r = e.due t := by
  cases e with
  | tick => rfl
  | ask | take => exact congrArg some h.standing

theorem answers (h : Follows p m r t) (hp : p ≤ greatestLong) (hpos : 0 < p) (es : List Event) :
    r.answers es = t.answers (waitOf element p m) es := by
  induction es generalizing r t with
  | nil => rfl
  | cons e es ih => rw [Reluctant.answers, Timetable.answers, h.answer e, ih (h.step hp hpos e)]

end Follows

/-! ## Any events -/

/-- **Reluctant doubling keeps its timetable.**  Whatever ticks, questions and takings there are, a signal is seen
exactly when the timetable has one, and the limit is its wait, or the next one while there is a signal.  Nothing that is
added or multiplied on the way exceeds 64 bits.  The timetable is that of the Luby sequence: for ever if a wait of
`2 ^ 63` periods is too long, and otherwise for the first `Luby.total` waits, which takes as many events at least.  After
these every wait is one period. -/
theorem played_timetable (hp : period < 2 ^ 64) (hm : longest < 2 ^ 64) (es : List Event) :
    let p := max period 1
    let m := max longest p
    let w := waitOf element p m
    let r := (start period longest).played es
    let t := ({} : Timetable).after w es
    (start period longest).answers es = ({} : Timetable).answers w es ∧ r.triggered = t.standing ∧
      r.limit = w t.raised ∧ p ≤ r.limit ∧ r.limit ≤ m ∧
      r.wait + 1 < 2 ^ 64 ∧ (draw {}).1 * r.period < 2 ^ 64 ∧
      (∀ k, w k = if m < min (2 ^ 63 * p) (2 ^ 64 - 1) ∨ k < Luby.total then waitOf ClauseLearning.luby p m k else p) ∧
      t.raised ≤ es.length ∧
      (m < min (2 ^ 63 * p) (2 ^ 64 - 1) ∨ t.raised < Luby.total →
        (start period longest).answers es = ({} : Timetable).answers (waitOf ClauseLearning.luby p m) es ∧
          t = ({} : Timetable).after (waitOf ClauseLearning.luby p m) es) := by
  intro p m w r t
  have hgreatest : greatestLong = 2 ^ 64 - 1 := rfl
  have hp' : p ≤ greatestLong := Nat.max_le.2 ⟨by omega, by decide⟩
  have hm' : m ≤ greatestLong := Nat.max_le.2 ⟨by omega, hp'⟩
  have hpos : 0 < p := Nat.le_max_right ..
  have hstart : Follows p m (start period longest) {} := .start (by omega) longest
  have h : Follows p m r t := hstart.played hp' hpos es
  have hanswers := hstart.answers hp' hpos es
  obtain ⟨hwait, hfirst⟩ := h.room hp' (Nat.le_max_right ..) hm'
  have hraised : t.raised ≤ 0 + es.length := (Timetable.raised_after w {} es).2
  refine ⟨hanswers, h.standing, h.limit, h.le_limit hp', h.limit_le hp' (Nat.le_max_right ..), by omega, by omega,
    fun k => ?_, by omega, fun hfew => ?_⟩
  · split
    next hk => exact waitOf_luby hk
    next hk => exact waitOf_beyond hp' hk
  · -- no wait is reached that is not of the sequence
    have hreached : ∀ k ≤ t.raised, w k = waitOf ClauseLearning.luby p m k := fun k hk =>
      waitOf_luby (hfew.imp_right (Nat.lt_of_le_of_lt hk))
    obtain ⟨hsame, hafter⟩ := Timetable.congr {} es hreached
    exact ⟨hanswers.trans hsame, hafter⟩

/-- Three signals, with two, two and four ticks; a tick while there is a signal does not count. -/
def threeSignals : List Event :=
  [.tick, .ask, .tick, .ask, .tick, .take, .tick, .tick, .take, .tick, .tick, .tick, .ask, .tick, .take]

/-- The third element of the sequence is two. -/
theorem played_timetable_threeSignals :
    ({} : Timetable).answers (waitOf ClauseLearning.luby 2 4) threeSignals =
        [none, some false, none, some true, none, some true, none, none, some true,
          none, none, none, some false, none, some true] ∧
      (({} : Timetable).after (waitOf element 2 4) (threeSignals.take 9)).raised = 2 ∧ waitOf element 2 4 2 = 4 := by
  obtain ⟨-, -, -, -, -, -, -, -, -, hanswers⟩ :=
    played_timetable (show 2 < 2 ^ 64 by decide) (show 4 < 2 ^ 64 by decide) threeSignals
  obtain ⟨-, -, hlimit, -⟩ :=
    played_timetable (show 2 < 2 ^ 64 by decide) (show 4 < 2 ^ 64 by decide) (threeSignals.take 9)
  have hraised : (({} : Timetable).after (waitOf element 2 4) (threeSignals.take 9)).raised = 2 := by decide +kernel
  have hfour : ((start 2 4).played (threeSignals.take 9)).limit = 4 := by decide
  replace hlimit : ((start 2 4).played (threeSignals.take 9)).limit =
    waitOf element 2 4 (({} : Timetable).after (waitOf element 2 4) (threeSignals.take 9)).raised := hlimit
  rw [hraised] at hlimit
  exact ⟨(hanswers (.inl (by decide))).1.symm.trans (by decide), hraised, hlimit.symm.trans hfour⟩

end Reluctant

end ClauseLearning

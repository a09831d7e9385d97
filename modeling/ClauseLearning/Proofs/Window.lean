import ClauseLearning.Recent
import Mathlib.Data.List.DropRight
import Mathlib.Data.List.Rotate

/-!
# Recent clauses are a sliding window

A ring of `n` places holds what was pushed last.  A clause that is removed leaves a hole, and no push fills it before its
turn.  So the places, the oldest first, are a window on all that was pushed since the ring was cleared, holes included.

* `Recent.Event`, `Recent.played` — what is done with a ring.
* `Recent.log`, `Recent.log_concat` — what has become of all that was pushed.
* `Recent.byAge`, `Recent.byAge_push` — the places by their age.
* `Recent.Slides`, `Recent.Slides.step` — one event moves ring and log alike.
* `Recent.played_window` — so do any events.
-/

namespace ClauseLearning

namespace Recent

/-! ## The log -/

/-- What is done with a ring. -/
inductive Event where
  /-- A clause is pushed. -/
  | push (r : Reference)
  /-- A clause is removed, as often as it was pushed. -/
  | remove (r : Reference)
  /-- The ring is cleared. -/
  | clear
deriving DecidableEq, Repr

/-- What an event does to the ring. -/
def Event.act (q : Recent) : Event → Recent
  | push r => q.push r
  | remove r => q.remove r
  | clear => q.clear

/-- The ring after some events. -/
def played (q : Recent) (es : List Event) : Recent := es.foldl Event.act q

/-- What has become of the pushes since the ring was last cleared, the first one first: the clause that was pushed, or
nothing if it was removed since. -/
def log : List Event → List (Option Reference)
  | [] => []
  | .push r :: later =>
    if .clear ∈ later then log later else (if .remove r ∈ later then none else some r) :: log later
  | .remove _ :: later | .clear :: later => log later

/-- What is left of a place if a clause is removed. -/
def vacate (r : Reference) (p : Option Reference) : Option Reference := if p = some r then none else p

@[simp] theorem vacate_none (r : Reference) : vacate r none = none := rfl

/-- What an event does to the log. -/
def Event.step (l : List (Option Reference)) : Event → List (Option Reference)
  | push r => l ++ [some r]
  | remove r => l.map (vacate r)
  | clear => []

/-- The log goes on event by event. -/
theorem log_concat (es : List Event) (e : Event) : log (es ++ [e]) = e.step (log es) := by
  induction es with
  | nil => cases e <;> rfl
  | cons f es ih =>
    cases f with
    | remove | clear => exact ih
    | push r =>
      -- the event comes later than the push, and so may clear or remove it
      rw [List.cons_append, log, log, ih]
      cases e with
      | push r' =>
        simp only [List.mem_append, List.mem_singleton, reduceCtorEq, or_false, Event.step]
        split <;> rfl
      | clear => simp [Event.step]
      | remove r' =>
        simp only [List.mem_append, List.mem_singleton, reduceCtorEq, or_false, Event.remove.injEq, Event.step]
        split
        next => rfl
        next =>
          rw [List.map_cons]
          congr 1
          by_cases hr : Event.remove r ∈ es
          · simp [hr]
          · simp [hr, vacate]

/-- What is done later changes entries of the log, but not their number unless the ring is cleared. -/
theorem log_append {later : List Event} (h : .clear ∉ later) (before : List Event) :
    ∃ l, l.length = (log before).length ∧ log (before ++ later) = l ++ log later := by
  induction before with
  | nil => exact ⟨[], rfl, rfl⟩
  | cons e before ih =>
    obtain ⟨l, hlen, heq⟩ := ih
    cases e with
    | remove | clear => exact ⟨l, hlen, heq⟩
    | push r =>
      simp only [List.cons_append, log, List.mem_append, h, or_false]
      split
      next => exact ⟨l, hlen, heq⟩
      next => exact ⟨_ :: l, congrArg Nat.succ hlen, by rw [heq, List.cons_append]⟩

/-- The entry of one push. -/
theorem log_push {r : Reference} {later : List Event} (h : .clear ∉ later) (before : List Event) :
    (log (before ++ .push r :: later)).length = (log before).length + ((log later).length + 1) ∧
      (log (before ++ .push r :: later))[(log before).length]? =
        some (if .remove r ∈ later then none else some r) := by
  obtain ⟨l, hlen, heq⟩ := log_append (show .clear ∉ Event.push r :: later by simpa using h) before
  rw [heq, log, if_neg h, ← hlen]
  simp

/-! ## The places by their age -/

variable {q : Recent} {l : List (Option Reference)} {n : Nat}

/-- The places, the one that is written next first. -/
def byAge (q : Recent) : List (Option Reference) := q.places.toList.rotate q.next

theorem rotate_set {α : Type} {xs : List α} {k : Nat} (h : k < xs.length) (x : α) :
    (xs.set k x).rotate (k + 1) = (xs.rotate k).tail ++ [x] := by
  obtain ⟨a, y, b, rfl, rfl⟩ : ∃ a y b, xs = a ++ y :: b ∧ a.length = k :=
    ⟨xs.take k, xs[k], xs.drop (k + 1), by simp, by rw [List.length_take]; omega⟩
  have hset : (a ++ y :: b).set a.length x = (a ++ [x]) ++ b := by simp
  have hlen : a.length + 1 = (a ++ [x]).length := by simp
  rw [hset, hlen, List.rotate_append_length_eq, List.rotate_append_length_eq, List.cons_append, List.tail_cons,
    List.append_assoc]

theorem push_eq (h : q.next < q.capacity) (r : Reference) :
    q.push r = { places := q.places.setIfInBounds q.next (some r), next := (q.next + 1) % q.capacity } := by
  have hne : ¬ q.places.isEmpty = true := fun he => by
    rw [capacity, Array.isEmpty_iff_size_eq_zero.1 he] at h
    exact Nat.not_lt_zero _ h
  exact if_neg hne

theorem push_of_capacity_eq_zero (h : q.capacity = 0) (r : Reference) : q.push r = q :=
  if_pos (Array.isEmpty_iff_size_eq_zero.2 h)

/-- The oldest place is the next one to be written, and then it is the youngest one. -/
theorem byAge_push (h : q.next < q.capacity) (r : Reference) : (q.push r).byAge = q.byAge.tail ++ [some r] := by
  have hlen : (q.places.toList.set q.next (some r)).length = q.capacity := by rw [List.length_set]; rfl
  rw [push_eq h, byAge, Array.toList_setIfInBounds, ← hlen, List.rotate_mod, rotate_set h, byAge]

/-- A hole stays where it is. -/
theorem byAge_remove (q : Recent) (r : Reference) : (q.remove r).byAge = q.byAge.map (vacate r) := by
  rw [byAge, byAge, List.map_rotate, remove, Array.toList_map]
  rfl

/-! ## One event -/

/-- The ring is a window of `n` places on a log.  Before the first push all places are empty. -/
structure Slides (n : Nat) (l : List (Option Reference)) (q : Recent) : Prop where
  /-- The count of places. -/
  capacity : q.capacity = n
  /-- The place that is written next. -/
  next : 0 < n → q.next = l.length % n
  /-- The places by their age. -/
  byAge : q.byAge = (List.replicate n none ++ l).drop l.length

namespace Slides

theorem start (n : Nat) : Slides n [] (ofCapacity n) where
  capacity := Array.size_replicate
  next _ := (Nat.zero_mod n).symm
  byAge := by simp [Recent.byAge, ofCapacity]

/-- One event moves ring and log alike. -/
theorem step (h : Slides n l q) (e : Event) : Slides n (e.step l) (e.act q) := by
  obtain ⟨hcap, hnext, hage⟩ := h
  cases e with
  | clear =>
    rw [Event.act, Event.step, clear_eq, hcap]
    exact start n
  | remove r =>
    refine ⟨?_, fun hn => ?_, ?_⟩
    · rw [← hcap]
      exact Array.size_map
    · rw [Event.step, List.length_map]
      exact hnext hn
    · rw [Event.act, Event.step, byAge_remove, hage]
      simp
  | push r =>
    rcases Nat.eq_zero_or_pos n with rfl | hn
    · rw [Event.act, push_of_capacity_eq_zero hcap]
      exact ⟨hcap, fun hn => absurd hn (Nat.lt_irrefl 0), by rw [hage]; simp⟩
    · have hlt : q.next < q.capacity := by
        rw [hnext hn, hcap]
        exact Nat.mod_lt _ hn
      refine ⟨?_, fun _ => ?_, ?_⟩
      · rw [Event.act, push_eq hlt, Recent.capacity, Array.size_setIfInBounds]
        exact hcap
      · rw [Event.act, push_eq hlt, Event.step, List.length_append, List.length_singleton, hnext hn, hcap,
          Nat.mod_add_mod]
      · have hle : l.length + 1 ≤ (List.replicate n none ++ l).length := by
          rw [List.length_append, List.length_replicate]
          omega
        rw [Event.act, byAge_push hlt, hage, List.tail_drop, Event.step, List.length_append, List.length_singleton,
          ← List.append_assoc, List.drop_append_of_le_length hle]

theorem played (n : Nat) (es : List Event) : Slides n (log es) ((ofCapacity n).played es) := by
  induction es using List.reverseRecOn with
  | nil => exact start n
  | append_singleton es e ih =>
    rw [log_concat, Recent.played, List.foldl_append]
    exact ih.step e

/-- What is listed is what is left of the last pushes. -/
theorem toList_perm (h : Slides n l q) : q.toList.Perm ((l.rtake n).filterMap id) := by
  have hage : q.byAge.filterMap id = (l.rtake n).filterMap id := by
    rw [h.byAge, List.drop_append, List.length_replicate, List.filterMap_append, List.drop_replicate,
      List.filterMap_replicate_of_none rfl, List.nil_append, List.rtake]
  rw [← hage]
  exact ((List.rotate_perm _ _).filterMap id).symm

/-- A place is that of the pushes whose number has its remainder, and holds what is left of the last one of them. -/
theorem places_mod (h : Slides n l q) {i : Nat} (hi : l.length ≤ i) (hn : i < l.length + n) :
    q.places[i % n]? = (List.replicate n none ++ l)[i]? := by
  have hlen : q.places.toList.length = n := h.capacity
  -- a place is as old as it is far from the next one to be written
  have hplace : (i - l.length + q.next) % n = i % n := by
    rw [h.next (by omega), Nat.add_mod_mod, Nat.sub_add_cancel hi]
  calc q.places[i % n]? = q.byAge[i - l.length]? := by
        rw [Recent.byAge, List.getElem?_rotate (by omega), hlen, hplace, Array.getElem?_toList]
    _ = (List.replicate n none ++ l)[i]? := by
        rw [h.byAge, List.getElem?_drop, Nat.add_sub_cancel' hi]

/-- What was pushed stays at one place until as many clauses as there are places were pushed after it. -/
theorem places_of_pushed (h : Slides n l q) {i : Nat} (hi : i < l.length) (hn : l.length ≤ i + n) :
    q.places[i % n]? = l[i]? := by
  rw [← Nat.add_mod_right, h.places_mod hn (by omega), List.getElem?_append_right (by simp), List.length_replicate,
    Nat.add_sub_cancel]

/-- A place to which nothing was pushed is empty. -/
theorem places_of_not_pushed (h : Slides n l q) {i : Nat} (hi : l.length ≤ i) (hn : i < n) :
    q.places[i]? = some none := by
  have := h.places_mod hi (by omega)
  rwa [Nat.mod_eq_of_lt hn, List.getElem?_append_left (by simpa using hn), List.getElem?_replicate_of_lt hn] at this

end Slides

/-! ## Any events -/

/-- A clause that is removed leaves a hole, and all other places as they are. -/
theorem places_remove {r' : Reference} (q : Recent) (r : Reference) (i : Nat) :
    (q.remove r).places[i]? = some (some r') ↔ q.places[i]? = some (some r') ∧ r' ≠ r := by
  rw [remove, Array.getElem?_map, Option.map_eq_some_iff]
  constructor
  · rintro ⟨p, hp, hr⟩
    split at hr
    next => exact absurd hr (by simp)
    next hne => exact ⟨hr ▸ hp, fun he => hne (by rw [hr, he])⟩
  · rintro ⟨hp, hne⟩
    exact ⟨some r', hp, if_neg fun he => hne (Option.some.inj he)⟩

/-- **Recent clauses are a sliding window.**  Whatever is pushed, removed and cleared, a ring of `n` places lists what is
left of the last `n` pushes since it was cleared, once for each push.  A push has a place of its own until the ring is
cleared or `n` more clauses are pushed, and all that is done to it in the meantime is that its clause may be removed; a
place to which nothing was pushed is empty.  Removing a clause empties the places where it is and no others, and a ring
that is cleared is as it was at first.  A ring without places lists nothing. -/
theorem played_window (n : Nat) (es : List Event) :
    let q := (ofCapacity n).played es
    q.toList.Perm (((log es).rtake n).filterMap id) ∧
      (∀ before r later, es = before ++ .push r :: later → .clear ∉ later → (log later).length < n →
        q.places[(log before).length % n]? = some (if .remove r ∈ later then none else some r)) ∧
      (∀ i < n, (log es).length ≤ i → q.places[i]? = some none) ∧
      q.capacity = n ∧
      (∀ r r' (i : Nat), (q.remove r).places[i]? = some (some r') ↔ q.places[i]? = some (some r') ∧ r' ≠ r) ∧
      q.clear = ofCapacity n ∧
      ((ofCapacity 0).played es).toList = [] := by
  intro q
  have h : Slides n (log es) q := .played n es
  have hzero : ((ofCapacity 0).played es).toList.Perm [] := by
    have := (Slides.played 0 es).toList_perm
    rwa [List.rtake_zero] at this
  have hpushed : ∀ before r later, es = before ++ .push r :: later → .clear ∉ later → (log later).length < n →
      q.places[(log before).length % n]? = some (if .remove r ∈ later then none else some r) := by
    rintro before r later rfl hclear hlater
    obtain ⟨hlen, hentry⟩ := log_push (r := r) hclear before
    rw [h.places_of_pushed (by omega) (by omega), hentry]
  exact ⟨h.toList_perm, hpushed, fun i hi hl => h.places_of_not_pushed hl hi, h.capacity,
    fun r r' i => places_remove q r i, h.capacity ▸ clear_eq q, hzero.eq_nil⟩

/-- A hole is not filled out of turn. -/
example : ((ofCapacity 2).played [.push ⟨0, 0⟩, .push ⟨7, 0⟩, .remove ⟨7, 0⟩, .push ⟨14, 0⟩]).places =
    #[some ⟨14, 0⟩, none] := by decide +kernel

end Recent

end ClauseLearning

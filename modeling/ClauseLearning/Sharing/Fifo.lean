/-!
# First in, first out

A queue of two lists: elements are pushed onto one and popped off the other, which is refilled from
the first when it is empty.

* `Fifo.push`, `Fifo.pop?` — the two ends, with `toList_push` and `toList_of_pop?`.
* `Fifo.take` — the same as `Fifo.pop?`, on a queue which may be empty, with `toList_take` and `take_of_toList`.
* `Fifo.toList` — the elements, the one that was pushed first in front.
-/

namespace ClauseLearning

/-- A queue of elements. -/
structure Fifo (α : Type) where
  /-- The elements to be popped next, in order. -/
  front : List α := []
  /-- The elements pushed last, the last one first. -/
  back : List α := []
deriving DecidableEq, Repr, Inhabited

namespace Fifo

variable {α : Type}

/-- The elements, the one that was pushed first in front. -/
def toList (q : Fifo α) : List α := q.front ++ q.back.reverse

/-- Adds an element. -/
def push (q : Fifo α) (a : α) : Fifo α := { q with back := a :: q.back }

/-- Adds elements, one after another. -/
def pushAll (q : Fifo α) (as : List α) : Fifo α := as.foldl push q

/-- Takes the element that was pushed first. -/
def pop? (q : Fifo α) : Option (α × Fifo α) :=
  match q.front with
  | a :: front => some (a, { q with front })
  | [] =>
    match q.back.reverse with
    | a :: front => some (a, { front, back := [] })
    | [] => none

/-- The count of elements. -/
def size (q : Fifo α) : Nat := q.front.length + q.back.length

@[simp] theorem length_toList (q : Fifo α) : q.toList.length = q.size := by
  simp [toList, size]

@[simp] theorem toList_empty : ({} : Fifo α).toList = [] := rfl

@[simp] theorem toList_push (q : Fifo α) (a : α) : (q.push a).toList = q.toList ++ [a] := by
  simp [toList, push]

theorem pop?_eq_none_iff {q : Fifo α} : q.pop? = none ↔ q.toList = [] := by
  obtain ⟨front, back⟩ := q
  cases front with
  | cons a front => simp [pop?, toList]
  | nil =>
    simp only [pop?, toList, List.nil_append]
    cases back.reverse <;> simp

theorem toList_of_pop? {q q' : Fifo α} {a : α} (h : q.pop? = some (a, q')) :
    q.toList = a :: q'.toList := by
  obtain ⟨front, back⟩ := q
  cases front with
  | cons b front =>
    simp only [pop?, Option.some.injEq, Prod.mk.injEq] at h
    obtain ⟨rfl, rfl⟩ := h
    simp [toList]
  | nil =>
    simp only [pop?] at h
    simp only [toList, List.nil_append]
    cases hb : back.reverse with
    | nil => simp [hb] at h
    | cons b front =>
      simp only [hb, Option.some.injEq, Prod.mk.injEq] at h
      obtain ⟨rfl, rfl⟩ := h
      simp

theorem size_lt_of_pop? {q q' : Fifo α} {a : α} (h : q.pop? = some (a, q')) : q'.size < q.size := by
  have := congrArg List.length (toList_of_pop? h)
  simp only [List.length_cons, length_toList] at this
  omega

/-- Takes the element that was pushed first, if there is one. -/
def take (q : Fifo α) : Option α × Fifo α :=
  match q.pop? with
  | some (a, q) => (some a, q)
  | none => (none, q)

/-- What is taken was first. -/
theorem toList_take {q : Fifo α} {a : α} (h : q.take.1 = some a) : q.toList = a :: q.take.2.toList := by
  unfold take at h ⊢
  split
  · next hp =>
    rw [hp] at h
    obtain rfl := Option.some.inj h
    exact toList_of_pop? hp
  · next hp =>
    rw [hp] at h
    cases h

/-- The queue without elements. -/
theorem eq_empty {q : Fifo α} (h : q.toList = []) : q = {} := by
  obtain ⟨front, back⟩ := q
  obtain ⟨hfront, hback⟩ := List.append_eq_nil_iff.1 h
  obtain rfl : front = [] := hfront
  obtain rfl : back = [] := List.reverse_eq_nil_iff.1 hback
  rfl

/-- What was first is taken. -/
theorem take_of_toList {q : Fifo α} {a : α} {as : List α} (h : q.toList = a :: as) :
    q.take.1 = some a ∧ q.take.2.toList = as := by
  unfold take
  cases hp : q.pop? with
  | none =>
    rw [pop?_eq_none_iff.1 hp] at h
    cases h
  | some r =>
    obtain ⟨b, q'⟩ := r
    rw [toList_of_pop? hp] at h
    obtain ⟨rfl, rfl⟩ := List.cons.inj h
    exact ⟨rfl, rfl⟩

theorem size_take_lt {q : Fifo α} {a : α} (h : q.take.1 = some a) : q.take.2.size < q.size := by
  unfold take at h ⊢
  split at h
  · next hp => exact size_lt_of_pop? hp
  · simp at h

end Fifo

end ClauseLearning

import ClauseLearning.Store.Reference

/-!
# Recent clauses

The last few clauses that were learnt, in a ring of places.  A clause is written over the one that
was pushed a full round earlier.  Removing a clause leaves its place empty until its turn comes.

* `Recent` — the ring.
* `Recent.push`, `Recent.remove`, `Recent.clear` — its changes.
* `Recent.toList` — the clauses, in the order of their places, with `mem_of_push`, `mem_remove`, `toList_clear`.
-/

namespace ClauseLearning

/-- A ring of places for clauses. -/
structure Recent where
  /-- The places. -/
  places : Array (Option Reference) := #[]
  /-- The place to be written next. -/
  next : Nat := 0
deriving DecidableEq, Repr, Inhabited

namespace Recent

/-- An empty ring of `n` places. -/
def ofCapacity (n : Nat) : Recent := { places := Array.replicate n none }

/-- The count of places. -/
def capacity (q : Recent) : Nat := q.places.size

/-- Writes a clause at the next place.  A ring without places stays as it is. -/
def push (q : Recent) (r : Reference) : Recent :=
  if q.places.isEmpty then q
  else
    { places := q.places.setIfInBounds q.next (some r)
      next := (q.next + 1) % q.places.size }

/-- The clauses, in the order of their places. -/
def toList (q : Recent) : List Reference := q.places.toList.filterMap id

/-- Empties every place that holds a clause. -/
def remove (q : Recent) (r : Reference) : Recent :=
  { q with places := q.places.map fun p => if p = some r then none else p }

/-- Empties every place, and starts at the first one again. -/
def clear (q : Recent) : Recent := { places := q.places.map fun _ => none, next := 0 }

theorem mem_toList {q : Recent} {r : Reference} : r ∈ q.toList ↔ some r ∈ q.places := by
  simp [toList]

theorem mem_of_push {q : Recent} {r r' : Reference} (h : r' ∈ (q.push r).toList) : r' = r ∨ r' ∈ q.toList := by
  unfold push at h
  split at h
  · exact .inr h
  · rw [mem_toList, ← Array.mem_toList_iff, Array.toList_setIfInBounds] at h
    rcases List.mem_or_eq_of_mem_set h with hm | he
    · exact .inr (mem_toList.2 (Array.mem_toList_iff.1 hm))
    · exact .inl (Option.some.inj he)

theorem mem_remove {q : Recent} {r r' : Reference} : r' ∈ (q.remove r).toList ↔ r' ∈ q.toList ∧ r' ≠ r := by
  rw [mem_toList, mem_toList, remove, Array.mem_map]
  constructor
  · rintro ⟨p, hp, he⟩
    split at he
    · simp at he
    · next hne => exact ⟨he ▸ hp, fun heq => hne (by rw [he, heq])⟩
  · rintro ⟨hp, hne⟩
    exact ⟨some r', hp, if_neg fun he => hne (Option.some.inj he)⟩

/-- A ring that is cleared is as it was at first. -/
theorem clear_eq (q : Recent) : q.clear = ofCapacity q.capacity := by
  rw [clear, ofCapacity, capacity, Array.map_const']

theorem toList_ofCapacity (n : Nat) : (ofCapacity n).toList = [] := by
  simp [toList, ofCapacity]

theorem toList_clear (q : Recent) : q.clear.toList = [] := by
  rw [clear_eq, toList_ofCapacity]

end Recent

end ClauseLearning

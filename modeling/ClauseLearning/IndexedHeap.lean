/-!
# Heaps of indices

A maximum heap whose elements are indices into a table of values.  Every index below the size of
the table has a value, and any subset of the indices may be on the heap.  An index keeps its value
when it leaves.  The table of slots is the inverse of the heap: it says where on the heap an index
is, so that an index can be found, moved and removed without a search.

* `IndexedHeap` — the table, the heap and its inverse.
* `IndexedHeap.insert`, `IndexedHeap.erase`, `IndexedHeap.popMax` — membership.
* `IndexedHeap.setValue` — a new value for one index, on the heap or not.
* `IndexedHeap.mapValues`, `IndexedHeap.heapify` — new values for all indices, and the order of the
  heap restored after it.
* `IndexedHeap.drain` — the indices on the heap, popped one by one.
-/

namespace ClauseLearning

/-- A maximum heap of indices by their values. -/
structure IndexedHeap (α : Type) where
  /-- The value of each index. -/
  values : Array α := #[]
  /-- The place of each index on the heap, if it is there. -/
  slots : Array (Option Nat) := #[]
  /-- The indices on the heap.  The children of the place `i` are `2 * i + 1` and `2 * i + 2`. -/
  heap : Array Nat := #[]
deriving Repr, Inhabited

namespace IndexedHeap

variable {α : Type}

/-- The count of indices with a value. -/
def count (h : IndexedHeap α) : Nat := h.values.size

/-- The count of indices on the heap. -/
def size (h : IndexedHeap α) : Nat := h.heap.size

/-- Whether no index is on the heap. -/
def isEmpty (h : IndexedHeap α) : Bool := h.heap.isEmpty

/-- The place of an index on the heap. -/
def slot? (h : IndexedHeap α) (i : Nat) : Option Nat := h.slots.getD i none

/-- Whether an index is on the heap. -/
def contains (h : IndexedHeap α) (i : Nat) : Bool := (h.slot? i).isSome

/-- Gives every index below `n` a value, `fill` for those that had none. -/
def growTo (h : IndexedHeap α) (n : Nat) (fill : α) : IndexedHeap α :=
  { h with
    values := h.values ++ Array.replicate (n - h.values.size) fill
    slots := h.slots ++ Array.replicate (n - h.values.size) none }

/-- Exchanges two places of the heap. -/
def swap (h : IndexedHeap α) (a b : Nat) : IndexedHeap α :=
  let heap := h.heap.swapIfInBounds a b
  let slots := (h.slots.setIfInBounds (heap.getD a 0) (some a)).setIfInBounds (heap.getD b 0) (some b)
  { h with heap := heap, slots := slots }

@[simp] theorem size_swap (h : IndexedHeap α) (a b : Nat) : (h.swap a b).size = h.size := by
  simp [swap, size]

section Order

variable [Inhabited α] [LT α] [DecidableLT α]

/-- The value of an index. -/
def value (h : IndexedHeap α) (i : Nat) : α := h.values.getD i default

/-- The value at a place of the heap. -/
def valueAt (h : IndexedHeap α) (place : Nat) : α := h.value (h.heap.getD place 0)

/-- The child of a place with the greater value, the left one of two equals. -/
def greaterChild (h : IndexedHeap α) (place : Nat) : Nat :=
  let left := 2 * place + 1
  if left + 1 < h.size then
    if h.valueAt left < h.valueAt (left + 1) then left + 1 else left
  else left

theorem lt_greaterChild (h : IndexedHeap α) (place : Nat) : place < h.greaterChild place := by
  simp only [greaterChild]
  split
  · split <;> omega
  · omega

/-- Moves the element at a place down, below every child that is greater. -/
def siftDown (h : IndexedHeap α) (place : Nat) : IndexedHeap α :=
  if 2 * place + 1 < h.size then
    let child := h.greaterChild place
    if h.valueAt place < h.valueAt child then (h.swap place child).siftDown child else h
  else h
termination_by h.size - place
decreasing_by
  have := h.lt_greaterChild place
  simp only [size_swap]
  omega

/-- Moves the element at a place up, above every parent that is smaller. -/
def siftUp (h : IndexedHeap α) (place : Nat) : IndexedHeap α :=
  if 0 < place then
    let parent := (place - 1) / 2
    if h.valueAt parent < h.valueAt place then (h.swap place parent).siftUp parent else h
  else h
termination_by place

/-- Puts an index on the heap, unless it is there already. -/
def insert (h : IndexedHeap α) (i : Nat) : IndexedHeap α :=
  if h.contains i then h
  else
    let place := h.size
    { h with heap := h.heap.push i, slots := h.slots.setIfInBounds i (some place) }.siftUp place

/-- Takes the index at the last place off the heap. -/
def dropLast (h : IndexedHeap α) (i : Nat) : IndexedHeap α :=
  { h with heap := h.heap.pop, slots := h.slots.setIfInBounds i none }

/-- Moves the element at a place to where it belongs, if there is one. -/
def settle (h : IndexedHeap α) (place : Nat) : IndexedHeap α :=
  if place < h.size then (h.siftDown place).siftUp place else h

/-- Takes an index off the heap, if it is there.  The last element fills the place that it leaves and
is moved to where it belongs. -/
def erase (h : IndexedHeap α) (i : Nat) : IndexedHeap α :=
  match h.slot? i with
  | none => h
  | some place => ((h.swap place (h.size - 1)).dropLast i).settle place

/-- The index on the heap with the greatest value. -/
def max? (h : IndexedHeap α) : Option Nat := h.heap[0]?

/-- Takes the index with the greatest value off the heap. -/
def popMax (h : IndexedHeap α) : Option Nat × IndexedHeap α :=
  match h.max? with
  | none => (none, h)
  | some i => (some i, h.erase i)

/-- Gives an index a value, and moves it on the heap to where it then belongs. -/
def setValue (h : IndexedHeap α) (i : Nat) (v : α) : IndexedHeap α :=
  let h := { h with values := h.values.setIfInBounds i v }
  match h.slot? i with
  | none => h
  | some place => (h.siftUp place).siftDown place

/-- Applies a function to every value.  The heap is left as it is, which is right for a function that
keeps the order. -/
def mapValues (h : IndexedHeap α) (f : α → α) : IndexedHeap α :=
  { h with values := h.values.map f }

/-- Sifts down the elements at the places below `n`, the last one first. -/
def heapifyBelow (h : IndexedHeap α) : Nat → IndexedHeap α
  | 0 => h
  | n + 1 => (h.siftDown n).heapifyBelow n

/-- Restores the order of the heap, whatever the values are. -/
def heapify (h : IndexedHeap α) : IndexedHeap α := h.heapifyBelow (h.size / 2)

/-- Pops at most `n` indices. -/
def popMany (h : IndexedHeap α) : Nat → List Nat × IndexedHeap α
  | 0 => ([], h)
  | n + 1 =>
    match h.popMax with
    | (none, h) => ([], h)
    | (some i, h) =>
      let (rest, h) := h.popMany n
      (i :: rest, h)

/-- Pops every index, one with the greatest value first. -/
def drain (h : IndexedHeap α) : List Nat × IndexedHeap α := h.popMany h.size

end Order

end IndexedHeap

end ClauseLearning

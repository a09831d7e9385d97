import ClauseLearning.Proofs.Order.HeapOrder

/-!
# A heap refines a set of indices with values

To whoever uses a heap of indices it is a table of values and a set of indices, and the one of greatest value can be
taken out of the set.  Nothing in the table depends on the set, and nothing but insertion and removal changes the set.

When all values change at once the order may be lost.  Everything but the order is as it should be even then, whatever
is done, and the order is back after the next `IndexedHeap.heapify`.

* `IndexedHeap.Listing`, `IndexedHeap.Event` — the table and the set, and what is done.
* `IndexedHeap.Follows`, `IndexedHeap.Follows.step` — one change keeps heap and listing together.
* `IndexedHeap.played_listing` — so do any changes, and what is seen of the heap is what the listing says.
-/

namespace ClauseLearning

namespace IndexedHeap

variable {α : Type} [Inhabited α] [LinearOrder α]

/-- Indices with values, of which some are on a heap. -/
structure Listing (α : Type) where
  /-- The value of each index. -/
  values : Array α := #[]
  /-- The indices that were put on the heap, and have not left it since. -/
  on : List Nat := []
  /-- No values changed at once since the heap was last put in order, unless they kept their order. -/
  inOrder : Prop := True

/-- The value of an index. -/
def Listing.value (l : Listing α) (i : Nat) : α := l.values.getD i default

/-- What is done with a heap. -/
inductive Event (α : Type) where
  /-- There are more indices. -/
  | growTo (n : Nat) (fill : α)
  /-- An index is put on the heap. -/
  | insert (i : Nat)
  /-- An index is taken off the heap. -/
  | erase (i : Nat)
  /-- The index with the greatest value is taken off the heap. -/
  | popMax
  /-- An index gets a value. -/
  | setValue (i : Nat) (x : α)
  /-- All values change. -/
  | mapValues (f : α → α)
  /-- The heap is put in order. -/
  | heapify

/-- What an event does to the heap. -/
def Event.act (h : IndexedHeap α) : Event α → IndexedHeap α
  | growTo n fill => h.growTo n fill
  | insert i => h.insert i
  | erase i => h.erase i
  | popMax => h.popMax.2
  | setValue i x => h.setValue i x
  | mapValues f => h.mapValues f
  | heapify => h.heapify

/-- What an event does to the listing, where `top` is what the heap gives if it is popped. -/
def Event.step (l : Listing α) (top : Option Nat) : Event α → Listing α
  | growTo n fill => { l with values := l.values ++ Array.replicate (n - l.values.size) fill }
  | insert i => { l with on := l.on.insert i }
  | erase i => { l with on := l.on.filter (· ≠ i) }
  | popMax => { l with on := l.on.filter fun i => some i ≠ top }
  | setValue i x => { l with values := l.values.setIfInBounds i x }
  | mapValues f => { l with values := l.values.map f, inOrder := l.inOrder ∧ Monotone f }
  | heapify => { l with inOrder := True }

/-- How many indices have a value after an event, if `count` have one before. -/
def Event.count (count : Nat) : Event α → Nat
  | growTo n _ => max count n
  | _ => count

/-- What is put on the heap has a value. -/
def Event.Fits (count : Nat) : Event α → Prop
  | insert i => i < count
  | _ => True

/-- Only indices that have a value are put on the heap. -/
def Fits (count : Nat) : List (Event α) → Prop
  | [] => True
  | e :: es => e.Fits count ∧ Fits (e.count count) es

/-- The heap and the listing after some events. -/
def played (h : IndexedHeap α) (l : Listing α) : List (Event α) → IndexedHeap α × Listing α
  | [] => (h, l)
  | e :: es => (e.act h).played (e.step l h.popMax.1) es

variable {h : IndexedHeap α} {l : Listing α} {i j : Nat}

/-! ## One event -/

/-- Heap and listing go together. -/
structure Follows (h : IndexedHeap α) (l : Listing α) : Prop where
  /-- The table of slots is inverse to the heap. -/
  valid : h.Valid
  /-- Every index has the value that is listed. -/
  values : h.values = l.values
  /-- The indices on the heap are those that are listed. -/
  contains : ∀ i, h.contains i = true ↔ i ∈ l.on
  /-- The heap is in order. -/
  ordered : l.inOrder → h.Ordered

theorem popMax_fst (h : IndexedHeap α) : h.popMax.1 = h.max? := by
  unfold popMax
  split <;> simp_all

theorem popMax_none (hm : h.max? = none) : h.popMax.2 = h := by
  rw [popMax, hm]

theorem popMax_some (hm : h.max? = some i) : h.popMax.2 = h.erase i := by
  rw [popMax, hm]

namespace Follows

theorem empty : Follows ({} : IndexedHeap α) {} where
  valid := valid_empty
  values := rfl
  contains i := by simp [IndexedHeap.contains, slot?]
  ordered _ := ordered_empty

theorem growTo (hf : Follows h l) (n : Nat) (x : α) (top : Option Nat) :
    Follows (h.growTo n x) (Event.step l top (.growTo n x)) where
  valid := (valid_growTo hf.valid n x).1
  values := by simp only [IndexedHeap.growTo, Event.step, hf.values]
  contains i := by
    rw [(valid_growTo hf.valid n x).2.2]
    exact hf.contains i
  ordered hl := (hf.ordered hl).growTo hf.valid n x

theorem insert (hf : Follows h l) (hi : i < l.values.size) (top : Option Nat) :
    Follows (h.insert i) (Event.step l top (.insert i)) := by
  obtain ⟨hvalid, hvalues, hcontains⟩ := valid_insert hf.valid (i := i) (hf.values ▸ hi)
  refine ⟨hvalid, hvalues.trans hf.values, fun j => ?_, fun hl => (hf.ordered hl).insert i⟩
  rw [hcontains, hf.contains]
  exact List.mem_insert_iff.symm

theorem erase (hf : Follows h l) (i : Nat) (top : Option Nat) :
    Follows (h.erase i) (Event.step l top (.erase i)) := by
  obtain ⟨hvalid, hvalues, hcontains, -⟩ := valid_erase hf.valid i
  refine ⟨hvalid, hvalues.trans hf.values, fun j => ?_, fun hl => (hf.ordered hl).erase hf.valid i⟩
  rw [hcontains, hf.contains]
  simp only [Event.step, List.mem_filter, decide_eq_true_eq, and_comm]

/-- What is popped is erased. -/
theorem popMax (hf : Follows h l) : Follows h.popMax.2 (Event.step l h.popMax.1 .popMax) := by
  rw [popMax_fst]
  cases hm : h.max? with
  | none =>
    rw [popMax_none hm]
    refine ⟨hf.valid, hf.values, fun j => ?_, hf.ordered⟩
    simp [Event.step, hf.contains]
  | some i =>
    rw [popMax_some hm]
    obtain ⟨hvalid, hvalues, hcontains, hordered⟩ := hf.erase i none
    refine ⟨hvalid, hvalues, fun j => (hcontains j).trans ?_, hordered⟩
    simp [Event.step]

theorem setValue (hf : Follows h l) (i : Nat) (x : α) (top : Option Nat) :
    Follows (h.setValue i x) (Event.step l top (.setValue i x)) := by
  obtain ⟨hvalid, hvalues, hcontains⟩ := valid_setValue hf.valid i x
  exact ⟨hvalid, hvalues.trans (congrArg (·.setIfInBounds i x) hf.values),
    fun j => (Bool.eq_iff_iff.1 (hcontains j)).trans (hf.contains j), fun hl => (hf.ordered hl).setValue hf.valid i x⟩

theorem mapValues (hf : Follows h l) (f : α → α) (top : Option Nat) :
    Follows (h.mapValues f) (Event.step l top (.mapValues f)) :=
  ⟨valid_mapValues hf.valid f, congrArg (·.map f) hf.values, hf.contains,
    fun hl => (hf.ordered hl.1).mapValues hf.valid hl.2⟩

theorem heapify (hf : Follows h l) (top : Option Nat) : Follows h.heapify (Event.step l top .heapify) := by
  have hr := reordered_heapifyBelow hf.valid (h.size / 2)
  exact ⟨hr.valid, hr.values.trans hf.values, fun j => (Bool.eq_iff_iff.1 (hr.contains j)).trans (hf.contains j),
    fun _ => ordered_heapify h⟩

end Follows

omit [Inhabited α] in
theorem Event.size_step (l : Listing α) (top : Option Nat) (e : Event α) :
    (e.step l top).values.size = e.count l.values.size := by
  cases e with
  | growTo n fill =>
    simp only [Event.step, Event.count, Array.size_append, Array.size_replicate]
    omega
  | setValue i x => exact Array.size_setIfInBounds
  | mapValues f => exact Array.size_map
  | _ => rfl

/-- Every event keeps heap and listing together. -/
theorem Follows.step (hf : Follows h l) (e : Event α) (he : e.Fits l.values.size) :
    Follows (e.act h) (e.step l h.popMax.1) := by
  cases e with
  | growTo n fill => exact hf.growTo n fill _
  | insert i => exact hf.insert he _
  | erase i => exact hf.erase i _
  | popMax => exact hf.popMax
  | setValue i x => exact hf.setValue i x _
  | mapValues f => exact hf.mapValues f _
  | heapify => exact hf.heapify _

/-- So do any events. -/
theorem Follows.played (hf : Follows h l) {es : List (Event α)} (hes : Fits l.values.size es) :
    Follows (h.played l es).1 (h.played l es).2 := by
  induction es generalizing h l with
  | nil => exact hf
  | cons e es ih => exact ih (hf.step e hes.1) (e.size_step l _ ▸ hes.2)

/-! ## What is seen -/

/-- What is seen of a heap is what a listing says. -/
structure Refines (h : IndexedHeap α) (l : Listing α) : Prop where
  /-- The slot of an index is the place where it is on the heap. -/
  inverse : ∀ i place, h.slot? i = some place ↔ h.heap[place]? = some i
  /-- No index is on the heap twice. -/
  nodup : h.heap.toList.Nodup
  /-- The indices on the heap are those that were put there and have not left. -/
  contains : ∀ i, h.contains i = true ↔ i ∈ l.on
  /-- Every index has the value that was written last, whether it is on the heap or not. -/
  values : ∀ i, h.value i = l.value i
  /-- As many indices have a value. -/
  count : h.count = l.values.size
  /-- No place has a smaller value than a child of it. -/
  ordered : l.inOrder → ∀ place, 0 < place → place < h.size → h.valueAt place ≤ h.valueAt ((place - 1) / 2)
  /-- What is popped is what would be seen first. -/
  peeked : h.popMax.1 = h.max?
  /-- What is popped is on the heap, and nothing there has a greater value. -/
  popped : l.inOrder → ∀ i, h.popMax.1 = some i → i ∈ l.on ∧ ∀ j ∈ l.on, l.value j ≤ l.value i
  /-- Nothing is popped if nothing is on the heap, and only then. -/
  exhausted : h.popMax.1 = none ↔ l.on = []
  /-- What is drained is what is on the heap, each index once, and values do not increase. -/
  drained : l.inOrder → h.drain.1.Nodup ∧ (∀ i, i ∈ h.drain.1 ↔ i ∈ l.on) ∧
    h.drain.1.Pairwise fun i j => l.value j ≤ l.value i
  /-- Nothing is on the heap after that. -/
  emptied : l.inOrder → h.drain.2.isEmpty = true

theorem Follows.refines (hf : Follows h l) : Refines h l where
  inverse := hf.valid.inverse
  nodup := hf.valid.nodup
  contains := hf.contains
  values i := by rw [value, hf.values, Listing.value]
  count := congrArg Array.size hf.values
  ordered hl place hpos hlt := hf.ordered hl place hpos hlt (Nat.zero_le _)
  peeked := popMax_fst h
  popped hl i hi := by
    obtain ⟨hin, hmax⟩ := (hf.ordered hl).max_spec hf.valid (popMax_fst h ▸ hi)
    refine ⟨(hf.contains i).1 hin, fun j hj => ?_⟩
    have hle := hmax j ((hf.contains j).2 hj)
    rwa [value, value, hf.values] at hle
  exhausted := by
    rw [popMax_fst, max?_eq_none_iff hf.valid, List.eq_nil_iff_forall_not_mem]
    exact forall_congr' fun j => by rw [← hf.contains, Bool.not_eq_true]
  drained hl := by
    obtain ⟨hdrained, -⟩ := IndexedHeap.drained hf.valid (hf.ordered hl)
    refine ⟨hdrained.nodup, fun i => (hdrained.mem i).trans (hf.contains i), hdrained.sorted.imp fun hle => ?_⟩
    rwa [value, value, hf.values] at hle
  emptied hl := by
    have hsize := (IndexedHeap.drained hf.valid (hf.ordered hl)).2
    exact Array.isEmpty_iff.2 (Array.eq_empty_of_size_eq_zero hsize)

/-- After any events, what is seen of a heap is what the listing says. -/
theorem played_listing {es : List (Event α)} (h : Fits 0 es) :
    Refines (played ({} : IndexedHeap α) {} es).1 (played ({} : IndexedHeap α) {} es).2 :=
  (Follows.empty.played h).refines

/-- Numbers that are the values of indices.  Indices are put on the heap, changed there and off it, removed from the
middle, and popped; values are halved, which keeps their order, and then turned around, which does not. -/
def handling : List (Event Nat) :=
  [.growTo 6 0, .setValue 0 40, .setValue 1 10, .setValue 2 30, .setValue 3 20, .setValue 4 50, .insert 0, .insert 1,
    .insert 2, .insert 3, .insert 4, .insert 2, .popMax, .setValue 1 60, .erase 0, .setValue 0 35, .mapValues (· / 2),
    .insert 5, .growTo 7 21, .insert 6, .mapValues (30 - ·), .erase 3, .heapify]

theorem played_listing_handling :
    Fits 0 handling ∧ Refines (played ({} : IndexedHeap Nat) {} handling).1 (played {} {} handling).2 ∧
      (played {} {} handling).2.inOrder ∧ (played {} {} handling).2.on = [6, 5, 2, 1] ∧
      (played {} {} handling).2.values = #[13, 0, 15, 20, 5, 30, 9] ∧
      (played ({} : IndexedHeap Nat) {} handling).1.drain.1 = [5, 2, 6, 1] := by
  have h : Fits 0 handling := by
    simp [handling, Fits, Event.Fits, Event.count]
  exact ⟨h, played_listing h, trivial, by decide +kernel⟩

end IndexedHeap

end ClauseLearning

import ClauseLearning.Proofs.Order.Heap
import Mathlib.Order.Lattice
import Mathlib.Order.Monotone.Basic

/-!
# The order of a heap

No place of a heap has a smaller value than its children.  When one value changes, or another index takes a place, the
order is broken around that place only, and what is below it is not above what it hangs from.  So sifting has to look
at one place at a time.

* `IndexedHeap.OrderedFrom` — the order, for the places from one on.
* `IndexedHeap.OrderedApart`, `IndexedHeap.OrderedUp` — the order, but not around one place, or only not above it.
* `IndexedHeap.OrderedApart.siftDown`, `IndexedHeap.OrderedUp.siftUp` — sifting restores the order.
* `IndexedHeap.Ordered.insert`, `IndexedHeap.Ordered.erase`, `IndexedHeap.Ordered.setValue` — every change keeps it.
* `IndexedHeap.drained` — a heap that is drained gives the indices on it, those of greater value first.
-/

namespace ClauseLearning

namespace IndexedHeap

variable {α : Type} [Inhabited α] {h g : IndexedHeap α} {n p i j : Nat}

/-! ## Values at places -/

theorem valueAt_congr (hvalues : g.values = h.values) (hheap : g.heap[p]? = h.heap[p]?) : g.valueAt p = h.valueAt p := by
  simp only [valueAt, value, hvalues, Array.getD_eq_getD_getElem?, hheap]

theorem valueAt_of_getElem? (hp : h.heap[p]? = some i) : h.valueAt p = h.value i := by
  simp only [valueAt, Array.getD_eq_getD_getElem?, hp, Option.getD_some]

theorem valueAt_swap {a b : Nat} (ha : a < h.size) (hb : b < h.size) (p : Nat) :
    (h.swap a b).valueAt p = if p = a then h.valueAt b else if p = b then h.valueAt a else h.valueAt p := by
  have hheap := heap_swap ha hb p
  split at hheap
  · next hpa =>
    rw [if_pos hpa]
    simp only [valueAt, value, Array.getD_eq_getD_getElem?, hheap]
    rfl
  · next hpa =>
    rw [if_neg hpa]
    split at hheap
    · next hpb =>
      rw [if_pos hpb]
      simp only [valueAt, value, Array.getD_eq_getD_getElem?, hheap]
      rfl
    · next hpb =>
      rw [if_neg hpb]
      exact valueAt_congr rfl hheap

theorem valueAt_dropLast (hp : p < h.size - 1) (i : Nat) : (h.dropLast i).valueAt p = h.valueAt p := by
  refine valueAt_congr rfl ?_
  simp only [dropLast, Array.getElem?_pop]
  exact if_pos hp

theorem value_setIfInBounds (h : IndexedHeap α) (i : Nat) (x : α) (hij : j ≠ i) :
    ({ h with values := h.values.setIfInBounds i x } : IndexedHeap α).value j = h.value j := by
  simp only [value, Array.getD_eq_getD_getElem?, Array.getElem?_setIfInBounds, if_neg hij.symm]

/-! ## The order -/

section Order

variable [LinearOrder α]

/-- No place from `n` on has a smaller value than its children. -/
def OrderedFrom (n : Nat) (h : IndexedHeap α) : Prop :=
  ∀ c, 0 < c → c < h.size → n ≤ (c - 1) / 2 → h.valueAt c ≤ h.valueAt ((c - 1) / 2)

/-- No place has a smaller value than its children. -/
def Ordered (h : IndexedHeap α) : Prop := OrderedFrom 0 h

/-- The places from `n` on are in order, but perhaps not around the place `p`. -/
structure OrderedApart (n p : Nat) (h : IndexedHeap α) : Prop where
  /-- Places away from `p`. -/
  apart : ∀ c, 0 < c → c < h.size → n ≤ (c - 1) / 2 → c ≠ p → (c - 1) / 2 ≠ p →
    h.valueAt c ≤ h.valueAt ((c - 1) / 2)
  /-- What is below `p` has no greater value than what is above it. -/
  across : ∀ c, 0 < c → c < h.size → (c - 1) / 2 = p → 0 < p → n ≤ (p - 1) / 2 →
    h.valueAt c ≤ h.valueAt ((p - 1) / 2)

/-- The places from `n` on are in order, but perhaps the value at the place `p` is too great. -/
structure OrderedUp (n p : Nat) (h : IndexedHeap α) : Prop extends OrderedApart n p h where
  /-- The children of `p`. -/
  below : ∀ c, 0 < c → c < h.size → n ≤ (c - 1) / 2 → (c - 1) / 2 = p → h.valueAt c ≤ h.valueAt p

theorem OrderedFrom.up (ho : OrderedFrom n h) (p : Nat) : OrderedUp n p h where
  apart c hpos hlt hn _ _ := ho c hpos hlt hn
  across c hpos hlt hp hp0 hn := by
    have hup := ho p hp0 (by omega) hn
    have hdown := ho c hpos hlt (by omega)
    rw [hp] at hdown
    exact hdown.trans hup
  below c hpos hlt hn hp := hp ▸ ho c hpos hlt hn

theorem OrderedUp.ordered (ho : OrderedUp n p h)
    (hp : 0 < p → p < h.size → n ≤ (p - 1) / 2 → h.valueAt p ≤ h.valueAt ((p - 1) / 2)) : OrderedFrom n h := by
  intro c hpos hlt hn
  by_cases hc : c = p
  · subst hc
    exact hp hpos hlt hn
  · by_cases hcp : (c - 1) / 2 = p
    · rw [hcp]
      exact ho.below c hpos hlt hn hcp
    · exact ho.apart c hpos hlt hn hc hcp

/-! ## Sifting -/

theorem greaterChild_parent (h : IndexedHeap α) (p : Nat) : (h.greaterChild p - 1) / 2 = p := by
  simp only [greaterChild]
  split
  · split <;> omega
  · omega

/-- No child has a greater value. -/
theorem valueAt_le_greaterChild {c : Nat} (hpos : 0 < c) (hlt : c < h.size) (hp : (c - 1) / 2 = p) :
    h.valueAt c ≤ h.valueAt (h.greaterChild p) := by
  have hc : c = 2 * p + 1 ∨ c = 2 * p + 1 + 1 := by omega
  simp only [greaterChild]
  rcases hc with rfl | rfl
  · split
    · split
      · next hless => exact le_of_lt hless
      · exact le_rfl
    · exact le_rfl
  · rw [if_pos hlt]
    split
    · exact le_rfl
    · next hless => exact not_lt.1 hless

/-- What is sifted down ends where it has no smaller value than its children.  Above it, there is order as before.
The induction is along the way down; the greater child takes the place of the element. -/
theorem OrderedApart.siftDown (ho : OrderedApart n p h) (hn : n ≤ p) :
    OrderedUp n p (h.siftDown p) ∧
      ((0 < p → n ≤ (p - 1) / 2 → h.valueAt p ≤ h.valueAt ((p - 1) / 2)) → OrderedFrom n (h.siftDown p)) := by
  induction h, p using siftDown.induct with
  | case1 h p hlt child hless ih =>
    rw [IndexedHeap.siftDown, if_pos hlt, if_pos hless]
    have hchild : child < h.size := greaterChild_lt hlt
    have hparent : (child - 1) / 2 = p := greaterChild_parent h p
    have hgt : p < child := h.lt_greaterChild p
    have hval := valueAt_swap (h := h) (a := p) (b := child) (by omega) hchild
    have hpn : p ≠ child := Nat.ne_of_lt hgt
    have hnext : OrderedApart n child (h.swap p child) := by
      constructor
      · intro c hpos hc hnc hne hne'
        rw [size_swap] at hc
        rw [hval, hval, if_neg hne, if_neg hne']
        by_cases hcp : c = p
        · subst hcp
          rw [if_pos rfl, if_neg (by omega)]
          exact ho.across child (by omega) hchild hparent hpos hnc
        · rw [if_neg hcp]
          by_cases hcp' : (c - 1) / 2 = p
          · rw [if_pos hcp']
            exact valueAt_le_greaterChild hpos hc hcp'
          · rw [if_neg hcp']
            exact ho.apart c hpos hc hnc hcp hcp'
      · intro c hpos hc hcc _ _
        rw [size_swap] at hc
        rw [hval, hval, hparent, if_pos rfl, if_neg (by omega), if_neg (by omega), ← hcc]
        exact ho.apart c hpos hc (by omega) (by omega) (by omega)
    have hall := (ih hnext (by omega)).2 fun _ _ => by
      rw [hval, hval, hparent, if_neg hpn.symm, if_pos rfl, if_pos rfl]
      exact le_of_lt hless
    exact ⟨hall.up p, fun _ => hall⟩
  | case2 h p hlt child hless =>
    rw [IndexedHeap.siftDown, if_pos hlt, if_neg hless]
    have hup : OrderedUp n p h := ⟨ho, fun c hpos hc _ hp =>
      (valueAt_le_greaterChild hpos hc hp).trans (not_lt.1 hless)⟩
    exact ⟨hup, fun hp => hup.ordered fun hpos _ => hp hpos⟩
  | case3 h p hlt =>
    rw [IndexedHeap.siftDown, if_neg hlt]
    have hup : OrderedUp n p h := ⟨ho, fun c hpos hc _ hp => by omega⟩
    exact ⟨hup, fun hp => hup.ordered fun hpos _ => hp hpos⟩

/-- An element that is too great for its parent takes the place of it. -/
theorem OrderedApart.swap (ho : OrderedApart 0 p h) (hpos : 0 < p) (hp : p < h.size)
    (hless : h.valueAt ((p - 1) / 2) < h.valueAt p) : OrderedUp 0 ((p - 1) / 2) (h.swap p ((p - 1) / 2)) := by
  have hval := valueAt_swap (h := h) hp (b := (p - 1) / 2) (by omega)
  -- what hangs from the parent has no greater value
  have hside : ∀ c, 0 < c → c < h.size → (c - 1) / 2 = (p - 1) / 2 → c ≠ p → h.valueAt c ≤ h.valueAt ((p - 1) / 2) :=
    fun c hc hlt he hne => he ▸ ho.apart c hc hlt (Nat.zero_le _) hne (by omega)
  refine ⟨⟨fun c hc hlt _ hne hne' => ?_, fun c hc hlt he hpos' _ => ?_⟩, fun c hc hlt _ he => ?_⟩
  · rw [size_swap] at hlt
    have hcp : c ≠ p := fun h => hne' (h ▸ rfl)
    rw [hval, hval, if_neg hcp, if_neg hne]
    by_cases hcp' : (c - 1) / 2 = p
    · rw [if_pos hcp']
      exact ho.across c hc hlt hcp' hpos (Nat.zero_le _)
    · rw [if_neg hcp', if_neg hne']
      exact ho.apart c hc hlt (Nat.zero_le _) hcp hcp'
  · rw [size_swap] at hlt
    have hup := ho.apart ((p - 1) / 2) hpos' (by omega) (Nat.zero_le _) (by omega) (by omega)
    have hgrand : (h.swap p ((p - 1) / 2)).valueAt (((p - 1) / 2 - 1) / 2) =
        h.valueAt (((p - 1) / 2 - 1) / 2) := by
      rw [hval, if_neg (by omega), if_neg (by omega)]
    rw [hgrand, hval]
    by_cases hcp : c = p
    · rw [if_pos hcp]
      exact hup
    · rw [if_neg hcp, if_neg (by omega)]
      exact (hside c hc hlt he hcp).trans hup
  · rw [size_swap] at hlt
    have hself : (h.swap p ((p - 1) / 2)).valueAt ((p - 1) / 2) = h.valueAt p := by
      rw [hval, if_neg (by omega), if_pos rfl]
    rw [hself, hval]
    by_cases hcp : c = p
    · rw [if_pos hcp]
      exact le_of_lt hless
    · rw [if_neg hcp, if_neg (by omega)]
      exact (hside c hc hlt he hcp).trans (le_of_lt hless)

/-- What is sifted up ends where it has no greater value than its parent. -/
theorem OrderedUp.siftUp (ho : OrderedUp 0 p h) (hp : p < h.size) : Ordered (h.siftUp p) := by
  induction h, p using siftUp.induct with
  | case1 h p hpos parent hless ih =>
    rw [IndexedHeap.siftUp, if_pos hpos, if_pos hless]
    exact ih (ho.toOrderedApart.swap hpos hp hless) (by
      rw [size_swap]
      omega)
  | case2 h p hpos parent hless =>
    rw [IndexedHeap.siftUp, if_pos hpos, if_neg hless]
    exact ho.ordered fun _ _ _ => not_lt.1 hless
  | case3 h p hpos =>
    rw [IndexedHeap.siftUp, if_neg hpos]
    exact ho.ordered fun hp => absurd hp hpos

theorem size_siftDown (h : IndexedHeap α) (p : Nat) : (h.siftDown p).size = h.size := by
  induction h, p using siftDown.induct with
  | case1 h p hlt child hless ih =>
    rw [IndexedHeap.siftDown, if_pos hlt, if_pos hless]
    exact ih.trans (size_swap ..)
  | case2 h p hlt child hless => rw [IndexedHeap.siftDown, if_pos hlt, if_neg hless]
  | case3 h p hlt => rw [IndexedHeap.siftDown, if_neg hlt]

/-- Where the order is broken around one place only, sifting down and then up restores it. -/
theorem OrderedApart.settle (ho : OrderedApart 0 p h) (hp : p < h.size) : Ordered (h.settle p) := by
  rw [IndexedHeap.settle, if_pos hp]
  exact (ho.siftDown (Nat.zero_le p)).1.siftUp ((size_siftDown h p).symm ▸ hp)

/-- So does sifting up and then down, at the same place.  If the element goes up there is order already. -/
theorem OrderedApart.siftUp_siftDown (ho : OrderedApart 0 p h) (hp : p < h.size) :
    Ordered ((h.siftUp p).siftDown p) := by
  have hstay : (0 < p → h.valueAt p ≤ h.valueAt ((p - 1) / 2)) → Ordered (h.siftDown p) := fun hle =>
    (ho.siftDown (Nat.zero_le p)).2 fun hpos _ => hle hpos
  rw [IndexedHeap.siftUp]
  by_cases hpos : 0 < p
  · rw [if_pos hpos]
    by_cases hless : h.valueAt ((p - 1) / 2) < h.valueAt p
    · rw [if_pos hless]
      have hup : Ordered ((h.swap p ((p - 1) / 2)).siftUp ((p - 1) / 2)) :=
        (ho.swap hpos hp hless).siftUp (by
          rw [size_swap]
          omega)
      by_cases hlt : p < ((h.swap p ((p - 1) / 2)).siftUp ((p - 1) / 2)).size
      · exact ((hup.up p).toOrderedApart.siftDown (Nat.zero_le p)).2 fun _ hn => hup p hpos hlt hn
      · rw [IndexedHeap.siftDown, if_neg (by omega)]
        exact hup
    · rw [if_neg hless]
      exact hstay fun _ => not_lt.1 hless
  · rw [if_neg hpos]
    exact hstay fun h => absurd h hpos

/-! ## Changes -/

theorem ordered_empty : Ordered ({} : IndexedHeap α) := fun _ _ hlt => absurd hlt (Nat.not_lt_zero _)

/-- The order depends on the values at the places only. -/
theorem Ordered.congr (ho : Ordered h) (hsize : g.size ≤ h.size) (hval : ∀ c < g.size, g.valueAt c = h.valueAt c) :
    Ordered g := by
  intro c hpos hlt hn
  rw [hval c hlt, hval _ (by omega)]
  exact ho c hpos (by omega) hn

/-- If the values agree but for one place, the order is broken around that place only. -/
theorem Ordered.apart (ho : Ordered h) (hp : p < h.size) (hsize : g.size ≤ h.size)
    (hval : ∀ c < g.size, c ≠ p → g.valueAt c = h.valueAt c) : OrderedApart 0 p g where
  apart c hpos hlt hn hne hne' := by
    rw [hval c hlt hne, hval _ (by omega) hne']
    exact ho c hpos (by omega) hn
  across c hpos hlt hc hp0 _ := by
    rw [hval c hlt (by omega), hval _ (by omega) (by omega)]
    exact ((ho.up p).below c hpos (by omega) (Nat.zero_le _) hc).trans (ho p hp0 hp (Nat.zero_le _))

/-- A last place is added, whose value may be too great. -/
theorem Ordered.push (ho : Ordered h) (i : Nat) (slots : Array (Option Nat)) :
    OrderedUp 0 h.size { h with heap := h.heap.push i, slots } := by
  generalize hg : ({ h with heap := h.heap.push i, slots } : IndexedHeap α) = g
  have hsize : g.size = h.size + 1 := by
    subst hg
    exact Array.size_push ..
  have hval : ∀ c < h.size, g.valueAt c = h.valueAt c := fun c hc => by
    subst hg
    exact valueAt_congr rfl (by simp only [Array.getElem?_push_lt hc, Array.getElem?_eq_getElem hc])
  refine ⟨⟨fun c hpos hlt hn hne _ => ?_, fun c hpos hlt hc => ?_⟩, fun c hpos hlt _ hc => ?_⟩
  · rw [hval c (by omega), hval _ (by omega)]
    exact ho c hpos (by omega) hn
  · omega
  · omega

/-- An index is put on the heap at the end, and sifted up. -/
theorem Ordered.insert (ho : Ordered h) (i : Nat) : Ordered (h.insert i) := by
  unfold IndexedHeap.insert
  split
  · exact ho
  · exact (ho.push i _).siftUp (by simp only [size, Array.size_push, Nat.lt_succ_self])

/-- An index is taken off the heap.  The last one takes its place, and moves to where it belongs. -/
theorem Ordered.erase (hv : h.Valid) (ho : Ordered h) (i : Nat) : Ordered (h.erase i) := by
  unfold IndexedHeap.erase
  split
  · exact ho
  · next place hsome =>
    have hp := hv.place_lt hsome
    have hsize : ((h.swap place (h.size - 1)).dropLast i).size = h.size - 1 := by rw [size_dropLast, size_swap]
    have hval : ∀ c < ((h.swap place (h.size - 1)).dropLast i).size, c ≠ place →
        ((h.swap place (h.size - 1)).dropLast i).valueAt c = h.valueAt c := fun c hc hne => by
      rw [hsize] at hc
      rw [valueAt_dropLast (by rw [size_swap]; exact hc), valueAt_swap hp (by omega), if_neg hne,
        if_neg (Nat.ne_of_lt hc)]
    have hle : ((h.swap place (h.size - 1)).dropLast i).size ≤ h.size := by
      rw [hsize]
      exact Nat.sub_le ..
    by_cases hlt : place < ((h.swap place (h.size - 1)).dropLast i).size
    · exact (ho.apart hp hle hval).settle hlt
    · rw [settle, if_neg hlt]
      exact ho.congr hle fun c hc => hval c hc fun h => hlt (h ▸ hc)

/-- An index gets another value.  If it is on the heap it moves to where it then belongs. -/
theorem Ordered.setValue (hv : h.Valid) (ho : Ordered h) (i : Nat) (x : α) : Ordered (h.setValue i x) := by
  -- the value at a place changes only if that index is there
  have hval : ∀ c < h.size, h.heap[c]? ≠ some i →
      ({ h with values := h.values.setIfInBounds i x } : IndexedHeap α).valueAt c = h.valueAt c := fun c hc hne => by
    obtain ⟨j, hget, -⟩ := hv.exists_of_lt hc
    rw [valueAt_of_getElem? hget, valueAt_of_getElem? (h := { h with values := h.values.setIfInBounds i x }) hget,
      value_setIfInBounds h i x fun he => hne (he ▸ hget)]
  unfold IndexedHeap.setValue
  simp only
  split
  · next hnone =>
    refine ho.congr (Nat.le_refl _) fun c hc => hval c hc fun hget => ?_
    have hslot : h.slot? i = none := hnone
    rw [(hv.inverse i c).2 hget] at hslot
    cases hslot
  · next place hsome =>
    have hp : place < h.size := hv.place_lt hsome
    exact OrderedApart.siftUp_siftDown (ho.apart hp (Nat.le_refl h.size) fun c hc hne => hval c hc fun hget =>
      hne (hv.place_inj hget ((hv.inverse i place).1 hsome))) hp

/-- All values change, but none overtakes another. -/
theorem Ordered.mapValues (hv : h.Valid) (ho : Ordered h) {f : α → α} (hf : Monotone f) : Ordered (h.mapValues f) := by
  have hval : ∀ c < h.size, (h.mapValues f).valueAt c = f (h.valueAt c) := fun c hc => by
    obtain ⟨j, hget, hlt⟩ := hv.exists_of_lt hc
    rw [valueAt_of_getElem? hget, valueAt_of_getElem? (h := h.mapValues f) hget]
    simp [value, IndexedHeap.mapValues, Array.getD_eq_getD_getElem?, hlt]
  intro c hpos hlt hn
  have hlt' : c < h.size := hlt
  rw [hval c hlt', hval _ (by omega)]
  exact hf (ho c hpos hlt' hn)

/-- There are more indices, but not on the heap. -/
theorem Ordered.growTo (hv : h.Valid) (ho : Ordered h) (n : Nat) (x : α) : Ordered (h.growTo n x) := by
  refine ho.congr (Nat.le_refl _) fun c hc => ?_
  obtain ⟨j, hget, hlt⟩ := hv.exists_of_lt hc
  rw [valueAt_of_getElem? hget, valueAt_of_getElem? (h := h.growTo n x) hget]
  simp only [value, IndexedHeap.growTo, Array.getD_eq_getD_getElem?, Array.getElem?_append_left hlt]

/-- The places are put in order one after another, from the last that has a child.  Those behind are in order, and
what hangs above does not matter yet. -/
theorem heapifyBelow_ordered (ho : OrderedFrom n h) : Ordered (h.heapifyBelow n) := by
  induction n generalizing h with
  | zero => exact ho
  | succ n ih =>
    have hapart : OrderedApart n n h :=
      ⟨fun c hpos hlt hn _ hne => ho c hpos hlt (by omega), fun c hpos hlt hc hpos' hn => by omega⟩
    exact ih ((hapart.siftDown (Nat.le_refl n)).2 fun hpos hn => by omega)

/-- There is order after this, whatever the values are. -/
theorem ordered_heapify (h : IndexedHeap α) : Ordered h.heapify :=
  heapifyBelow_ordered fun c hpos hlt hn => by omega

theorem reordered_heapifyBelow (hv : h.Valid) (n : Nat) : Reordered h (h.heapifyBelow n) := by
  induction n generalizing h with
  | zero => exact .refl hv
  | succ n ih => exact (reordered_siftDown hv n).trans (ih (reordered_siftDown hv n).valid)

/-! ## The greatest -/

/-- No place has a greater value than the first. -/
theorem Ordered.valueAt_le (ho : Ordered h) (hp : p < h.size) : h.valueAt p ≤ h.valueAt 0 := by
  induction p using Nat.strongRecOn with
  | ind p ih =>
    by_cases hpos : 0 < p
    · exact (ho p hpos hp (Nat.zero_le _)).trans (ih _ (by omega) (by omega))
    · rw [Nat.eq_zero_of_not_pos hpos]

/-- The first index is on the heap, and none there has a greater value. -/
theorem Ordered.max_spec (hv : h.Valid) (ho : Ordered h) (hm : h.max? = some i) :
    h.contains i = true ∧ ∀ j, h.contains j = true → h.value j ≤ h.value i := by
  refine ⟨max?_contains hv hm, fun j hj => ?_⟩
  obtain ⟨place, hplace⟩ := Array.mem_iff_getElem?.1 (hv.contains_iff.1 hj)
  have hlt : place < h.size := (Array.getElem?_eq_some_iff.1 hplace).1
  rw [← valueAt_of_getElem? hplace, ← valueAt_of_getElem? hm]
  exact ho.valueAt_le hlt

/-! ## Draining -/

/-- Indices as they come off a heap until there are none. -/
structure Drained (h : IndexedHeap α) (is : List Nat) : Prop where
  /-- No index comes twice. -/
  nodup : is.Nodup
  /-- Those come that are on the heap. -/
  mem : ∀ i, i ∈ is ↔ h.contains i = true
  /-- Values do not increase. -/
  sorted : is.Pairwise fun i j => h.value j ≤ h.value i

theorem drained_popMany (hv : h.Valid) (ho : Ordered h) (hn : h.size = n) :
    Drained h (h.popMany n).1 ∧ (h.popMany n).2.size = 0 := by
  induction n generalizing h with
  | zero =>
    have hnone : h.max? = none := Array.getElem?_eq_none (Nat.le_of_eq hn)
    have hout := (max?_eq_none_iff hv).1 hnone
    exact ⟨⟨.nil, fun i => ⟨fun hi => absurd hi List.not_mem_nil, fun hi => absurd hi (by simp [hout])⟩, .nil⟩, hn⟩
  | succ n ih =>
    obtain ⟨i, hm⟩ : ∃ i, h.max? = some i := by
      have hlt : 0 < h.size := by omega
      exact ⟨_, Array.getElem?_eq_getElem hlt⟩
    obtain ⟨hin, hmax⟩ := ho.max_spec hv hm
    obtain ⟨hv', hvalues, hcontains, hsize⟩ := valid_erase hv i
    obtain ⟨hrest, hempty⟩ := ih hv' (ho.erase hv i) (by
      have := hsize hin
      omega)
    have hvalue : ∀ j, (h.erase i).value j = h.value j := fun j => by rw [value, hvalues, value]
    have hpop : h.popMax = (some i, h.erase i) := by simp only [popMax, hm]
    have hmany : h.popMany (n + 1) = (i :: ((h.erase i).popMany n).1, ((h.erase i).popMany n).2) := by
      rw [popMany, hpop]
    have hmem : ∀ j, j ∈ ((h.erase i).popMany n).1 ↔ j ≠ i ∧ h.contains j = true := fun j =>
      (hrest.mem j).trans (hcontains j)
    rw [hmany]
    refine ⟨⟨List.nodup_cons.2 ⟨fun hi => ((hmem i).1 hi).1 rfl, hrest.nodup⟩, fun j => ?_, ?_⟩, hempty⟩
    · rw [List.mem_cons, hmem]
      by_cases hj : j = i
      · simp [hj, hin]
      · simp [hj]
    · refine List.pairwise_cons.2 ⟨fun j hj => hmax j ((hmem j).1 hj).2, ?_⟩
      simpa only [hvalue] using hrest.sorted

/-- Draining gives the indices on the heap, those of greater value first, and none is left. -/
theorem drained (hv : h.Valid) (ho : Ordered h) : Drained h h.drain.1 ∧ h.drain.2.size = 0 :=
  drained_popMany hv ho rfl

end Order

end IndexedHeap

end ClauseLearning

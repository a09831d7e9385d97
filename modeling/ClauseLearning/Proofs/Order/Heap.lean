import ClauseLearning.IndexedHeap
import Mathlib.Logic.Equiv.Basic
import Mathlib.Tactic.ByContra

/-!
# Heaps of indices

Which indices are on a heap does not depend on their values.  Every operation keeps the table of slots
inverse to the heap, and sifting only moves indices around.

* `IndexedHeap.Valid` — the table of slots is inverse to the heap.
* `IndexedHeap.Reordered` — the same indices, in another order.
* `IndexedHeap.heap_swap_eq`, `IndexedHeap.slot?_swap` — exchanging two places exchanges them on the heap and in the
  table alike.
* `IndexedHeap.valid_insert`, `IndexedHeap.valid_erase` — the slots and the indices after a change.
-/

namespace ClauseLearning

namespace IndexedHeap

variable {α : Type} {h h' h'' : IndexedHeap α} {i j : Nat}

/-- The table of slots says where on the heap each index is. -/
structure Valid (h : IndexedHeap α) : Prop where
  /-- There is a slot for each value. -/
  slots : h.slots.size = h.values.size
  /-- A slot is the place of its index. -/
  inverse : ∀ i place, h.slot? i = some place ↔ h.heap[place]? = some i

theorem Valid.contains_iff (hv : h.Valid) : h.contains i = true ↔ i ∈ h.heap := by
  rw [contains, Option.isSome_iff_exists, Array.mem_iff_getElem?]
  exact exists_congr fun place => hv.inverse i place

/-- No index is at two places. -/
theorem Valid.place_inj (hv : h.Valid) {a b : Nat} (ha : h.heap[a]? = some i) (hb : h.heap[b]? = some i) : a = b :=
  Option.some.inj (((hv.inverse i a).2 ha).symm.trans ((hv.inverse i b).2 hb))

theorem Valid.nodup (hv : h.Valid) : h.heap.toList.Nodup := by
  rw [List.Nodup, List.pairwise_iff_getElem]
  intro a b ha hb hlt he
  have hx : h.heap[a]? = some h.heap[a] := Array.getElem?_eq_getElem (by simpa using ha)
  have hy : h.heap[b]? = some h.heap[a] := by
    rw [Array.getElem?_eq_getElem (by simpa using hb)]
    simpa using he.symm
  exact Nat.ne_of_lt hlt (hv.place_inj hx hy)

theorem Valid.place_lt (hv : h.Valid) {place : Nat} (hs : h.slot? i = some place) : place < h.size :=
  (Array.getElem?_eq_some_iff.1 ((hv.inverse i place).1 hs)).1

theorem Valid.lt_of_slot (hv : h.Valid) {place : Nat} (hs : h.slot? i = some place) :
    i < h.values.size := by
  by_contra hc
  rw [slot?, Array.getD_eq_getD_getElem?, Array.getElem?_eq_none (by rw [hv.slots]; omega)] at hs
  simp at hs

/-- At every place there is an index that has a value. -/
theorem Valid.exists_of_lt (hv : h.Valid) {place : Nat} (hlt : place < h.size) :
    ∃ i, h.heap[place]? = some i ∧ i < h.values.size :=
  have hget : h.heap[place]? = some h.heap[place] := Array.getElem?_eq_getElem hlt
  ⟨_, hget, hv.lt_of_slot ((hv.inverse _ place).2 hget)⟩

theorem slot?_set (slots : Array (Option Nat)) (values : Array α) (heap : Array Nat)
    (x : Option Nat) (hi : i < slots.size) :
    ({ values, slots := slots.setIfInBounds i x, heap } : IndexedHeap α).slot? j =
      if j = i then x else slots.getD j none := by
  simp only [slot?, Array.getD_eq_getD_getElem?, Array.getElem?_setIfInBounds]
  by_cases hj : j = i
  · simp [hj, hi]
  · simp [hj, Ne.symm hj]

/-! ## Sifting -/

/-- The same indices with the same values, in another order. -/
structure Reordered (h h' : IndexedHeap α) : Prop where
  /-- The values are as they were. -/
  values : h'.values = h.values
  /-- As many indices are on the heap. -/
  size : h'.size = h.size
  /-- The table of slots is inverse to the heap. -/
  valid : h'.Valid
  /-- The same indices are on the heap. -/
  contains : ∀ i, h'.contains i = h.contains i

namespace Reordered

theorem refl (hv : h.Valid) : Reordered h h := ⟨rfl, rfl, hv, fun _ => rfl⟩

theorem trans (h₁ : Reordered h h') (h₂ : Reordered h' h'') : Reordered h h'' :=
  ⟨h₂.values.trans h₁.values, h₂.size.trans h₁.size, h₂.valid,
    fun i => (h₂.contains i).trans (h₁.contains i)⟩

end Reordered

theorem heap_swap {a b : Nat} (ha : a < h.size) (hb : b < h.size) (place : Nat) :
    (h.swap a b).heap[place]? =
      if place = a then h.heap[b]? else if place = b then h.heap[a]? else h.heap[place]? := by
  simp only [size] at ha hb
  simp only [swap, Array.swapIfInBounds_def, ha, hb, dif_pos, Array.getElem?_swap]
  by_cases h1 : place = a
  · by_cases h2 : a = b
    · simp [h1, h2, hb]
    · simp [h1, hb, Ne.symm h2]
  · by_cases h2 : place = b
    · have h3 : b ≠ a := fun he => h1 (h2.trans he)
      simp [h2, h3, ha]
    · simp [h1, h2, Ne.symm h1, Ne.symm h2]

section Swap

variable (hv : h.Valid) {a b : Nat} (ha : a < h.size) (hb : b < h.size)
include ha hb

/-- At a place is what was at the place it is exchanged with. -/
theorem heap_swap_eq (place : Nat) : (h.swap a b).heap[place]? = h.heap[Equiv.swap a b place]? := by
  rw [heap_swap ha hb, Equiv.swap_apply_def]
  split
  · rfl
  · split <;> rfl

include hv

/-- The slot of an index tells the place that its place was exchanged with. -/
theorem slot?_swap (i : Nat) : (h.swap a b).slot? i = (h.slot? i).map (Equiv.swap a b) := by
  have hx : h.heap[a]? = some h.heap[a] := Array.getElem?_eq_getElem ha
  have hy : h.heap[b]? = some h.heap[b] := Array.getElem?_eq_getElem hb
  generalize h.heap[a] = x at hx
  generalize h.heap[b] = y at hy
  have hsx := (hv.inverse x a).2 hx
  have hsy := (hv.inverse y b).2 hy
  have hget : ∀ c, (h.heap.swapIfInBounds a b).getD c 0 = (h.heap[Equiv.swap a b c]?).getD 0 := fun c => by
    rw [← heap_swap_eq ha hb]
    simp [swap]
  rw [swap, hget, hget, Equiv.swap_apply_left, Equiv.swap_apply_right, hx, hy, Option.getD_some, Option.getD_some,
    slot?_set _ _ _ _ (by simpa using hv.slots ▸ hv.lt_of_slot hsx)]
  by_cases h1 : i = x
  · rw [if_pos h1, h1, hsx, Option.map_some, Equiv.swap_apply_left]
  · have hrest : (h.slots.setIfInBounds y (some a)).getD i none = if i = y then some a else h.slot? i :=
      slot?_set h.slots h.values h.heap (some a) (hv.slots ▸ hv.lt_of_slot hsy)
    rw [if_neg h1, hrest]
    by_cases h2 : i = y
    · rw [if_pos h2, h2, hsy, Option.map_some, Equiv.swap_apply_right]
    · rw [if_neg h2]
      cases hp : h.slot? i with
      | none => rfl
      | some p =>
        -- its place is another one
        have hi := (hv.inverse i p).1 hp
        have hpa : p ≠ a := by
          rintro rfl
          exact h1 (Option.some.inj (hi.symm.trans hx))
        have hpb : p ≠ b := by
          rintro rfl
          exact h2 (Option.some.inj (hi.symm.trans hy))
        rw [Option.map_some, Equiv.swap_apply_of_ne_of_ne hpa hpb]

theorem reordered_swap : Reordered h (h.swap a b) := by
  refine ⟨rfl, size_swap h a b, ⟨by simp [swap, hv.slots], fun i place => ?_⟩, fun i => ?_⟩
  · rw [slot?_swap hv ha hb, heap_swap_eq ha hb, ← hv.inverse, Option.map_eq_some_iff]
    constructor
    · rintro ⟨p, hp, rfl⟩
      rwa [Equiv.swap_apply_self]
    · intro hp
      exact ⟨_, hp, Equiv.swap_apply_self a b place⟩
  · rw [contains, contains, slot?_swap hv ha hb, Option.isSome_map]

end Swap

theorem size_dropLast (h : IndexedHeap α) (i : Nat) : (h.dropLast i).size = h.size - 1 := Array.size_pop ..

section DropLast

variable (hv : h.Valid) (hlast : h.heap[h.size - 1]? = some i)
include hv hlast

theorem slot?_dropLast (j : Nat) : (h.dropLast i).slot? j = if j = i then none else h.slot? j := by
  have hi : i < h.slots.size := by
    rw [hv.slots]
    exact hv.lt_of_slot ((hv.inverse i _).2 hlast)
  rw [dropLast, slot?_set _ _ _ _ hi]
  rfl

/-- Taking off the index at the last place. -/
theorem valid_dropLast : (h.dropLast i).Valid := by
  refine ⟨by simp [dropLast, hv.slots], fun j p => ?_⟩
  rw [slot?_dropLast hv hlast]
  simp only [dropLast, Array.getElem?_pop]
  have hlast' : h.heap[h.heap.size - 1]? = some i := hlast
  by_cases hj : j = i
  · subst hj
    rw [if_pos rfl]
    refine ⟨fun he => by simp at he, fun he => ?_⟩
    split at he
    · next hlt =>
      have hplace := hv.place_inj he hlast'
      omega
    · simp at he
  · rw [if_neg hj, hv.inverse]
    split
    · rfl
    · next hge =>
      -- only the last place is missing
      refine ⟨fun he => ?_, fun he => by simp at he⟩
      have hlt := (Array.getElem?_eq_some_iff.1 he).1
      have hp : p = h.heap.size - 1 := by omega
      rw [hp, hlast'] at he
      exact absurd (Option.some.inj he).symm hj

end DropLast

theorem max?_contains (hv : h.Valid) (hm : h.max? = some i) : h.contains i = true := by
  rw [contains, (hv.inverse i 0).2 hm]
  rfl

/-- There is no first index if none is on the heap. -/
theorem max?_eq_none_iff (hv : h.Valid) : h.max? = none ↔ ∀ j, h.contains j = false := by
  rw [max?, Array.getElem?_eq_none_iff, Nat.le_zero]
  constructor
  · intro hsize j
    rw [Bool.eq_false_iff]
    intro hj
    obtain ⟨place, hplace⟩ := Array.mem_iff_getElem?.1 (hv.contains_iff.1 hj)
    have := (Array.getElem?_eq_some_iff.1 hplace).1
    omega
  · intro hall
    by_contra hne
    have hget : h.heap[0]? = some h.heap[0] := Array.getElem?_eq_getElem (Nat.pos_of_ne_zero hne)
    have hin := max?_contains hv hget
    rw [hall] at hin
    cases hin

section Order

variable [Inhabited α] [LT α] [DecidableLT α]

theorem greaterChild_lt {place : Nat} (hp : 2 * place + 1 < h.size) :
    h.greaterChild place < h.size := by
  simp only [greaterChild]
  split
  · split <;> omega
  · omega

theorem reordered_siftDown (hv : h.Valid) (place : Nat) : Reordered h (h.siftDown place) := by
  induction h, place using siftDown.induct with
  | case1 h place hlt child hless ih =>
    rw [siftDown, if_pos hlt, if_pos hless]
    have hr := reordered_swap hv (a := place) (by omega) (greaterChild_lt hlt)
    exact hr.trans (ih hr.valid)
  | case2 h place hlt child hless =>
    rw [siftDown, if_pos hlt, if_neg hless]
    exact .refl hv
  | case3 h place hlt =>
    rw [siftDown, if_neg hlt]
    exact .refl hv

theorem reordered_siftUp (hv : h.Valid) (place : Nat) (hp : place < h.size) :
    Reordered h (h.siftUp place) := by
  induction h, place using siftUp.induct with
  | case1 h place hpos parent hless ih =>
    rw [siftUp, if_pos hpos, if_pos hless]
    have hparent : (place - 1) / 2 < h.size := by omega
    have hr := reordered_swap hv hp hparent
    exact hr.trans (ih hr.valid (by rw [size_swap]; exact hparent))
  | case2 h place hpos parent hless =>
    rw [siftUp, if_pos hpos, if_neg hless]
    exact .refl hv
  | case3 h place hpos =>
    rw [siftUp, if_neg hpos]
    exact .refl hv

theorem reordered_settle (hv : h.Valid) (place : Nat) : Reordered h (h.settle place) := by
  unfold settle
  split
  · next hlt =>
    have hr := reordered_siftDown hv place
    exact hr.trans (reordered_siftUp hr.valid _ (by rw [hr.size]; exact hlt))
  · exact .refl hv

/-! ## Membership -/

/-- What is on the heap after an index is put there. -/
theorem valid_insert (hv : h.Valid) (hi : i < h.values.size) :
    (h.insert i).Valid ∧ (h.insert i).values = h.values ∧
      ∀ j, (h.insert i).contains j = true ↔ j = i ∨ h.contains j = true := by
  unfold insert
  split
  · next hc =>
    refine ⟨hv, rfl, fun j => ⟨.inr, ?_⟩⟩
    rintro (rfl | hj)
    · exact hc
    · exact hj
  · next hc =>
    have hi' : i < h.slots.size := by rw [hv.slots]; exact hi
    have hnone : h.slot? i = none := by simpa [contains] using hc
    have hlast : ∀ j, h.heap[h.heap.size]? ≠ some j := fun j => by simp
    have hvalid : ({ h with
        heap := h.heap.push i
        slots := h.slots.setIfInBounds i (some h.size) } : IndexedHeap α).Valid := by
      refine ⟨by simp [hv.slots], fun j place => ?_⟩
      rw [slot?_set _ _ _ _ hi', Array.getElem?_push]
      by_cases h1 : j = i
      · subst h1
        by_cases h2 : place = h.heap.size
        · simp [h2, size]
        · have : h.heap[place]? ≠ some j := fun he => by
            rw [← hv.inverse, hnone] at he
            simp at he
          simp [h2, Ne.symm h2, size, this]
      · by_cases h2 : place = h.heap.size
        · subst h2
          rw [if_neg h1, if_pos rfl]
          refine ⟨fun he => absurd ((hv.inverse j _).1 he) (hlast j), fun he => ?_⟩
          exact absurd (Option.some.inj he).symm h1
        · rw [if_neg h1, if_neg h2]
          exact hv.inverse j place
    have hr := reordered_siftUp hvalid h.size (by simp [size])
    refine ⟨hr.valid, hr.values, fun j => ?_⟩
    rw [hr.contains, contains, slot?_set _ _ _ _ hi']
    by_cases h1 : j = i
    · simp [h1]
    · rw [if_neg h1]
      exact ⟨.inr, fun hj => hj.resolve_left h1⟩

/-- What is on the heap after an index is taken off. -/
theorem valid_erase (hv : h.Valid) (i : Nat) :
    (h.erase i).Valid ∧ (h.erase i).values = h.values ∧
      (∀ j, (h.erase i).contains j = true ↔ j ≠ i ∧ h.contains j = true) ∧
      (h.contains i = true → (h.erase i).size + 1 = h.size) := by
  unfold erase
  split
  · next hnone =>
    have hc : h.contains i = false := by simp [contains, hnone]
    refine ⟨hv, rfl, fun j => ⟨fun hj => ⟨?_, hj⟩, fun hj => hj.2⟩, fun hi => ?_⟩
    · rintro rfl
      simp [hc] at hj
    · simp [hc] at hi
  · next place hsome =>
    have hget := (hv.inverse i place).1 hsome
    have hp := hv.place_lt hsome
    have hr := reordered_swap hv hp (b := h.size - 1) (by omega)
    have hback : (h.swap place (h.size - 1)).heap[h.size - 1]? = some i := by
      rw [heap_swap_eq hp (by omega), Equiv.swap_apply_right, hget]
    have hsize := hr.size
    generalize h.swap place (h.size - 1) = g at hr hback hsize
    have hlast : g.heap[g.size - 1]? = some i := hsize ▸ hback
    have hs := reordered_settle (valid_dropLast hr.valid hlast) place
    refine ⟨hs.valid, hs.values.trans hr.values, fun j => ?_, fun _ => ?_⟩
    · rw [hs.contains, contains, slot?_dropLast hr.valid hlast, ← hr.contains, contains]
      by_cases h1 : j = i
      · simp [h1]
      · simp [h1]
    · rw [hs.size]
      simp only [size, dropLast, Array.size_pop] at *
      omega

/-- A new value for an index leaves the same indices on the heap. -/
theorem valid_setValue (hv : h.Valid) (i : Nat) (x : α) :
    (h.setValue i x).Valid ∧ (h.setValue i x).values = h.values.setIfInBounds i x ∧
      ∀ j, (h.setValue i x).contains j = h.contains j := by
  have hv' : ({ h with values := h.values.setIfInBounds i x } : IndexedHeap α).Valid :=
    ⟨by simp [hv.slots], hv.inverse⟩
  unfold setValue
  simp only
  split
  · exact ⟨hv', rfl, fun _ => rfl⟩
  · next place hsome =>
    have hp : place < h.size := hv'.place_lt hsome
    have h1 := reordered_siftUp hv' place hp
    have h2 := h1.trans (reordered_siftDown h1.valid place)
    exact ⟨h2.valid, h2.values, h2.contains⟩

end Order

theorem valid_mapValues (hv : h.Valid) (f : α → α) : (h.mapValues f).Valid :=
  ⟨by simp [mapValues, hv.slots], hv.inverse⟩

/-- More indices with a value, none of them on the heap. -/
theorem valid_growTo (hv : h.Valid) (n : Nat) (x : α) :
    (h.growTo n x).Valid ∧ (h.growTo n x).values.size = max h.values.size n ∧
      ∀ j, (h.growTo n x).contains j = h.contains j := by
  have hslot : ∀ j, (h.growTo n x).slot? j = h.slot? j := fun j => by
    simp only [slot?, growTo, Array.getD_eq_getD_getElem?, Array.getElem?_append,
      Array.getElem?_replicate]
    by_cases hj : j < h.slots.size
    · simp [hj]
    · rw [if_neg hj, Array.getElem?_eq_none (Nat.le_of_not_lt hj)]
      split <;> rfl
  refine ⟨⟨by simp [growTo, hv.slots], fun i place => ?_⟩, ?_, fun j => ?_⟩
  · rw [hslot]
    exact hv.inverse i place
  · simp only [growTo, Array.size_append, Array.size_replicate]
    omega
  · rw [contains, hslot, contains]

theorem valid_empty : ({} : IndexedHeap α).Valid :=
  ⟨rfl, fun i place => by simp [slot?]⟩

end IndexedHeap

end ClauseLearning

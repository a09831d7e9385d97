import ClauseLearning.Order.Basic
import ClauseLearning.Proofs.Order.Heap
import ClauseLearning.Proofs.Order.Queue

/-!
# The orders of decision

Both orders are kept in shape at all times, but only the active one is told what happens, so only of the
active one it can be said that no variable which may be decided is missing from it.

* `Orders.Valid` — both orders are in shape, over the usable variables.
* `Orders.Covers` — the active order represents every variable of some kind.
* `Orders.Valid.next` — the active order finds a variable to decide, if there is one.
-/

namespace ClauseLearning

variable {n : Nat} {usable free : Nat → Prop} {a : Assignment}

/-! ## Scores -/

namespace Scores

variable {s s' s'' : Scores}

/-- Scores changed, but the same variables are on the heap. -/
structure Rescored (s s' : Scores) : Prop where
  /-- The heap is in shape. -/
  valid : s'.heap.Valid
  /-- There is a score for the same variables. -/
  count : s'.heap.values.size = s.heap.values.size
  /-- The same variables are on the heap. -/
  contains : ∀ v, s'.heap.contains v = s.heap.contains v

theorem Rescored.refl (h : s.heap.Valid) : Rescored s s := ⟨h, rfl, fun _ => rfl⟩

theorem Rescored.trans (h : Rescored s s') (h' : Rescored s' s'') : Rescored s s'' :=
  ⟨h'.valid, h'.count.trans h.count, fun v => (h'.contains v).trans (h.contains v)⟩

theorem rescored_setValue (h : s.heap.Valid) (v : Nat) (score : Float) :
    Rescored s { s with heap := s.heap.setValue v score } := by
  obtain ⟨hv, hs, hc⟩ := IndexedHeap.valid_setValue h v score
  exact ⟨hv, (congrArg Array.size hs).trans Array.size_setIfInBounds, hc⟩

theorem rescored_bumpSum (h : s.heap.Valid) (v : Nat) : Rescored s (s.bumpSum v) := by
  obtain ⟨hv, hs, hc⟩ := rescored_setValue h v (s.score v + s.increment)
  unfold bumpSum
  simp only
  split
  · exact ⟨IndexedHeap.valid_mapValues hv _, Array.size_map.trans hs, hc⟩
  · exact ⟨hv, hs, hc⟩

theorem rescored_bumpAverage (h : s.heap.Valid) (conflicts v : Nat) :
    Rescored s (s.bumpAverage conflicts v) := by
  obtain ⟨hv, hs, hc⟩ := rescored_setValue h v ((1.0 - s.step) * s.score v + s.step *
    (1.0 / floatOfCount (conflicts - s.lastConflict.getD v 0 + 1)))
  exact ⟨hv, hs, hc⟩

theorem rescored_foldl {f : Scores → Nat → Scores}
    (hf : ∀ (s : Scores) (v : Nat), s.heap.Valid → Rescored s (f s v)) (vs : List Nat)
    (h : s.heap.Valid) : Rescored s (vs.foldl f s) := by
  induction vs generalizing s with
  | nil => exact .refl h
  | cons v vs ih => exact (hf s v h).trans (ih (hf s v h).valid)

theorem rescored_bump (h : s.heap.Valid) (vs : List Nat) (conflicts : Nat) :
    Rescored s (s.bump vs conflicts) := by
  unfold bump
  split
  · obtain ⟨hv, hs, hc⟩ := rescored_foldl (fun s v h => rescored_bumpSum (s := s) h v) vs h
    exact ⟨hv, hs, hc⟩
  · obtain ⟨hv, hs, hc⟩ :=
      rescored_foldl (fun s v h => rescored_bumpAverage (s := s) h conflicts v) vs h
    exact ⟨hv, hs, hc⟩

/-- Putting variables on the heap, one after another. -/
theorem valid_reinsertAll (vs : List Nat) (h : s.heap.Valid)
    (hvs : ∀ v ∈ vs, v < s.heap.values.size) :
    (vs.foldl reinsert s).heap.Valid ∧
      (vs.foldl reinsert s).heap.values.size = s.heap.values.size ∧
      ∀ v, (vs.foldl reinsert s).heap.contains v = true ↔ v ∈ vs ∨ s.heap.contains v = true := by
  induction vs generalizing s with
  | nil => exact ⟨h, rfl, fun v => by simp⟩
  | cons v vs ih =>
    obtain ⟨h₁, hs₁, hc₁⟩ := IndexedHeap.valid_insert h (hvs v (List.mem_cons_self ..))
    have hs₁' : (s.reinsert v).heap.values.size = s.heap.values.size := congrArg Array.size hs₁
    obtain ⟨h₂, hs₂, hc₂⟩ := ih (s := s.reinsert v) h₁ fun w hw => by
      rw [hs₁']
      exact hvs w (List.mem_cons_of_mem _ hw)
    refine ⟨h₂, hs₂.trans hs₁', fun w => ?_⟩
    have : (s.reinsert v).heap.contains w = true ↔ w = v ∨ s.heap.contains w = true := hc₁ w
    rw [List.foldl_cons, hc₂, this, List.mem_cons, ← or_assoc, or_comm (a := w ∈ vs)]

/-- New variables go on the heap, with new scores. -/
theorem valid_growTo (h : s.heap.Valid) {n m : Nat} (hcount : s.heap.count = n) (hm : n < m) :
    (s.growTo m).heap.Valid ∧ (s.growTo m).heap.values.size = m ∧
      ∀ v, (s.growTo m).heap.contains v = true ↔ n ≤ v ∧ v < m ∨ s.heap.contains v = true := by
  obtain ⟨g1, g2, g3⟩ := IndexedHeap.valid_growTo h m (0.0 : Float)
  have hsize : s.heap.values.size = n := hcount
  unfold growTo
  rw [hcount]
  obtain ⟨h1, h2, h3⟩ := valid_reinsertAll
    (s := { s with
      heap := s.heap.growTo m 0.0
      lastConflict := s.lastConflict ++ Array.replicate (m - s.lastConflict.size) 0 })
    (List.range' n (m - n)) g1 (fun v hv => by
      have := List.mem_range'_1.1 hv
      change v < (s.heap.growTo m 0.0).values.size
      rw [g2]
      omega)
  refine ⟨h1, h2.trans (g2.trans (by omega)), fun v => (h3 v).trans ?_⟩
  show v ∈ List.range' n (m - n) ∨ (s.heap.growTo m 0.0).contains v = true ↔ _
  rw [g3, List.mem_range'_1, Nat.add_sub_cancel' (Nat.le_of_lt hm)]

/-- Assigned variables have left the heap until one was found that is not assigned, if there was one. -/
structure Popped (a : Assignment) (s : Scores) (v? : Option Nat) (s' : Scores) : Prop where
  /-- The heap is in shape. -/
  valid : s'.heap.Valid
  /-- There are as many scores as before. -/
  count : s'.heap.values.size = s.heap.values.size
  /-- Nothing new is on the heap. -/
  contains : ∀ w, s'.heap.contains w = true → s.heap.contains w = true
  /-- Unassigned variables stay on the heap. -/
  kept : ∀ w, a.valueOf w = .unassigned → s.heap.contains w = true → s'.heap.contains w = true
  /-- What is found is unassigned and on the heap. -/
  found : ∀ v, v? = some v → a.valueOf v = .unassigned ∧ s'.heap.contains v = true
  /-- Where nothing is found, no unassigned variable was on the heap. -/
  exhausted : v? = none → ∀ w, a.valueOf w = .unassigned → s.heap.contains w = false

/-- Popping assigned variables ends at an unassigned one, if there is one on the heap. -/
theorem popped_popAssigned (a : Assignment) {steps : Nat} (h : s.heap.Valid) (hsteps : s.heap.size < steps) :
    Popped a s (s.popAssigned a steps).1 (s.popAssigned a steps).2 := by
  induction steps generalizing s with
  | zero => omega
  | succ steps ih =>
    unfold popAssigned
    cases hm : s.heap.max? with
    | none =>
      exact ⟨h, rfl, fun _ hw => hw, fun _ _ hw => hw, fun _ hv => by simp at hv, fun _ w _ =>
        (IndexedHeap.max?_eq_none_iff h).1 hm w⟩
    | some v =>
      have hv := IndexedHeap.max?_contains h hm
      by_cases hun : a.valueOf v = .unassigned
      · simp only [hun, if_true]
        exact ⟨h, rfl, fun _ hw => hw, fun _ _ hw => hw, fun _ hw => Option.some.inj hw ▸ ⟨hun, hv⟩, fun hw => by
          simp at hw⟩
      · simp only [hun, if_false]
        have hpop : s.heap.popMax.2 = s.heap.erase v := by simp only [IndexedHeap.popMax, hm]
        obtain ⟨h₁, hs₁, hc₁, hsize₁⟩ := IndexedHeap.valid_erase h v
        -- the variable that leaves is assigned
        have hkeep : ∀ w, a.valueOf w = .unassigned → s.heap.contains w = true →
            (s.heap.erase v).contains w = true := fun w hw hc => (hc₁ w).2 ⟨by
          rintro rfl
          exact hun hw, hc⟩
        have := ih (s := { s with heap := s.heap.popMax.2 }) (by rw [hpop]; exact h₁) (by
          have := hsize₁ hv
          rw [hpop]
          change (s.heap.erase v).size < steps
          omega)
        rw [hpop] at this ⊢
        exact ⟨this.valid, this.count.trans (congrArg Array.size hs₁),
          fun w hw => ((hc₁ w).1 (this.contains w hw)).2, fun w hw hc => this.kept w hw (hkeep w hw hc), this.found,
          fun hn w hw => Bool.eq_false_iff.2 fun hc =>
            Bool.eq_false_iff.1 (this.exhausted hn w hw) (hkeep w hw hc)⟩

end Scores

/-! ## Both orders -/

namespace Orders

variable {o : Orders} {v : Nat}

/-- Both orders are in shape, over `n` variables of which some are usable. -/
structure Valid (n : Nat) (usable : Nat → Prop) (o : Orders) : Prop where
  /-- The heap is in shape. -/
  heap : o.scores.heap.Valid
  /-- There is a score for each variable. -/
  count : o.scores.heap.values.size = n
  /-- Only usable variables are on the heap. -/
  onHeap : ∀ v, o.scores.heap.contains v = true → usable v
  /-- The queue is in shape, and every usable variable is in it. -/
  queue : ∃ L, o.queue.Spells L ∧ ∀ v, v ∈ L ↔ usable v
  /-- There is a link for each variable. -/
  links : o.queue.links.size = n

/-- The active order represents every variable of some kind. -/
def Covers (o : Orders) (free : Nat → Prop) : Prop :=
  if o.stable then ∀ v, free v → o.scores.heap.contains v = true else o.queue.Covers free

/-- Where no variable is free, none is lost. -/
theorem covers_of_not (o : Orders) (h : ∀ v, ¬ free v) : o.Covers free := by
  unfold Covers
  split
  · exact fun v hv => absurd hv (h v)
  · exact fun v hv => absurd hv (h v)

theorem Covers.mono {free' : Nat → Prop} (h : o.Covers free) (hf : ∀ v, free' v → free v) :
    o.Covers free' := by
  unfold Covers at *
  split
  · next hs =>
    rw [if_pos hs] at h
    exact fun v hv => h v (hf v hv)
  · next hs =>
    rw [if_neg hs] at h
    exact fun v hv => h v (hf v hv)

namespace Valid

theorem lt (h : Valid n usable o) (hv : usable v) : v < n := by
  obtain ⟨L, hL, hm⟩ := h.queue
  rw [← h.links]
  exact hL.lt_size ((hm v).2 hv)

theorem congr {usable' : Nat → Prop} (h : Valid n usable o) (hu : ∀ v, usable' v ↔ usable v) :
    Valid n usable' o := by
  obtain ⟨L, hL, hm⟩ := h.queue
  exact ⟨h.heap, h.count, fun v hv => (hu v).2 (h.onHeap v hv),
    ⟨L, hL, fun v => (hm v).trans (hu v).symm⟩, h.links⟩

/-- What the active order covers would be found by a search when all other variables are assigned. -/
theorem represents (h : Valid n usable o) (hc : o.Covers free) (hf : ∀ v, free v → usable v)
    (hv : free v) : o.represents v = true := by
  obtain ⟨L, hL, hm⟩ := h.queue
  unfold Orders.represents
  unfold Covers at hc
  split
  · next hs =>
    rw [if_pos hs] at hc
    exact hc v hv
  · next hs =>
    rw [if_neg hs] at hc
    exact (hL.represents_iff ((hm v).2 (hf v hv))).2 (hc v hv)

/-- The active order finds a variable to decide, if there is one. -/
theorem next (h : Valid n usable o) (hf : ∀ v, free v ↔ usable v ∧ a.valueOf v = .unassigned)
    (hc : o.Covers free) :
    match o.next? a with
    | (found, o') => Valid n usable o' ∧ o'.Covers free ∧ o'.stable = o.stable ∧
        (∀ v, found = some v → free v) ∧ (found = none → ∀ v, ¬ free v) := by
  unfold next?
  unfold Covers at hc
  by_cases hs : o.stable = true
  · rw [if_pos hs] at hc ⊢
    have hp := Scores.popped_popAssigned a h.heap (Nat.lt_succ_self _)
    refine ⟨⟨hp.valid, hp.count.trans h.count, fun w hw => h.onHeap w (hp.contains w hw), h.queue, h.links⟩,
      ?_, rfl, fun v hv => ?_, fun hn v hv => ?_⟩
    · rw [Covers, if_pos hs]
      exact fun w hw => hp.kept w ((hf w).1 hw).2 (hc w hw)
    · obtain ⟨hun, hon⟩ := hp.found v hv
      exact (hf v).2 ⟨h.onHeap v (hp.contains v hon), hun⟩
    · have := hp.exhausted hn v ((hf v).1 hv).2
      rw [hc v hv] at this
      simp at this
  · rw [if_neg hs] at hc ⊢
    obtain ⟨L, hL, hm⟩ := h.queue
    have := hL.next (a := a) (fun v => by rw [hf, hm]) hc
    split at this
    · next v q' heq =>
      simp only [heq]
      obtain ⟨h1, h2, h3, h4⟩ := this
      refine ⟨⟨h.heap, h.count, h.onHeap, ⟨L, h2, hm⟩, h4.trans h.links⟩, ?_, trivial,
        fun w hw => Option.some.inj hw ▸ h1, fun hn => by simp at hn⟩
      rw [Covers, if_neg hs]
      exact h3
    · next q' heq =>
      obtain ⟨hnone, rfl⟩ := this
      simp only [heq]
      refine ⟨h, ?_, trivial, fun w hw => by simp at hw, fun _ => hnone⟩
      rw [Covers, if_neg hs]
      exact hc

theorem reinsert (h : Valid n usable o) (hv : usable v) (hc : o.Covers free) :
    Valid n usable (o.reinsert v) ∧ ((o.reinsert v).Covers fun w => w = v ∨ free w) ∧
      (o.reinsert v).stable = o.stable := by
  unfold Orders.reinsert
  unfold Covers at hc
  by_cases hs : o.stable = true
  · rw [if_pos hs] at hc ⊢
    obtain ⟨h1, h2, h3⟩ := IndexedHeap.valid_insert h.heap (i := v) (by rw [h.count]; exact h.lt hv)
    refine ⟨⟨h1, (congrArg Array.size h2).trans h.count, fun w hw => ?_, h.queue, h.links⟩, ?_, rfl⟩
    · rcases (h3 w).1 hw with rfl | hw
      · exact hv
      · exact h.onHeap w hw
    · rw [Covers, if_pos hs]
      rintro w (rfl | hw)
      · exact (h3 w).2 (.inl rfl)
      · exact (h3 w).2 (.inr (hc w hw))
  · rw [if_neg hs] at hc ⊢
    obtain ⟨L, hL, hm⟩ := h.queue
    have hvL := (hm v).2 hv
    obtain ⟨h1, h2, -, h4⟩ := hL.advanceSearch hvL hc
    have hr : o.queue.reinsert v = o.queue.advanceSearch v := by
      rw [VarQueue.reinsert, (hL.contains v).2 hvL, if_pos rfl]
    refine ⟨⟨h.heap, h.count, h.onHeap, ⟨L, hr ▸ h1, hm⟩, by rw [hr, h2]; exact h.links⟩, ?_, rfl⟩
    rw [Covers, if_neg hs, hr]
    exact h4

/-- Scores change, but the variables on the heap stay. -/
theorem rescored (h : Valid n usable o) (hc : o.Covers free) {scores : Scores}
    (hr : Scores.Rescored o.scores scores) :
    Valid n usable { o with scores } ∧ ({ o with scores } : Orders).Covers free := by
  refine ⟨⟨hr.valid, hr.count.trans h.count, fun v hv => h.onHeap v (hr.contains v ▸ hv), h.queue, h.links⟩, ?_⟩
  unfold Covers at hc ⊢
  split
  · next hs =>
    rw [if_pos hs] at hc
    exact fun v hv => (hr.contains v).trans (hc v hv)
  · next hs => rwa [if_neg hs] at hc

theorem bump (h : Valid n usable o) (hf : ∀ v, free v ↔ usable v ∧ a.valueOf v = .unassigned)
    (hc : o.Covers free) (vs : List Nat) (conflicts : Nat) :
    Valid n usable (o.bump a vs conflicts).2 ∧ (o.bump a vs conflicts).2.Covers free ∧
      ∀ v, v ∈ (o.bump a vs conflicts).1 ↔ v ∈ vs := by
  unfold Orders.bump
  by_cases hs : o.stable = true
  · rw [if_pos hs]
    obtain ⟨hv, hc⟩ := h.rescored hc (Scores.rescored_bump h.heap vs conflicts)
    exact ⟨hv, hc, fun _ => Iff.rfl⟩
  · rw [Covers, if_neg hs] at hc
    rw [if_neg hs]
    obtain ⟨L, hL, hm⟩ := h.queue
    obtain ⟨h1, h2, h3⟩ :=
      hL.bumpAll (a := a) (fun v hv => by rw [hm]; exact (hf v).1 hv) hc (o.queue.sorted vs)
    refine ⟨⟨h.heap, h.count, h.onHeap, ⟨_, h1, fun v => (VarQueue.mem_foldl_moveLast _).trans (hm v)⟩,
      h3.trans h.links⟩, ?_, fun v => mem_sortBy⟩
    rw [Covers, if_neg hs]
    exact h2

theorem switch (h : Valid n usable o) (stable : Bool) {vs : List Nat}
    (hvs : ∀ v ∈ vs, usable v) :
    Valid n usable (o.switch stable vs) ∧ (o.switch stable vs).Covers fun v => v ∈ vs := by
  unfold Orders.switch Orders.reconcile
  cases stable with
  | true =>
    obtain ⟨h1, h2, h3⟩ := Scores.valid_reinsertAll vs h.heap
      fun v hv => by rw [h.count]; exact h.lt (hvs v hv)
    refine ⟨⟨h1, h2.trans h.count, fun v hv => ?_, h.queue, h.links⟩, fun v hv => ?_⟩
    · rcases (h3 v).1 hv with hv | hv
      · exact hvs v hv
      · exact h.onHeap v hv
    · exact (h3 v).2 (.inl hv)
  | false =>
    obtain ⟨L, hL, hm⟩ := h.queue
    obtain ⟨h1, h2⟩ := hL.reconcile
    exact ⟨⟨h.heap, h.count, h.onHeap, ⟨L, h1, hm⟩, h.links⟩,
      fun v hv => h2 v ((hm v).2 (hvs v hv))⟩

theorem deactivate (h : Valid n usable o) (hc : o.Covers free) (hf : ∀ w, free w → usable w)
    (v : Nat) :
    Valid n (fun w => w ≠ v ∧ usable w) (o.deactivate v) ∧
      (o.deactivate v).Covers (fun w => w ≠ v ∧ free w) := by
  obtain ⟨L, hL, hm⟩ := h.queue
  obtain ⟨h1, h2, h3, -⟩ := IndexedHeap.valid_erase h.heap v
  obtain ⟨q1, q2, q3⟩ := hL.deactivate v
  refine ⟨⟨h1, (congrArg Array.size h2).trans h.count, fun w hw => ?_, ⟨L.erase v, q1, fun w => ?_⟩,
    q2.trans h.links⟩, ?_⟩
  · exact ⟨((h3 w).1 hw).1, h.onHeap w ((h3 w).1 hw).2⟩
  · rw [hL.nodup.mem_erase_iff, hm]
  · unfold Covers at hc ⊢
    by_cases hs : o.stable = true
    · rw [if_pos hs] at hc
      rw [if_pos (by exact hs)]
      exact fun w hw => (h3 w).2 ⟨hw.1, hc w hw.2⟩
    · rw [if_neg hs] at hc
      rw [if_neg (by exact hs)]
      exact q3 free (fun w hw => (hm w).2 (hf w hw)) hc

theorem growTo (h : Valid n usable o) (hc : o.Covers free) {m : Nat} (hm : n < m) :
    Valid m (fun v => usable v ∨ n ≤ v ∧ v < m) (o.growTo m) ∧
      (o.growTo m).Covers (fun v => free v ∧ usable v ∨ n ≤ v ∧ v < m) := by
  obtain ⟨L, hL, hmem⟩ := h.queue
  obtain ⟨h1, h2, h3⟩ := Scores.valid_growTo h.heap h.count hm
  obtain ⟨q1, q2, q3, -⟩ := hL.growTo m
  rw [h.links] at q1 q2 q3
  have hmem' : ∀ v, v ∈ L ++ List.range' n (m - n) ↔ usable v ∨ n ≤ v ∧ v < m := fun v => by
    rw [List.mem_append, hmem, List.mem_range'_1, Nat.add_sub_cancel' (Nat.le_of_lt hm)]
  refine ⟨⟨h1, h2, fun v hv => ?_, ⟨_, q1, hmem'⟩, q2.trans (Nat.max_eq_right (Nat.le_of_lt hm))⟩, ?_⟩
  · rcases (h3 v).1 hv with hv | hv
    · exact .inr hv
    · exact .inl (h.onHeap v hv)
  · unfold Covers at hc ⊢
    by_cases hs : o.stable = true
    · rw [if_pos hs] at hc
      rw [if_pos (by exact hs)]
      rintro v (⟨hv, -⟩ | hv)
      · exact (h3 v).2 (.inr (hc v hv))
      · exact (h3 v).2 (.inl hv)
    · rw [if_neg (by exact hs)]
      rintro v (⟨-, hv⟩ | hv)
      · exact q3 hm v ((hmem' v).2 (.inl hv))
      · exact q3 hm v ((hmem' v).2 (.inr hv))

end Valid

theorem valid_ofSettings (c : Settings) : Valid 0 (fun _ => False) (ofSettings c) :=
  ⟨IndexedHeap.valid_empty, rfl, fun v hv => by simp [ofSettings, Scores.ofSettings,
    IndexedHeap.contains, IndexedHeap.slot?] at hv,
    ⟨[], VarQueue.spells_empty, fun v => by simp⟩, rfl⟩

end Orders

end ClauseLearning

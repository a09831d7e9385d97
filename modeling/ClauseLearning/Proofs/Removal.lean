import ClauseLearning.Proofs.Binaries

/-!
# Removing binary clauses

A binary clause is removed by taking the first watch on it out of both lists.  As the lists have the copies of a
clause in the same order, it is the same copy that goes.  Where as many are removed as there are, none is left.

* `Watches.view_removeBinary`, `Watches.pairs_removeBinary` — one copy is removed.
* `Watches.removeAll` — several clauses are removed, with `Watches.pairs_removeAll`.
-/

namespace ClauseLearning

namespace Watches

variable {w : Watches} {a b l o : Literal}

/-! ## One copy -/

theorem findIdx?_of (w : Watches) (a : Literal) (p : Watch → Bool) : (w.of a).findIdx? p = (w.view a).findIdx? p := by
  rw [view, ← List.findIdx?_toArray, Array.toArray_toList]

/-- The list without the first watch with an other literal. -/
theorem view_removeHalf (w : Watches) (a b l : Literal) :
    (w.removeHalf a b).2.view l =
      if l = a then (w.view l).eraseP (Watch.isBinaryWith b) else w.view l := by
  have herase : (w.view a).eraseP (Watch.isBinaryWith b) = _ := List.eraseP_eq_eraseIdx
  rw [← findIdx?_of] at herase
  unfold removeHalf
  simp only
  by_cases hl : l = a
  · subst hl
    rw [if_pos rfl, herase]
    cases hi : (w.of l).findIdx? (Watch.isBinaryWith b) with
    | none => rfl
    | some i =>
      by_cases hr : l.code < w.lists.size
      · simp only [view_set _ hr, if_true, Array.toList_eraseIdxIfInBounds]
        rfl
      · have hnil : w.of l = #[] := by
          rw [of_eq, Array.getElem?_eq_none (Nat.le_of_not_lt hr)]
          rfl
        rw [hnil] at hi
        simp at hi
  · rw [if_neg hl]
    cases (w.of a).findIdx? (Watch.isBinaryWith b) with
    | none => rfl
    | some i =>
      by_cases hr : a.code < w.lists.size
      · simp only [view_set _ hr, if_neg hl]
      · simp [set, Array.setIfInBounds, hr]

@[simp] theorem size_removeHalf (w : Watches) (a b : Literal) :
    (w.removeHalf a b).2.lists.size = w.lists.size := by
  unfold removeHalf
  simp only
  split <;> simp

/-- Both lists without the first watch on a clause. -/
theorem view_removeBinary (hne : a ≠ b) :
    (w.removeBinary a b).2.view l =
      if l = a then (w.view l).eraseP (Watch.isBinaryWith b)
      else if l = b then (w.view l).eraseP (Watch.isBinaryWith a) else w.view l := by
  unfold removeBinary
  simp only [view_removeHalf]
  by_cases hl : l = a
  · subst hl
    simp [hne]
  · simp [hl]

@[simp] theorem size_removeBinary (w : Watches) (a b : Literal) :
    (w.removeBinary a b).2.lists.size = w.lists.size := by
  unfold removeBinary
  simp

theorem filterMap_noteOn_eraseP (ws : List Watch) (b o : Literal) :
    (ws.eraseP (Watch.isBinaryWith b)).filterMap (Watch.noteOn o) =
      if o = b then (ws.filterMap (Watch.noteOn o)).tail else ws.filterMap (Watch.noteOn o) := by
  induction ws with
  | nil => simp
  | cons x ws ih =>
    cases x with
    | large d r =>
      have hstep : (Watch.large d r :: ws).eraseP (Watch.isBinaryWith b) =
          .large d r :: ws.eraseP (Watch.isBinaryWith b) := by
        simp [Watch.isBinaryWith]
      rw [hstep]
      simpa [List.filterMap_cons] using ih
    | binary other r y =>
      by_cases hb : other = b
      · subst hb
        by_cases ho : o = other
        · simp [Watch.isBinaryWith, Watch.noteOn, ho]
        · simp [Watch.isBinaryWith, Watch.noteOn, ho, Ne.symm ho]
      · have hstep : (Watch.binary other r y :: ws).eraseP (Watch.isBinaryWith b) =
            .binary other r y :: ws.eraseP (Watch.isBinaryWith b) := by
          simp [Watch.isBinaryWith, hb]
        rw [hstep]
        by_cases ho : o = b
        · subst ho
          simpa [List.filterMap_cons, Watch.noteOn, hb] using ih
        · simp only [if_neg ho] at ih ⊢
          rw [List.filterMap_cons, List.filterMap_cons, ih]

/-- The first copy of a clause is removed, in either list. -/
theorem pairs_removeBinary {c : BinaryClause} (hne : c.a ≠ c.b) :
    pairs (w.removeBinary c.a c.b).2.view l o =
      if joins l o c then (pairs w.view l o).tail else pairs w.view l o := by
  obtain ⟨a, b, r, y⟩ := c
  simp only at hne
  simp only [pairs, view_removeBinary hne, joins]
  by_cases hl : l = a
  · subst hl
    rw [if_pos rfl, filterMap_noteOn_eraseP]
    by_cases ho : o = b
    · simp [ho]
    · simp [ho, Ne.symm ho, Ne.symm hne]
  · rw [if_neg hl]
    by_cases hb : l = b
    · subst hb
      rw [if_pos rfl, filterMap_noteOn_eraseP]
      by_cases ho : o = a
      · simp [ho]
      · simp [ho, Ne.symm ho, hne]
    · rw [if_neg hb]
      simp [Ne.symm hl, Ne.symm hb]

theorem sublist_removeBinary (hne : a ≠ b) : ((w.removeBinary a b).2.view l).Sublist (w.view l) := by
  rw [view_removeBinary hne]
  split
  · exact List.eraseP_sublist
  · split
    · exact List.eraseP_sublist
    · exact .refl _

/-! ## Several clauses -/

/-- Removes a copy for each of some binary clauses. -/
def removeAll (w : Watches) (cs : List BinaryClause) : Watches :=
  cs.foldl (fun w c => (w.removeBinary c.a c.b).2) w

@[simp] theorem size_removeAll (w : Watches) (cs : List BinaryClause) :
    (w.removeAll cs).lists.size = w.lists.size := by
  unfold removeAll
  induction cs generalizing w with
  | nil => rfl
  | cons c cs ih => simp [ih]

/-- As many copies are removed as there are clauses with both literals. -/
theorem pairs_removeAll {cs : List BinaryClause} (hne : ∀ c ∈ cs, c.a ≠ c.b) :
    pairs (w.removeAll cs).view l o = (pairs w.view l o).drop (cs.countP (joins l o)) := by
  unfold removeAll
  induction cs generalizing w with
  | nil => simp
  | cons c cs ih =>
    rw [List.foldl_cons, ih fun c' hc' => hne c' (List.mem_cons_of_mem _ hc'),
      pairs_removeBinary (hne c (List.mem_cons_self ..)), List.countP_cons]
    split
    · rw [← List.drop_one, List.drop_drop, Nat.add_comm]
    · simp

theorem sublist_removeAll {cs : List BinaryClause} (hne : ∀ c ∈ cs, c.a ≠ c.b) :
    ((w.removeAll cs).view l).Sublist (w.view l) := by
  unfold removeAll
  induction cs generalizing w with
  | nil => exact .refl _
  | cons c cs ih =>
    exact (ih fun c' hc' => hne c' (List.mem_cons_of_mem _ hc')).trans
      (sublist_removeBinary (hne c (List.mem_cons_self ..)))

end Watches

end ClauseLearning

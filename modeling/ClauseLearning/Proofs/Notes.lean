import ClauseLearning.Proofs.Wiring

/-!
# Marks of variables and flags of clauses

Analysis leaves marks on variables, and many procedures change the flags of clauses.  Neither touches a
value, a level, a reason or a literal of a clause, so the clauses are wired as before.

* `Assignment.Remarked` — other marks on the same assignment.
* `Solver.Wired.alike`, `Solver.refines_alike` — other flags on the same clauses.
* `Solver.Touched` — other marks and flags, and other notes of what was analyzed.
-/

namespace ClauseLearning

/-! ## Marks -/

/-- Other marks on the same assignment. -/
structure Assignment.Remarked (a a' : Assignment) : Prop where
  /-- The values are the same. -/
  values : a'.values = a.values
  /-- There are as many records. -/
  size : a'.records.size = a.records.size
  /-- Levels are the same. -/
  level : ∀ v, (a'.record v).level = (a.record v).level
  /-- Reasons are the same. -/
  reason : ∀ v, (a'.record v).reason = (a.record v).reason

/-- Changing the records of several variables, where the record of an unknown variable stays as it is. -/
theorem Assignment.record_foldl_modify (a : Assignment) {f : Assigned → Assigned} (hf : f {} = {})
    (hi : ∀ r, f (f r) = f r) (vs : List Nat) :
    (vs.foldl (fun a v => a.modify v f) a).values = a.values ∧
      (vs.foldl (fun a v => a.modify v f) a).records.size = a.records.size ∧
      ∀ w, (vs.foldl (fun a v => a.modify v f) a).record w =
        if w ∈ vs then f (a.record w) else a.record w := by
  induction vs generalizing a with
  | nil => exact ⟨rfl, rfl, fun w => by simp⟩
  | cons v vs ih =>
    have hrec : ∀ w, (a.modify v f).record w = if w = v then f (a.record v) else a.record w := by
      intro w
      simp only [record, Assignment.modify, Array.getD_eq_getD_getElem?, Array.getElem?_modify]
      by_cases hw : w = v
      · subst hw
        by_cases hlt : w < a.records.size
        · simp [hlt]
        · simp [hlt, hf]
      · simp [hw, Ne.symm hw]
    obtain ⟨h1, h2, h3⟩ := ih (a.modify v f)
    refine ⟨h1, h2.trans (by simp [Assignment.modify]), fun w => ?_⟩
    rw [List.foldl_cons, h3, hrec]
    by_cases hw : w = v
    · subst hw
      simp [hi]
    · simp [hw]

namespace Assignment.Remarked

variable {a a' a'' : Assignment}

theorem refl (a : Assignment) : Remarked a a := ⟨rfl, rfl, fun _ => rfl, fun _ => rfl⟩

theorem trans (h : Remarked a a') (h' : Remarked a' a'') : Remarked a a'' :=
  ⟨h'.values.trans h.values, h'.size.trans h.size, fun v => (h'.level v).trans (h.level v),
    fun v => (h'.reason v).trans (h.reason v)⟩

theorem value_eq (h : Remarked a a') : a'.value = a.value := by
  funext l
  simp only [Assignment.value, h.values]

theorem level_eq (h : Remarked a a') : a'.level = a.level := by
  funext l
  simp only [Assignment.level, h.level]

theorem reason_eq (h : Remarked a a') : a'.reason = a.reason := by
  funext l
  simp only [Assignment.reason, h.reason]

theorem sized {n : Nat} (h : Remarked a a') (hs : a.Sized n) : a'.Sized n :=
  ⟨by rw [h.values, hs.values], by rw [h.size, hs.records], by rw [h.value_eq]; exact hs.opposite⟩

/-- Changing the marks in the record of a variable. -/
theorem modify {n : Nat} (hs : a.Sized n) {v : Nat} (hv : v < n) {f : Assigned → Assigned}
    (hl : ∀ r, (f r).level = r.level) (hr : ∀ r, (f r).reason = r.reason) :
    Remarked a (a.modify v f) := by
  refine ⟨rfl, (hs.modify v f).records.trans hs.records.symm, fun w => ?_, fun w => ?_⟩
  · rw [record_modify hs hv]
    split
    · next he => rw [hl, he]
    · rfl
  · rw [record_modify hs hv]
    split
    · next he => rw [hr, he]
    · rfl

/-- Clearing marks in the records of several variables. -/
theorem foldl_modify (a : Assignment) {f : Assigned → Assigned} (hf : f {} = {})
    (hl : ∀ r, (f r).level = r.level) (hr : ∀ r, (f r).reason = r.reason) (hi : ∀ r, f (f r) = f r)
    (vs : List Nat) :
    Remarked a (vs.foldl (fun a v => a.modify v f) a) ∧
      ∀ w, (vs.foldl (fun a v => a.modify v f) a).record w =
        if w ∈ vs then f (a.record w) else a.record w := by
  obtain ⟨hv, hs, hrec⟩ := a.record_foldl_modify hf hi vs
  refine ⟨⟨hv, hs, fun w => ?_, fun w => ?_⟩, hrec⟩
  · rw [hrec]
    split
    · exact hl _
    · rfl
  · rw [hrec]
    split
    · exact hr _
    · rfl

theorem guard {t : Trail} {p : Nat} {late : Prop} {x b y d : Literal} {c : List Literal}
    (h : Remarked a a') (hg : Guard t a p late x b y d c) : Guard t a' p late x b y d c :=
  hg.imp (fun l _ hf => ⟨hf, by rw [h.level_eq]⟩)
    (fun _ _ _ m _ _ => ⟨by rw [h.value_eq], by rw [h.level_eq]⟩) id fun _ hm => hm

theorem grounded {t : Trail} {st : Store} {i : Nat} (h : Remarked a a') :
    Grounded t a' st i ↔ Grounded t a st i := by
  simp only [Grounded, Forced, h.reason_eq, h.level_eq]

end Assignment.Remarked

/-! ## Marks of literals -/

/-- Setting or clearing marks, one after another. -/
theorem getElem?_setAll (b : Bool) (ls : List Literal) (m : Array Bool) :
    (ls.foldl (fun m l => m.setIfInBounds l.code b) m).size = m.size ∧
      ∀ i, (ls.foldl (fun m l => m.setIfInBounds l.code b) m)[i]? =
        if i < m.size ∧ i ∈ ls.map Literal.code then some b else m[i]? := by
  induction ls generalizing m with
  | nil => simp
  | cons l ls ih =>
    obtain ⟨h1, h2⟩ := ih (m.setIfInBounds l.code b)
    rw [Array.size_setIfInBounds] at h1
    refine ⟨h1, fun i => ?_⟩
    rw [List.foldl_cons, h2, Array.size_setIfInBounds, Array.getElem?_setIfInBounds]
    simp only [List.map_cons, List.mem_cons]
    by_cases hi : i < m.size
    · by_cases hl : i ∈ ls.map Literal.code
      · simp [hi, hl]
      · by_cases he : i = l.code
        · subst he
          simp [hi]
        · simp [hi, hl, he, Ne.symm he]
    · by_cases he : l.code = i
      · simp [hi, he]
      · simp [hi, he]

namespace Solver

variable {ε : Type} {lags : Prop} {s : Solver ε}

/-- Marks which are set and cleared again. -/
theorem mark_mark {n : Nat} (ls : Array Literal) (h : s.marks = Array.replicate n false) :
    ((s.mark ls true).mark ls false).marks = s.marks := by
  simp only [mark, ← Array.foldl_toList]
  refine Array.ext_getElem? fun i => ?_
  obtain ⟨h1, h2⟩ := getElem?_setAll true ls.toList s.marks
  rw [(getElem?_setAll false ls.toList _).2, h1, h2, h]
  by_cases hi : i < n
  · simp [hi]
  · simp [hi]

end Solver

/-! ## Flags -/

namespace Store

variable {s s' : Store} {usable : Nat → Prop} {view : Literal → List Watch}

theorem Good.alike (h : s.Good usable) (ha : Alike s s') : s'.Good usable :=
  ⟨ha.chain, fun o ho => by rw [ha.offsets] at ho; rw [ha.lits o ho]; exact h.nodup o ho,
    fun o ho => by rw [ha.offsets] at ho; rw [ha.lits o ho]; exact h.usable o ho⟩

theorem Alike.first {o : Nat} (ha : Alike s s') (hc : s.Chain 0) (ho : o ∈ s.offsets) :
    s'.literalAt o 0 = s.literalAt o 0 ∧ s'.literalAt o 1 = s.literalAt o 1 := by
  have := (hc.mem ho).2.three
  exact ⟨ha.literalAt ho (by omega), ha.literalAt ho (by omega)⟩

theorem Watched.alike (h : s.Watched view) (hc : s.Chain 0) (ha : Alike s s') :
    s'.Watched view := by
  refine h.kept (current_iff ha.epoch ha.offsets) (fun r l hr => ?_) (fun r l hr hl => ?_)
    (fun _ => rfl) h.blocking
  · obtain ⟨h0, h1⟩ := ha.first hc hr.2
    rw [h0, h1]
  · rwa [ha.lits r.offset hr.2]

end Store

namespace Solver

variable {ε : Type} {lags : Prop} {s : Solver ε} {st' : Store} {p : Nat}

/-- The clauses are wired as before, with other flags. -/
theorem Wired.alike (h : s.Wired lags p) (ha : Store.Alike s.store st')
    (hr : ∀ o ∈ s.store.offsets, (s.store.flagsAt o).redundant = true →
      (st'.flagsAt o).redundant = true) :
    Wired lags { s with store := st' } p where
  store := h.store.alike ha
  paired := h.paired
  watched := h.watched.alike h.store.chain ha
  grounded i hi := (h.grounded i hi).alike ha
  reasons := h.reasons
  guarded := by
    refine ⟨h.guarded.binary, fun r x b y d hx hy hne => ?_⟩
    have ho := (h.watched.current hx).2
    simp only
    rw [ha.lits _ ho]
    exact (h.guarded.large r x b y d hx hy hne).mono fun hl => ⟨hl.1, hr _ ho hl.2⟩
  recent r hr' := ⟨ha.current (h.recent r hr').1, hr _ (h.recent r hr').1.2 (h.recent r hr').2⟩

/-- What is known with other flags, if no clause which is never dropped is given up. -/
theorem refines_alike (ha : Store.Alike s.store st')
    (hb : ∀ v, Base { s with store := st' } v → ∀ o ∈ s.store.offsets,
      (s.store.flagsAt o).redundant = false → (s.store.flagsAt o).garbage = false →
        v.Satisfies (s.store.lits o)) :
    Refines s { s with store := st' } := by
  refine ⟨rfl, rfl, rfl, rfl, rfl, rfl, rfl, id, fun v h => ?_, fun v h => ?_⟩
  · refine { h with large := fun o ho => ?_ }
    have ho : o ∈ s.store.offsets := ha.offsets ▸ ho
    simp only
    rw [ha.lits o ho]
    exact h.large o ho
  · exact { h with large := hb v h }

end Solver

/-! ## Both -/

/-- The same clauses, with other notes of how recently they were used. -/
structure Store.Reused (s s' : Store) : Prop extends Alike s s' where
  /-- Only the count of uses has changed. -/
  flags : ∀ o ∈ s.offsets, ∃ used, s'.flagsAt o = { s.flagsAt o with used }

namespace Store.Reused

variable {s s' s'' : Store}

theorem refl (h : s.Chain 0) : Reused s s := ⟨.refl h, fun o _ => ⟨(s.flagsAt o).used, rfl⟩⟩

theorem trans (h : Reused s s') (h' : Reused s' s'') : Reused s s'' := by
  refine ⟨h.toAlike.trans h'.toAlike, fun o ho => ?_⟩
  obtain ⟨u, hu⟩ := h.flags o ho
  obtain ⟨u', hu'⟩ := h'.flags o (h.offsets ▸ ho)
  exact ⟨u', by rw [hu', hu]⟩

theorem of_reflagged {o u : Nat} {f : Flags} (h : Reflagged o f s s')
    (hf : f = { s.flagsAt o with used := u }) : Reused s s' := by
  refine ⟨h.toAlike, fun o' ho' => ?_⟩
  by_cases he : o' = o
  · rw [he, h.flags, hf]
    exact ⟨_, rfl⟩
  · rw [h.others o' ho' he]
    exact ⟨(s.flagsAt o').used, rfl⟩

theorem redundant (h : Reused s s') {o : Nat} (ho : o ∈ s.offsets) :
    (s'.flagsAt o).redundant = (s.flagsAt o).redundant := by
  obtain ⟨u, hu⟩ := h.flags o ho
  rw [hu]

theorem garbage (h : Reused s s') {o : Nat} (ho : o ∈ s.offsets) :
    (s'.flagsAt o).garbage = (s.flagsAt o).garbage := by
  obtain ⟨u, hu⟩ := h.flags o ho
  rw [hu]

theorem reason (h : Reused s s') {o : Nat} (ho : o ∈ s.offsets) :
    (s'.flagsAt o).reason = (s.flagsAt o).reason := by
  obtain ⟨u, hu⟩ := h.flags o ho
  rw [hu]

end Store.Reused

namespace Solver

variable {ε : Type} {lags : Prop} {S s s' : Solver ε} {p : Nat}

/-- A solver with other marks, other notes of how recently clauses were used, and other notes of what was
analyzed. -/
structure Touched (S s : Solver ε) : Prop where
  /-- Nothing else has changed. -/
  eq : ∃ store assignment learned analyzed minimized,
    s = { S with store, assignment, learned, analyzed, minimized }
  /-- The clauses are the same. -/
  store : S.store.Reused s.store
  /-- The assignment is the same. -/
  marks : S.assignment.Remarked s.assignment

namespace Touched

theorem trans (h : Touched S s) (h' : Touched s s') : Touched S s' := by
  obtain ⟨⟨_, _, _, _, _, he⟩, hs, hm⟩ := h
  obtain ⟨⟨_, _, _, _, _, he'⟩, hs', hm'⟩ := h'
  refine ⟨?_, hs.trans hs', hm.trans hm'⟩
  rw [he', he]
  exact ⟨_, _, _, _, _, rfl⟩

theorem trail (h : Touched S s) : s.trail = S.trail := by
  obtain ⟨⟨_, _, _, _, _, rfl⟩, -, -⟩ := h
  rfl

theorem watches (h : Touched S s) : s.watches = S.watches := by
  obtain ⟨⟨_, _, _, _, _, rfl⟩, -, -⟩ := h
  rfl

theorem frame (h : Touched S s) (hf : S.Frame) : s.Frame := by
  obtain ⟨⟨st, a, _, _, _, rfl⟩, -, hm⟩ := h
  have hm : S.assignment.Remarked a := hm
  refine { hf with
    sized := hm.sized hf.sized
    trail := hf.trail.congr (fun l => by rw [hm.value_eq]) fun l => by rw [hm.level_eq]
    covers := hf.covers.mono fun v hv => ⟨hv.1, ?_⟩ }
  have := hv.2
  simp only [Assignment.valueOf, hm.value_eq] at this
  exact this

theorem wired (h : Touched S s) (hw : S.Wired lags p) : s.Wired lags p := by
  obtain ⟨⟨st, a, _, _, _, rfl⟩, hs, hm⟩ := h
  have hs : S.store.Reused st := hs
  have hm : S.assignment.Remarked a := hm
  have h' := hw.alike hs.toAlike fun o ho hr => by rw [hs.redundant ho, hr]
  refine { h' with
    grounded := fun i hi => hm.grounded.2 (h'.grounded i hi)
    reasons := fun l hl o ho => h'.reasons l hl o (by
      rwa [Assignment.reason, hm.reason, ← Assignment.reason] at ho)
    guarded := ⟨fun l o r y hb => hm.guard (h'.guarded.binary l o r y hb),
      fun r x b y d hx hy hne => hm.guard (h'.guarded.large r x b y d hx hy hne)⟩ }

theorem refines (h : Touched S s) : Refines S s := by
  obtain ⟨⟨st, a, _, _, _, rfl⟩, hs, hm⟩ := h
  have hs : S.store.Reused st := hs
  have hm : S.assignment.Remarked a := hm
  have h' : Refines S { S with store := st } := refines_alike hs.toAlike fun v hv o ho hr hg => by
    rw [← hs.lits o ho]
    exact hv.large o (hs.offsets.symm ▸ ho) (by rw [← hr]; exact hs.redundant ho)
      (by rw [← hg]; exact hs.garbage ho)
  refine ⟨rfl, rfl, rfl, rfl, rfl, rfl, rfl, id, fun v hv => ?_, fun v hv => h'.base v ?_⟩
  · have hv' := h'.holds v hv
    exact { hv' with
      root := fun l hl h0 => hv'.root l hl (by rwa [hm.level_eq] at h0)
      reasons := fun l hl o ho => hv'.reasons l hl o (by rwa [hm.reason_eq] at ho) }
  · exact { hv with root := fun l hl h0 => hv.root l hl (by rwa [hm.level_eq]) }

end Touched

end Solver

end ClauseLearning

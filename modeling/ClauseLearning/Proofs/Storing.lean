import ClauseLearning.Proofs.Notes

/-!
# Storing clauses

A clause of three or more literals goes to the end of the store and is watched by its first two literals.
All other clauses stay as they are.

* `Store.Appended.setFlagsAt` — the flags of the clause stored last.
* `Solver.Wired.append` — one more clause in the store, with its watches.
* `Solver.stores_append` — what is known then.
-/

namespace ClauseLearning

namespace Store

variable {s s' : Store} {ls : List Literal} {f g : Flags}

/-- Writing the flags of the clause stored last. -/
theorem Appended.setFlagsAt (h : Appended ls f s s') (g : Flags) :
    Appended ls g s (s'.setFlagsAt s.words.size g) := by
  have ho : s.words.size ∈ s'.offsets := by
    rw [h.offsets]
    exact List.mem_append_right _ (List.mem_cons_self ..)
  have hr := reflagged_setFlagsAt h.chain ho g
  refine ⟨hr.epoch.trans h.epoch, hr.size.trans h.size, hr.chain, hr.offsets.trans h.offsets,
    fun i hi => ?_, (hr.lits _ ho).trans h.lits, hr.flags⟩
  rw [Store.setFlagsAt, word_setWord, if_neg (by omega)]
  exact h.word i hi

theorem Appended.current_next (h : Appended ls f s s') : s'.Current s.nextReference :=
  ⟨h.epoch.symm, by rw [h.offsets]; exact List.mem_append_right _ (List.mem_cons_self ..)⟩

theorem Appended.mem_offsets (h : Appended ls f s s') {o : Nat} :
    o ∈ s'.offsets ↔ o ∈ s.offsets ∨ o = s.words.size := by
  rw [h.offsets, List.mem_append, List.mem_singleton]

theorem not_mem_offsets (hc : s.Chain 0) : s.words.size ∉ s.offsets := fun ho =>
  absurd (hc.mem ho).2.inside (Nat.lt_irrefl _)

theorem Good.append {usable : Nat → Prop} (h : s.Good usable) (ha : Appended ls f s s')
    (hn : (ls.map Literal.var).Nodup) (hu : ∀ l ∈ ls, usable l.var) : s'.Good usable := by
  refine ⟨ha.chain, fun o ho => ?_, fun o ho => ?_⟩
  · rcases ha.mem_offsets.1 ho with ho | rfl
    · rw [ha.lits_old h.chain ho]
      exact h.nodup o ho
    · rwa [ha.lits]
  · rcases ha.mem_offsets.1 ho with ho | rfl
    · rw [ha.lits_old h.chain ho]
      exact h.usable o ho
    · rwa [ha.lits]

/-- The first two literals of a clause. -/
theorem literalAt_of_lits {o : Nat} {x y : Literal} {tail : List Literal}
    (h : s.lits o = x :: y :: tail) : s.literalAt o 0 = x ∧ s.literalAt o 1 = y := by
  have h0 := congrArg (·[0]?) h
  have h1 := congrArg (·[1]?) h
  simp only [getElem?_lits] at h0 h1
  split at h0
  · split at h1
    · exact ⟨by simpa using h0, by simpa using h1⟩
    · simp at h1
  · simp at h0

end Store

/-! ## One more clause is watched -/

section Added

variable {view view' : Literal → List Watch} {r r' : Reference} {x y l b : Literal}
  (hview : ∀ l, view' l = if l = x then view l ++ [.large y r]
    else if l = y then view l ++ [.large x r] else view l)
include hview

/-- A watch is one that was there, or one of the two that were added. -/
theorem mem_large_of_added (hm : .large b r' ∈ view' l) :
    .large b r' ∈ view l ∨ r' = r ∧ (l = x ∧ b = y ∨ l = y ∧ b = x) := by
  rw [hview] at hm
  split at hm
  · next hl =>
    rcases List.mem_append.1 hm with hm | hm
    · exact .inl hm
    · obtain ⟨rfl, rfl⟩ := Watch.large.inj (List.mem_singleton.1 hm)
      exact .inr ⟨rfl, .inl ⟨hl, rfl⟩⟩
  · split at hm
    · next hl =>
      rcases List.mem_append.1 hm with hm | hm
      · exact .inl hm
      · obtain ⟨rfl, rfl⟩ := Watch.large.inj (List.mem_singleton.1 hm)
        exact .inr ⟨rfl, .inr ⟨hl, rfl⟩⟩
    · exact .inl hm

theorem filter_isBinary_added (l : Literal) :
    (view' l).filter Watch.isBinary = (view l).filter Watch.isBinary := by
  rw [hview]
  split
  · simp [Watch.isBinary]
  · split <;> simp [Watch.isBinary]

/-- A clause that was not watched before is guarded by the two literals which are watched now. -/
theorem Guarded.add {lags : Prop} {t : Trail} {a : Assignment} {st : Store} {p : Nat}
    (h : Guarded lags t a st view p) (hnew : ∀ l b, .large b r ∉ view l)
    (hg : Guard t a p (lags ∧ (st.flagsAt r.offset).redundant = true) x y y x (st.lits r.offset)) :
    Guarded lags t a st view' p := by
  refine ⟨fun l o r' y' hm => ?_, fun r' u b w d hu hw hne => ?_⟩
  · exact h.binary l o r' y' ((Solver.mem_of_isBinary (filter_isBinary_added hview l)).1 hm)
  · rcases mem_large_of_added hview hu with hu | ⟨rfl, hub⟩
    · rcases mem_large_of_added hview hw with hw | ⟨rfl, -⟩
      · exact h.large r' u b w d hu hw hne
      · exact absurd hu (hnew u b)
    · rcases mem_large_of_added hview hw with hw | ⟨-, hwd⟩
      · exact absurd hw (hnew w d)
      · rcases hub with ⟨rfl, rfl⟩ | ⟨rfl, rfl⟩
        · rcases hwd with ⟨rfl, rfl⟩ | ⟨rfl, rfl⟩
          · exact absurd rfl hne
          · exact hg
        · rcases hwd with ⟨rfl, rfl⟩ | ⟨rfl, rfl⟩
          · exact hg.symm
          · exact absurd rfl hne

end Added

/-- Guards stay where the clauses which are watched keep their literals and flags. -/
theorem Guarded.of_store {lags : Prop} {t : Trail} {a : Assignment} {st st' : Store}
    {view : Literal → List Watch} {p : Nat} (h : Guarded lags t a st view p)
    (hst : ∀ l b r, .large b r ∈ view l →
      st'.lits r.offset = st.lits r.offset ∧ st'.flagsAt r.offset = st.flagsAt r.offset) :
    Guarded lags t a st' view p :=
  ⟨h.binary, fun r x b y d hx hy hne => by
    obtain ⟨hl, hf⟩ := hst x b r hx
    rw [hl, hf]
    exact h.large r x b y d hx hy hne⟩

namespace Store

variable {s s' : Store} {ls : List Literal} {f g : Flags}

section WatchedOn

variable {on : Nat → Prop} {view view' : Literal → List Watch}

theorem Watched.some (h : s.Watched view) (hon : ∀ o ∈ s.offsets, on o) : s.WatchedOn on view :=
  ⟨h.nodup, fun l r => by
    rw [h.mem_iff]
    exact ⟨fun ⟨h1, h2⟩ => ⟨h1, hon _ h1.2, h2⟩, fun ⟨h1, _, h2⟩ => ⟨h1, h2⟩⟩, h.blocking⟩

theorem WatchedOn.all (h : s.WatchedOn on view) (hon : ∀ o ∈ s.offsets, on o) : s.Watched view :=
  ⟨h.nodup, fun l r => by
    rw [h.mem_iff]
    exact ⟨fun ⟨h1, _, h2⟩ => ⟨h1, h2⟩, fun ⟨h1, h2⟩ => ⟨h1, hon _ h1.2, h2⟩⟩, h.blocking⟩

/-- Clauses that are not watched may change. -/
theorem WatchedOn.congr (h : s.WatchedOn on view)
    (hcur : ∀ r, on r.offset → (s'.Current r ↔ s.Current r))
    (hlit : ∀ o ∈ s.offsets, on o → s'.lits o = s.lits o ∧ s'.literalAt o 0 = s.literalAt o 0 ∧
      s'.literalAt o 1 = s.literalAt o 1) : s'.WatchedOn on view := by
  refine ⟨h.nodup, fun l r => ?_, fun l b r hm => ?_⟩
  · rw [h.mem_iff]
    constructor
    · rintro ⟨h1, h2, h3⟩
      obtain ⟨-, h4, h5⟩ := hlit _ h1.2 h2
      exact ⟨(hcur r h2).2 h1, h2, by rwa [h4, h5]⟩
    · rintro ⟨h1, h2, h3⟩
      have h1' := (hcur r h2).1 h1
      obtain ⟨-, h4, h5⟩ := hlit _ h1'.2 h2
      exact ⟨h1', h2, by rwa [h4, h5] at h3⟩
  · obtain ⟨h1, h2, -⟩ := (h.mem_iff l r).1 (List.mem_filterMap.2 ⟨_, hm, rfl⟩)
    rw [(hlit _ h1.2 h2).1]
    exact h.blocking l b r hm

/-- One more clause is watched by its first two literals. -/
theorem WatchedOn.add {r : Reference} {x y : Literal} {tail : List Literal} (h : s.WatchedOn on view)
    (hr : s.Current r) (hn : ¬ on r.offset) (hl : s.lits r.offset = x :: y :: tail) (hne : x ≠ y)
    (hview : ∀ l, view' l = if l = x then view l ++ [.large y r]
      else if l = y then view l ++ [.large x r] else view l) :
    s.WatchedOn (fun o => on o ∨ o = r.offset) view' := by
  have hnew : ∀ l, r ∉ (view l).filterMap Watch.ref? := fun l hm => hn ((h.mem_iff l r).1 hm).2.1
  have hmem : ∀ l r', r' ∈ (view' l).filterMap Watch.ref? ↔
      r' ∈ (view l).filterMap Watch.ref? ∨ r' = r ∧ (x = l ∨ y = l) := fun l r' => by
    rw [hview]
    by_cases hx : l = x
    · simp [hx]
    · by_cases hy : l = y
      · rw [if_neg hx, if_pos hy]
        simp [hy]
      · simp [hx, hy, Ne.symm hx, Ne.symm hy]
  obtain ⟨h0, h1⟩ := literalAt_of_lits hl
  refine ⟨fun l => ?_, fun l r' => ?_, fun l b r' hm => ?_⟩
  · have hnd := h.nodup l
    have hdis : ∀ z, (view l ++ [Watch.large z r]).filterMap Watch.ref? =
        (view l).filterMap Watch.ref? ++ [r] := fun z => by simp
    have happ : ((view l).filterMap Watch.ref? ++ [r]).Nodup :=
      List.nodup_append.2 ⟨hnd, by simp, fun a ha b hb he => hnew l (by simp_all)⟩
    rw [hview]
    split
    · rw [hdis]
      exact happ
    · split
      · rw [hdis]
        exact happ
      · exact hnd
  · rw [hmem, h.mem_iff]
    constructor
    · rintro (⟨h1, h2, h3⟩ | ⟨rfl, h3⟩)
      · exact ⟨h1, .inl h2, h3⟩
      · exact ⟨hr, .inr rfl, by rwa [h0, h1]⟩
    · rintro ⟨hr', hon | ho, h3⟩
      · exact .inl ⟨hr', hon, h3⟩
      · rw [ho, h0, h1] at h3
        exact .inr ⟨hr.ext hr' ho, h3⟩
  · rcases mem_large_of_added hview hm with hm | ⟨rfl, hb⟩
    · exact h.blocking l b r' hm
    · rw [hl]
      rcases hb with ⟨-, rfl⟩ | ⟨-, rfl⟩ <;> simp

end WatchedOn

end Store

namespace Solver

variable {ε : Type} {lags : Prop} {s : Solver ε} {st' : Store} {p : Nat} {x y : Literal} {tail : List Literal}
  {f : Flags}

section Append

variable (hf : s.Frame) (ha : Store.Appended (x :: y :: tail) f s.store st')
  (hn : ((x :: y :: tail).map Literal.var).Nodup)
  (hu : ∀ l ∈ x :: y :: tail, s.numbering.Usable l.var)
include hf ha hn hu

omit ha in
theorem view_append (l : Literal) :
    (s.watches.addLarge s.store.nextReference x y).view l =
      if l = x then s.watches.view l ++ [.large y s.store.nextReference]
      else if l = y then s.watches.view l ++ [.large x s.store.nextReference]
      else s.watches.view l := by
  refine Watches.view_addLarge _ (hf.code_lt (hu x (by simp))) (hf.code_lt (hu y (by simp))) ?_ l
  rintro rfl
  simp at hn

/-- One more clause in the store, watched by its first two literals. -/
theorem Wired.append (h : s.Wired lags p) (h3 : 3 ≤ (x :: y :: tail).length)
    (hg : Guard s.trail s.assignment p (lags ∧ f.redundant = true) x y y x (x :: y :: tail)) :
    Wired lags { s with
      store := st'
      watches := s.watches.addLarge s.store.nextReference x y } p := by
  have hview := view_append hf hn hu
  have hc := h.store.chain
  have hcur : ∀ {r}, s.store.Current r → st'.Current r := ha.current
  have hne : x ≠ y := by
    rintro rfl
    simp at hn
  have hlit : ∀ {o}, o ∈ s.store.offsets → st'.literalAt o 0 = s.store.literalAt o 0 ∧
      st'.literalAt o 1 = s.store.literalAt o 1 := fun ho => by
    have := (h.store.hasAt ho).three
    exact ⟨ha.literalAt_old hc ho (by omega), ha.literalAt_old hc ho (by omega)⟩
  have hbin := filter_isBinary_added hview
  -- the clauses that were there are watched as before, and the new one is added to them
  have hold : st'.WatchedOn (· ∈ s.store.offsets) s.watches.view :=
    (h.watched.some fun _ ho => ho).congr
      (fun r ho => ⟨fun hr => ⟨hr.1.trans ha.epoch, ho⟩, hcur⟩)
      fun o ho _ => ⟨ha.lits_old hc ho, hlit ho⟩
  have hwatched := (hold.add ha.current_next (Store.not_mem_offsets hc) ha.lits hne hview).all
    fun o ho => ha.mem_offsets.1 ho
  have hin : ∀ {l b r}, .large b r ∈ s.watches.view l → r.offset ∈ s.store.offsets := fun hm =>
    (h.watched.current hm).2
  refine ⟨h.store.append ha hn hu, h.paired.congr hbin, hwatched, fun i hi => ?_, fun l hl o ho => ?_,
    ?_, fun r hr => ?_⟩
  · exact (h.grounded i hi).imp fun r rest _ hr hlits =>
      ⟨hcur hr, rest, (ha.lits_old hc hr.2).trans hlits, fun _ hm => hm⟩
  · refine (h.reasons l hl o ho).imp_left ?_
    rintro ⟨r, y', hm⟩
    exact ⟨r, y', (mem_of_isBinary (hbin l)).2 hm⟩
  · refine (h.guarded.of_store fun l b r hm => ⟨ha.lits_old hc (hin hm), ha.flagsAt_old hc (hin hm)⟩).add
      hview (fun l b hm => Store.not_mem_offsets hc (hin hm)) ?_
    rw [show s.store.nextReference.offset = s.store.words.size from rfl, ha.lits, ha.flags]
    exact hg
  · obtain ⟨hr', hred⟩ := h.recent r hr
    exact ⟨hcur hr', by rw [ha.flagsAt_old hc hr'.2]; exact hred⟩

/-- What is known with one more clause in the store. -/
theorem stores_append (hc : s.store.Chain 0) :
    Stores (x :: y :: tail) s { s with
      store := st'
      watches := s.watches.addLarge s.store.nextReference x y } := by
  have hview := view_append hf hn hu
  have hbin := filter_isBinary_added hview
  refine ⟨rfl, rfl, rfl, rfl, rfl, rfl, rfl, id, fun v hv h => ?_, fun v h => ?_⟩
  · refine { h with large := fun o ho => ?_, binary := fun l o r y' hm => ?_ }
    · rcases ha.mem_offsets.1 ho with ho | rfl
      · simp only
        rw [ha.lits_old hc ho]
        exact h.large o ho
      · simp only
        rw [ha.lits]
        exact hv
    · exact h.binary l o r y' ((mem_of_isBinary (hbin l)).1 hm)
  · refine { h with large := fun o ho hr hg => ?_, binary := fun l o y' hm => ?_ }
    · have := h.large o (ha.mem_offsets.2 (.inl ho))
      simp only at this
      rw [ha.flagsAt_old hc ho, ha.lits_old hc ho] at this
      exact this hr hg
    · exact h.binary l o y' ((mem_of_isBinary (hbin l)).2 hm)

/-- The invariant with one more clause in the store. -/
theorem Inv.append (h : s.Inv lags p) (h3 : 3 ≤ (x :: y :: tail).length) (hr : f.reason = false)
    (hg : Guard s.trail s.assignment p (lags ∧ f.redundant = true) x y y x (x :: y :: tail)) :
    Inv lags { s with
      store := st'
      watches := s.watches.addLarge s.store.nextReference x y } p where
  toFrame := { h.toFrame with
    lists := by
      simp only [Watches.addLarge, Watches.size_add]
      exact h.lists }
  toWired := h.toWired.append hf ha hn hu h3 hg
  toClean := ⟨h.marks, h.records, fun o ho => by
    rcases ha.mem_offsets.1 ho with ho | rfl
    · exact (congrArg Flags.reason (ha.flagsAt_old h.store.chain ho)).trans (h.unpinned o ho)
    · exact (congrArg Flags.reason ha.flags).trans hr⟩
  stored := h.stored

end Append

end Solver

end ClauseLearning

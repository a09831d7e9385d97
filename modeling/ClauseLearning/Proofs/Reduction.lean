import ClauseLearning.Proofs.Collection
import ClauseLearning.Proofs.Learning
import ClauseLearning.Solver.Reduce

/-!
# Reductions keep the invariant

A reduction marks only redundant clauses as garbage, so that nothing is lost which is never to be dropped.
Its collection starts at a clause that is garbage, or at the end of the store.

* `Solver.ends_candidates` — the search for what may go.
* `Solver.ends_markAll` — what goes.
* `Solver.ends_reduce` — a reduction.
-/

namespace ClauseLearning

namespace Solver

variable {ε : Type} {lags : Prop} {s s' : Solver ε} {start : Nat} {rs : List Reference}

/-- Where a collection may start, given the clauses that were looked at. -/
def Startable (start start' : Nat) (rs : List Reference) : Prop :=
  start' = start ∨ ∃ r ∈ rs, start' = r.offset

theorem Startable.cons {start' : Nat} {r : Reference} {first : Nat}
    (h : Startable first start' rs) (hf : first = start ∨ first = r.offset) :
    Startable start start' (r :: rs) := by
  rcases h with rfl | ⟨r', hr', rfl⟩
  · rcases hf with rfl | rfl
    · exact .inl rfl
    · exact .inr ⟨r, List.mem_cons_self .., rfl⟩
  · exact .inr ⟨r', List.mem_cons_of_mem _ hr', rfl⟩

/-- Looking for candidates changes only how often clauses were used, and what it finds is redundant. -/
theorem ends_candidates (hc : s.store.Chain 0) (hr : ∀ r ∈ rs, s.store.Current r) :
    Ends (candidates rs start) s
      (fun x s' => (∃ st', s' = { s with store := st' } ∧ s.store.Reused st') ∧
        Startable start x.1 rs ∧
        ∀ c ∈ x.2, s.store.Current c.reference ∧ (s.store.flagsAt c.reference.offset).redundant = true)
      fun _ _ => False := by
  induction rs generalizing s start with
  | nil =>
    exact ⟨⟨s.store, rfl, .refl hc⟩, .inl rfl, fun c hcm => by simp at hcm⟩
  | cons r rs ih =>
    have hcur := hr r (List.mem_cons_self ..)
    have htail : ∀ r' ∈ rs, s.store.Current r' := fun r' hr' => hr r' (List.mem_cons_of_mem _ hr')
    unfold candidates
    simp only [ends_bind, ends_onStore, Store.ends_locate hc hcur, ends_get]
    have hfirst : (if (s.store.flagsAt r.offset).garbage then min start r.offset else start) = start ∨
        (if (s.store.flagsAt r.offset).garbage then min start r.offset else start) = r.offset := by
      split
      · omega
      · exact .inl rfl
    generalize (if (s.store.flagsAt r.offset).garbage then min start r.offset else start) = first
      at hfirst
    simp only [ends_ite]
    refine ⟨fun _ => ?_, fun hred => ⟨fun _ => ?_, fun _ => ?_⟩⟩
    · refine (ih hc htail).imp (fun x s' hs' => ?_) fun _ _ hf => hf
      obtain ⟨h1, h2, h3⟩ := hs'
      exact ⟨h1, h2.cons hfirst, h3⟩
    · simp only [ends_bind, ends_onStore]
      refine (Store.ends_updateFlags hc hcur).imp (fun _ st₁ h₁ => ?_) fun _ _ hf => hf
      have hreused := Store.Reused.of_reflagged h₁ rfl
      refine (ih (s := { s with store := st₁ }) hreused.chain fun r' hr' =>
        hreused.current (htail r' hr')).imp (fun x s' hs' => ?_) fun _ _ hf => hf
      obtain ⟨⟨st', rfl, h1⟩, h2, h3⟩ := hs'
      refine ⟨⟨st', rfl, hreused.trans h1⟩, h2.cons hfirst, fun c hcm => ?_⟩
      obtain ⟨h4, h5⟩ := h3 c hcm
      have h4' := (Store.current_iff hreused.epoch hreused.offsets _).1 h4
      exact ⟨h4', (hreused.redundant h4'.2).symm.trans h5⟩
    · simp only [ends_bind, ends_pure]
      refine (ih hc htail).imp (fun x s' hs' => ?_) fun _ _ hf => hf
      obtain ⟨start', others⟩ := x
      obtain ⟨h1, h2, h3⟩ := hs'
      refine ⟨h1, h2.cons hfirst, fun c hcm => ?_⟩
      rcases List.mem_cons.1 hcm with rfl | hcm
      · refine ⟨hcur, ?_⟩
        simp only [Bool.or_eq_true, Bool.not_eq_true', not_or] at hred
        simpa using hred.1.1.1
      · exact h3 c hcm

/-- Redundant clauses become garbage. -/
theorem ends_markAll {cs : List Candidate} (hc : s.store.Chain 0)
    (hr : ∀ c ∈ cs, s.store.Current c.reference ∧
      (s.store.flagsAt c.reference.offset).redundant = true) :
    Ends (markAll cs start) s
      (fun start' s' => Weeded s s' ∧ Startable start start' (cs.map Candidate.reference))
      fun _ _ => False := by
  induction cs generalizing s start with
  | nil => exact ⟨.refl hc, .inl rfl⟩
  | cons c cs ih =>
    obtain ⟨hcur, hred⟩ := hr c (List.mem_cons_self ..)
    unfold markAll
    simp only [ends_bind, ends_onStore]
    refine (Store.ends_markGarbage hc hcur).imp (fun _ st₁ ht => ?_) fun _ _ hf => hf
    have hw : Weeded s { s with store := st₁ } := by
      refine ⟨⟨st₁, s.recent, s.counters, rfl⟩, ht.toAlike, fun o ho => ?_, fun _ h => h⟩
      obtain ⟨used, hu⟩ := ht.flags o ho
      simp only [hu]
      refine ⟨trivial, trivial, fun h0 => ?_⟩
      by_cases he : o = c.reference.offset
      · rw [he, hred] at h0
        simp at h0
      · simp [he]
    refine (ih (s := { s with store := st₁ }) ht.chain fun c' hc' => ?_).imp (fun start' s' hs' => ?_)
      fun _ _ hf => hf
    · obtain ⟨h1, h2⟩ := hr c' (List.mem_cons_of_mem _ hc')
      exact ⟨ht.current h1, (hw.flags _ h1.2).1.trans h2⟩
    · rw [List.map_cons]
      exact ⟨hw.trans hs'.1, hs'.2.cons (by omega)⟩

/-- Pinning, looking for candidates, and releasing the pins. -/
theorem ends_choose (h : s.Inv lags s.trail.size) :
    Ends (do
        pinReasons true
        let s ← get
        let x ← candidates s.store.references s.store.words.size
        pinReasons false
        return x) s
      (fun x s' => Weeded s s' ∧ Startable s.store.words.size x.1 s.store.references ∧
        ∀ c ∈ x.2, s.store.Current c.reference ∧ (s.store.flagsAt c.reference.offset).redundant = true)
      fun _ _ => False := by
  simp only [ends_bind, ends_get, ends_pure]
  have hc := h.store.chain
  refine (ends_pinReasons h.toFrame hc h.grounded).imp (fun _ s₁ hs₁ => ?_) fun _ _ hf => hf
  obtain ⟨st₁, rfl, hp₁⟩ := hs₁
  refine (ends_candidates (s := { s with store := st₁ }) hp₁.chain fun r hr =>
    Store.mem_references.1 hr).imp (fun x s₂ hs₂ => ?_) fun _ _ hf => hf
  obtain ⟨⟨st₂, rfl, hu⟩, hstart, hfound⟩ := hs₂
  have hu : st₁.Reused st₂ := hu
  have ha : Store.Alike s.store st₂ := hp₁.toAlike.trans hu.toAlike
  have hground : ∀ i < s.trail.size, Grounded s.trail s.assignment st₂ i := fun i hi => (h.grounded i hi).alike ha
  refine (ends_pinReasons (s := { s with store := st₂ }) { h.toFrame with } ha.chain hground).imp
    (fun _ s₃ hs₃ => ?_) fun _ _ hf => hf
  obtain ⟨st₃, rfl, hp₃⟩ := hs₃
  have hsize : st₁.words.size = s.store.words.size := hp₁.size
  have hrefs : st₁.references = s.store.references := by
    have hoff : st₁.offsetsFrom 0 = s.store.offsetsFrom 0 := hp₁.offsets
    simp only [Store.references, Store.referencesFrom, hoff, hp₁.epoch]
  refine ⟨⟨⟨st₃, s.recent, s.counters, rfl⟩, ha.trans hp₃.toAlike, fun o ho => ?_, fun _ hr => hr⟩, ?_,
    fun c hcm => ?_⟩
  · have ho₁ : o ∈ st₁.offsets := hp₁.offsets.symm ▸ ho
    have ho₂ : o ∈ st₂.offsets := ha.offsets.symm ▸ ho
    refine ⟨(hp₃.redundant ho₂).trans ((hu.redundant ho₁).trans (hp₁.redundant ho)), ?_,
      fun _ => (hp₃.garbage ho₂).trans ((hu.garbage ho₁).trans (hp₁.garbage ho))⟩
    rw [h.unpinned o ho]
    by_cases hr : s.IsReason o
    · refine hp₃.pinned o ho₂ ?_
      simpa only [IsReason, ha.epoch] using hr
    · refine (hp₃.others o ho₂ fun hr' => hr ?_).trans ((hu.reason ho₁).trans
        ((hp₁.others o ho hr).trans (h.unpinned o ho)))
      simpa only [IsReason, ha.epoch] using hr'
  · simp only at hstart
    rwa [hsize, hrefs] at hstart
  · obtain ⟨h1, h2⟩ := hfound c hcm
    have h1' := (Store.current_iff hp₁.epoch hp₁.offsets _).1 h1
    exact ⟨h1', (hp₁.redundant h1'.2).symm.trans h2⟩

theorem Startable.stop {start' : Nat} (h : Startable s.store.words.size start' rs)
    (hr : ∀ r ∈ rs, s.store.Current r) :
    s.store.Stop start' := by
  rcases h with rfl | ⟨r, hr', rfl⟩
  · exact .inr (.inr rfl)
  · exact .inr (.inl (hr r hr').2)

/-- Collecting from the first garbage clause on, where redundant clauses may have become garbage. -/
theorem Weeded.ends_collect (hw : Weeded s s') (h : s.Inv lags s.trail.size)
    (hfull : s.trail.propagated = s.trail.size) (hq : s.store.Stop start) :
    Ends (collect start .sparse) s' (fun _ s'' => Trimmed lags s s'') fun _ _ => False := by
  have hi := hw.inv h
  have href := hw.refines
  obtain ⟨⟨st', q, c, rfl⟩, ha, -, -⟩ := hw
  have ha : Store.Alike s.store st' := ha
  have hq' : st'.Stop start := by
    rcases hq with h0 | hm | he
    · exact .inl h0
    · exact .inr (.inl (ha.offsets.symm ▸ hm))
    · exact .inr (.inr (he.trans ha.size.symm))
  refine (Solver.ends_collect (hi.collectable hfull hq') (fun _ => hi.watched) hi.toClean hi.stored).imp
    (fun _ s'' hs'' => ?_) fun _ _ hf => hf
  obtain ⟨_, _, _, _, _, he⟩ := hs''.eq
  exact ⟨hs''.inv, href.trans hs''.refines, by rw [he], by rw [he], by rw [he]⟩

/-- What went before, or comes after, may be counted in if nothing depends on it. -/
theorem Trimmed.noted {counters counters' : Counters} {limits : Limits} {unflushed : Nat}
    (h : Trimmed lags { s with counters } s') :
    Trimmed lags s { s' with counters := counters', limits, unflushed } :=
  ⟨{ h.inv with
      toFrame := { h.inv.toFrame with }
      toWired := { h.inv.toWired with }
      toClean := { h.inv.toClean with } },
    { h.refines with
      holds := fun v hv => { h.refines.holds v { hv with } with }
      base := fun v hv => { h.refines.base v { hv with } with } }, h.trail, h.inconsistent, h.learned⟩

/-- A reduction. -/
theorem ends_reduce (h : s.Inv lags s.trail.size) (hfull : s.trail.propagated = s.trail.size) :
    Ends reduce s (fun _ s' => Trimmed lags s s') fun _ _ => False := by
  have h₀ : Inv lags (s.count fun c => { c with reductions := c.reductions + 1 }) s.trail.size :=
    { h with
      toFrame := { h.toFrame with }
      toWired := { h.toWired with }
      toClean := { h.toClean with } }
  have hchoose := ends_choose h₀
  unfold reduce
  simp only [ends_bind, ends_modify, ends_get, ends_pure] at hchoose ⊢
  refine hchoose.imp (fun _ s₁ h₁ => h₁.imp (fun x s₂ h₂ => h₂.imp (fun _ s₃ h₃ => ?_)
    fun _ _ hf => hf) fun _ _ hf => hf) fun _ _ hf => hf
  obtain ⟨hw, hstart, hfound⟩ := h₃
  have hcur : ∀ {r}, s.store.Current r → s₃.store.Current r := hw.store.current
  refine (ends_markAll hw.store.chain fun c hcm => ?_).imp (fun start' s₄ h₄ => ?_) fun _ _ hf => hf
  · have hcm := hfound c (List.mem_mergeSort.1 (List.mem_of_mem_take hcm))
    exact ⟨hcur hcm.1, (hw.flags _ hcm.1.2).1.trans hcm.2⟩
  · obtain ⟨hw', hstart'⟩ := h₄
    have hq : s.store.Stop start' := by
      rcases hstart' with rfl | ⟨r, hr, rfl⟩
      · exact hstart.stop fun r hr => Store.mem_references.1 hr
      · obtain ⟨c, hcm, rfl⟩ := List.mem_map.1 hr
        exact .inr (.inl (hfound c (List.mem_mergeSort.1 (List.mem_of_mem_take hcm))).1.2)
    exact ((hw.trans hw').ends_collect h₀ hfull hq).imp (fun _ s'' hs'' => hs''.noted) fun _ _ hf => hf

end Solver

end ClauseLearning

import ClauseLearning.Proofs.Rewatching

/-!
# Collections keep the invariant

A collection pins the reasons, takes watches away, sweeps the store, carries references over, watches clauses
afresh, and releases the pins.  What it leaves behind meets the invariant, with everything propagated, even
if what it started from was only fit to be collected.

* `Solver.Collected` — what is so after a collection, and `Solver.Trimmed` after a step with one in it.
* `Solver.Inv.collectable` — what the invariant is good for here.
* `Solver.ends_collect` — a collection.
-/

namespace ClauseLearning

namespace Solver

variable {ε : Type} {lags : Prop} {s s' S : Solver ε} {start p : Nat} {mode : CollectMode} {st' : Store}

/-- What is so after a collection. -/
structure Collected (lags : Prop) (s s' : Solver ε) : Prop where
  /-- Nothing else has changed. -/
  eq : ∃ counters store watches assignment recent,
    s' = { s with counters, store, watches, assignment, recent }
  /-- The invariant, with everything propagated. -/
  inv : s'.Inv lags s'.trail.propagated
  /-- What is known. -/
  refines : Refines s s'
  /-- What is left of a clause which was a reason is one. -/
  remains : ∀ l ∈ s.trail.literals, ∀ r, s.assignment.reason l = .large r →
    Remains s.assignment (s.store.lits r.offset) s'.store l (s'.assignment.reason l)
  /-- Other reasons stay. -/
  others : ∀ l ∈ s.trail.literals, (∀ r, s.assignment.reason l ≠ .large r) →
    s'.assignment.reason l = s.assignment.reason l
  /-- Recent clauses are forgotten. -/
  forgotten : s'.recent.toList = []
  /-- An epoch begins. -/
  epoch : s'.store.epoch = Store.nextEpoch s.store.epoch

/-- What is so after a step that collects garbage: the trail and the clause learnt last stay. -/
structure Trimmed (lags : Prop) (s s' : Solver ε) : Prop where
  /-- The invariant, with everything propagated. -/
  inv : s'.Inv lags s'.trail.propagated
  /-- What is known. -/
  refines : Refines s s'
  /-- The trail is as it was. -/
  trail : s'.trail = s.trail
  /-- Nothing is refuted. -/
  inconsistent : s'.inconsistent = s.inconsistent
  /-- The clause learnt last stays as it is noted. -/
  learned : s'.learned = s.learned

/-- A collection is such a step. -/
theorem Collected.trimmed (h : Collected lags s s') : Trimmed lags s s' := by
  have hinv := h.inv
  have href := h.refines
  obtain ⟨c, st, w, a, q, rfl⟩ := h.eq
  exact ⟨hinv, href, rfl, rfl, rfl⟩

/-- Where the invariant holds and everything was propagated, every clause can be watched. -/
theorem Inv.fits (h : s.Inv lags s.trail.size) {o : Nat} (ho : o ∈ s.store.offsets) :
    Fits s.numbering.Usable s.assignment (lags ∧ (s.store.flagsAt o).redundant = true)
      (s.store.lits o) := by
  obtain ⟨b, d, hb, hd⟩ := h.watched.exists_pair (r := ⟨o, s.store.epoch⟩) ⟨rfl, ho⟩
  have h3 := (h.store.hasAt ho).three
  have hne := h.store.literalAt_ne ho
  exact ⟨h.store.nodup o ho, h.store.usable o ho,
    (h.guarded.large _ _ b _ d hb hd hne).watchable h.trail h.sized (Store.literalAt_mem (by omega))
      (Store.literalAt_mem (by omega)) (h.watched.blocking _ b _ hb) (h.watched.blocking _ d _ hd) hne⟩

/-- A binary clause that is a reason is there. -/
theorem Inv.exists_reason (h : s.Inv lags p) {l o : Literal} (hl : l ∈ s.trail.literals)
    (ho : s.assignment.reason l = .binary o) : ∃ r y, .binary o r y ∈ s.watches.view l :=
  (h.reasons l hl o ho).resolve_right fun hd => by simp [h.stored] at hd

/-- Where the invariant holds and everything was propagated, a collection may start at any clause. -/
theorem Inv.collectable (h : s.Inv lags s.trail.size) (hfull : s.trail.propagated = s.trail.size)
    (hq : s.store.Stop start) : s.Collectable lags start :=
  ⟨h.toFrame, hfull, h.store.chain, hq, h.paired, h.guarded.binary, h.grounded,
    fun _ hl _ ho => h.exists_reason hl ho, fun _ ho _ => h.fits ho, fun _ ho _ => h.fits ho,
    fun r x b y d hx hy hne _ _ => h.guarded.large r x b y d hx hy hne⟩

/-- Only flags that do not matter have changed. -/
theorem Collectable.alike (h : s.Collectable lags start) (ha : Store.Alike s.store st')
    (hg : ∀ o ∈ s.store.offsets, (st'.flagsAt o).garbage = (s.store.flagsAt o).garbage)
    (hred : ∀ o ∈ s.store.offsets, (st'.flagsAt o).redundant = (s.store.flagsAt o).redundant) :
    Collectable lags { s with store := st' } start := by
  refine
    { h with
      frame := { h.frame with }
      chain := ha.chain
      stop := ?_
      grounded := fun i hi => (h.grounded i hi).alike ha
      fits := fun o ho hd => ?_
      early := fun o ho hlt => ?_
      large := fun r x b y d hx hy hne hcur hlt => ?_ }
  · rcases h.stop with h0 | hm | he
    · exact .inl h0
    · exact .inr (.inl (ha.offsets.symm ▸ hm))
    · exact .inr (.inr (he.trans ha.size.symm))
  · have ho : o ∈ s.store.offsets := ha.offsets ▸ ho
    simp only at hd ⊢
    rw [ha.lits o ho, hred o ho]
    rw [hg o ho] at hd
    exact h.fits o ho hd
  · have ho : o ∈ s.store.offsets := ha.offsets ▸ ho
    simp only
    rw [ha.lits o ho, hred o ho]
    exact h.early o ho hlt
  · have hcur : s.store.Current r := ⟨hcur.1.trans ha.epoch, ha.offsets ▸ hcur.2⟩
    simp only
    rw [ha.lits _ hcur.2, hred _ hcur.2]
    exact h.large r x b y d hx hy hne hcur hlt

/-! ## The steps -/

/-- Pinning reasons before a sweep. -/
theorem Collectable.ends_pin (h : s.Collectable lags start)
    (hu : ∀ o ∈ s.store.offsets, (s.store.flagsAt o).reason = false) :
    Ends (pinReasons true) s
      (fun _ s' => ∃ st', s' = { s with store := st' } ∧ Store.Repinned true s.IsReason s.store st' ∧
        s'.Collectable lags start ∧ ∀ o ∈ s'.store.offsets, (s'.store.flagsAt o).reason = true ↔ s'.IsReason o)
      fun _ _ => False := by
  refine (ends_pinReasons h.frame h.chain h.grounded).imp (fun _ s' hs' => ?_) fun _ _ hf => hf
  obtain ⟨st', rfl, hp⟩ := hs'
  refine ⟨st', rfl, hp, h.alike hp.toAlike (fun o ho => hp.garbage ho) fun o ho => hp.redundant ho,
    fun o ho => ?_⟩
  have ho : o ∈ s.store.offsets := hp.offsets ▸ ho
  have hiff : IsReason { s with store := st' } o ↔ s.IsReason o := by
    simp only [IsReason, hp.epoch]
  rw [hiff]
  by_cases hr : s.IsReason o
  · exact iff_of_true (hp.pinned o ho hr) hr
  · refine iff_of_false (fun ht => ?_) hr
    rw [hp.others o ho hr, hu o ho] at ht
    simp at ht

/-- The watches before a sweep. -/
def unwatch (start : Nat) (mode : CollectMode) (s : Solver ε) : Solver ε :=
  match mode with
  | .sparse => s.flushWatches start
  | .dense => { s with watches := s.watches.dropLarge }

/-- The position from which on no clause is watched then. -/
def unwatchedFrom (mode : CollectMode) (start : Nat) : Nat :=
  match mode with
  | .sparse => start
  | .dense => 0

theorem Collectable.unwatch (h : s.Collectable lags start) (hw : start ≠ 0 → s.store.Watched s.watches.view)
    (mode : CollectMode) :
    ∃ w, s.unwatch start mode = { s with watches := w } ∧ (s.unwatch start mode).Collectable lags start ∧
      s.store.WatchedOn (· < unwatchedFrom mode start) w.view ∧ Refines s (s.unwatch start mode) ∧
      (mode = .dense → ∀ l, ∀ x ∈ w.view l, x.isBinary = true) := by
  cases mode with
  | sparse => exact ⟨_, rfl, h.flush, watchedOn_flush hw, h.refines_flush, fun hm => by simp at hm⟩
  | dense =>
    have hview : ∀ l, s.watches.dropLarge.view l = (s.watches.view l).filter Watch.isBinary :=
      fun l => Watches.view_dropLarge
    have hmem : ∀ l x, x ∈ s.watches.dropLarge.view l ↔ x ∈ s.watches.view l ∧ x.isBinary = true :=
      fun l x => by rw [hview, List.mem_filter]
    have hnil : ∀ l, (s.watches.dropLarge.view l).filterMap Watch.ref? = [] := fun l => by
      refine List.filterMap_eq_nil_iff.2 fun x hx => ?_
      cases x with
      | binary => rfl
      | large b r => simp [hmem, Watch.isBinary] at hx
    have hfilter : ∀ l, (s.watches.dropLarge.view l).filter Watch.isBinary =
        (s.watches.view l).filter Watch.isBinary := fun l => by
      rw [hview, List.filter_filter]
      simp
    refine ⟨_, rfl, h.of_watches (Watches.size_dropLarge _) (h.paired.congr hfilter)
      (fun l x hx => ((hmem l x).1 hx).1) fun l hl o ho => ?_, ⟨fun l => ?_, fun l r => ?_, fun l b r hb => ?_⟩, ?_,
      fun _ l x hx => ((hmem l x).1 hx).2⟩
    · obtain ⟨r, y, hm⟩ := h.reasons l hl o ho
      exact ⟨r, y, (hmem l _).2 ⟨hm, rfl⟩⟩
    · rw [hnil]
      exact List.nodup_nil
    · rw [hnil]
      simp [unwatchedFrom]
    · simp [hmem, Watch.isBinary] at hb
    · exact ⟨rfl, rfl, rfl, rfl, rfl, rfl, rfl, id,
        fun v hv => { hv with binary := fun l o r y hb => hv.binary l o r y ((hmem l _).1 hb).1 },
        fun v hv => { hv with binary := fun l o y hb => hv.binary l o y ((hmem l _).2 ⟨hb, rfl⟩) }⟩

/-- The sweep, and the references that are carried over. -/
theorem Collectable.ends_sweep (h : s.Collectable lags start)
    (hpin : ∀ o ∈ s.store.offsets, (s.store.flagsAt o).reason = true ↔ s.IsReason o)
    (hw : s.store.WatchedOn (· < unwatchedFrom mode start) s.watches.view)
    (hm : mode = .dense → ∀ l, ∀ x ∈ s.watches.view l, x.isBinary = true) :
    (s.sweep start mode).1.start = start ∧
      ∃ st' a w, retag (s.sweep start mode).1 mode (s.sweep start mode).2 =
          { s with store := st', assignment := a, watches := w } ∧
        s.assignment.Rehomed a ∧ st'.Stop (unwatchedFrom mode start) ∧
        st'.epoch = Store.nextEpoch s.store.epoch ∧
        Rewiring lags (· < unwatchedFrom mode start) { s with store := st', assignment := a, watches := w } ∧
        Refines s { s with store := st', assignment := a, watches := w } ∧
        (∀ o ∈ st'.offsets, (st'.flagsAt o).reason = true →
          IsReason { s with store := st', assignment := a, watches := w } o) ∧
        ∀ l ∈ s.trail.literals,
          (∀ r, s.assignment.reason l = .large r →
            Remains s.assignment (s.store.lits r.offset) st' l (a.reason l)) ∧
          ((∀ r, s.assignment.reason l ≠ .large r) → a.reason l = s.assignment.reason l) := by
  obtain ⟨t, x, hsw, he⟩ := h.sweep hpin
  rw [he]
  refine ⟨rfl, ?_⟩
  obtain ⟨a, w, hre, ha, hr, hl, hview⟩ := retag_eq h hsw hm
  rw [hsw.moves.epoch] at hre
  have hfrom : unwatchedFrom mode start ≤ start ∧ t.Stop (unwatchedFrom mode start) := by
    cases mode with
    | sparse => exact ⟨Nat.le_refl _, hsw.moves.stop⟩
    | dense => exact ⟨Nat.zero_le _, .inl rfl⟩
  exact ⟨t, a, w, hre, ha, hfrom.2, hsw.moves.epoch, rewiring_carried h hsw ha hr hview hl hfrom.1 hw,
    refines_carried h hsw ha hr hview, fun o ho hp => isReason_carried hsw hr ho hp,
    fun l hl => remains_carried h hsw hr hl⟩

/-- Where every clause is watched and recent clauses are forgotten, all is wired. -/
theorem Rewiring.wired (h : s.Rewiring lags fun _ => True) :
    Wired lags { s with recent := s.recent.clear } s.trail.size where
  store := ⟨h.chain, fun o ho => (h.fits o ho).nodup, fun o ho => (h.fits o ho).usable⟩
  paired := h.paired
  watched := h.watched.all fun _ _ => trivial
  grounded := h.grounded
  reasons l hl o ho := .inl (h.reasons l hl o ho)
  guarded := h.guarded
  recent r hr := by
    rw [show (s.recent.clear).toList = [] from Recent.toList_clear _] at hr
    simp at hr

/-! ## The whole collection -/

/-- What is so after clauses were watched afresh and pins released. -/
structure Finished (lags : Prop) (s s' : Solver ε) : Prop where
  /-- Nothing else has changed. -/
  eq : ∃ store watches recent, s' = { s with store, watches, recent }
  /-- The invariant, with everything propagated. -/
  inv : s'.Inv lags s'.trail.propagated
  /-- What is known. -/
  refines : Refines s s'
  /-- The clauses are there, with their literals in another order. -/
  clauses : ∀ o ∈ s.store.offsets, o ∈ s'.store.offsets ∧ (s'.store.lits o).Perm (s.store.lits o)
  /-- Recent clauses are forgotten. -/
  forgotten : s'.recent.toList = []
  /-- The epoch stays. -/
  epoch : s'.store.epoch = s.store.epoch

/-- Watching the clauses afresh and releasing the pins. -/
theorem Rewiring.ends_finish (h : s.Rewiring lags (· < start)) (hq : s.store.Stop start)
    (hpin : ∀ o ∈ s.store.offsets, (s.store.flagsAt o).reason = true → s.IsReason o)
    (hmarks : s.marks = Array.replicate (2 * s.numbering.size) false)
    (hrecords : ∀ v, (s.assignment.record v).analyzed = false ∧
      (s.assignment.record v).removable = false ∧ (s.assignment.record v).poisoned = false)
    (hstored : s.derived = #[]) (hfull : s.trail.propagated = s.trail.size) :
    Ends (do
        Solver.rewatch start
        pinReasons false
        modify fun s => { s with recent := s.recent.clear }) s
      (fun _ s' => Finished lags s s') fun _ _ => False := by
  simp only [ends_bind, ends_modify]
  refine (ends_rewatch h hq).imp (fun _ s₁ hs₁ => ?_) fun _ _ hf => hf
  obtain ⟨⟨⟨st₁, w, rfl⟩, hre, -⟩, hw, href⟩ := hs₁
  have hre : Reordered s.store st₁ := hre
  refine (ends_pinReasons hw.frame hw.chain hw.grounded).imp (fun _ s₂ hs₂ => ?_) fun _ _ hf => hf
  obtain ⟨st₂, rfl, hp⟩ := hs₂
  have hwired := hw.wired.alike hp.toAlike fun o ho => (hp.redundant ho).trans
  refine ⟨⟨_, _, _, rfl⟩, ⟨{ hw.frame with }, hfull ▸ hwired, ⟨hmarks, hrecords, fun o ho => ?_⟩,
    hstored⟩, ?_, fun o ho => ?_, Recent.toList_clear _, hp.epoch.trans hre.epoch⟩
  · have ho₁ : o ∈ st₁.offsets := hp.offsets ▸ ho
    by_cases hr : IsReason { s with store := st₁, watches := w } o
    · exact hp.pinned o ho₁ hr
    · refine (hp.others o ho₁ hr).trans ?_
      rw [← Bool.not_eq_true]
      intro ht
      simp only [hre.flags o (hre.offsets ▸ ho₁)] at ht
      obtain ⟨l, hl, hlr⟩ := hpin o (hre.offsets ▸ ho₁) ht
      exact hr ⟨l, hl, by simp only [hre.epoch]; exact hlr⟩
  · have := href.trans (refines_repinned hp)
    exact { this with
      holds := fun v hv => { this.holds v hv with }
      base := fun v hv => this.base v { hv with } }
  · have ho₁ : o ∈ st₁.offsets := hre.offsets.symm ▸ ho
    refine ⟨hp.offsets.symm ▸ ho₁, ?_⟩
    simp only
    rw [hp.lits o ho₁]
    exact hre.perm o ho

/-- What is so after the whole, if clauses that are reasons were followed through the sweep. -/
theorem Finished.collected {st' : Store} {a : Assignment} {w : Watches}
    (h : Finished lags { s with store := st', assignment := a, watches := w } s')
    (href : Refines s { s with store := st', assignment := a, watches := w })
    (hep : st'.epoch = Store.nextEpoch s.store.epoch)
    (hremains : ∀ l ∈ s.trail.literals,
      (∀ r, s.assignment.reason l = .large r →
        Remains s.assignment (s.store.lits r.offset) st' l (a.reason l)) ∧
      ((∀ r, s.assignment.reason l ≠ .large r) → a.reason l = s.assignment.reason l)) :
    Collected lags s s' := by
  obtain ⟨⟨st₂, w₂, q, rfl⟩, hinv, href₂, hclauses, hrec, hep₂⟩ := h
  exact ⟨⟨_, st₂, w₂, a, q, rfl⟩, hinv, href.trans href₂,
    fun l hl r hr => ((hremains l hl).1 r hr).imp hclauses, fun l hl => (hremains l hl).2, hrec, hep₂.trans hep⟩

/-- What went before a collection may be counted in, if it changed neither reasons nor the literals of clauses. -/
theorem Collected.of_refines {s₀ : Solver ε} (h : Collected lags s s') (href : Refines s₀ s)
    (he : ∃ counters store watches, s = { s₀ with counters, store, watches })
    (hlits : ∀ l ∈ s₀.trail.literals, ∀ r, s₀.assignment.reason l = .large r →
      s.store.lits r.offset = s₀.store.lits r.offset)
    (hepoch : s.store.epoch = s₀.store.epoch) : Collected lags s₀ s' := by
  obtain ⟨c, st, w, rfl⟩ := he
  obtain ⟨⟨c', st', w', a', q, rfl⟩, hinv, href', hrem, hoth, hrec, hep⟩ := h
  exact ⟨⟨c', st', w', a', q, rfl⟩, hinv, href.trans href',
    fun l hl r hr => hlits l hl r hr ▸ hrem l hl r hr, hoth, hrec, hep.trans (by rw [hepoch])⟩

section Body

variable (h : s.Collectable lags start)
  (hpin : ∀ o ∈ s.store.offsets, (s.store.flagsAt o).reason = true ↔ s.IsReason o)
  (hmarks : s.marks = Array.replicate (2 * s.numbering.size) false)
  (hrecords : ∀ v, (s.assignment.record v).analyzed = false ∧
    (s.assignment.record v).removable = false ∧ (s.assignment.record v).poisoned = false)
  (hstored : s.derived = #[])
include h hpin hmarks hrecords hstored

/-- A collection from the sweep on. -/
theorem Collectable.ends_swept (hw : s.store.WatchedOn (· < unwatchedFrom mode start) s.watches.view)
    (hm : mode = .dense → ∀ l, ∀ x ∈ s.watches.view l, x.isBinary = true) :
    Ends (do
        let relocation ← modifyGet (Solver.sweep start mode)
        modify (retag relocation mode)
        Solver.rewatch (unwatchedFrom mode relocation.start)
        pinReasons false
        modify fun s => { s with recent := s.recent.clear }) s
      (fun _ s' => Collected lags s s') fun _ _ => False := by
  obtain ⟨hstart, st', a, w, he, ha, hq, hep, hrw, href, hreason, hremains⟩ := h.ends_sweep hpin hw hm
  have hfinish := hrw.ends_finish hq hreason hmarks (fun v => by
    obtain ⟨reason, hr⟩ := ha.record v
    simp only [hr]
    exact hrecords v) hstored h.full
  simp only [ends_bind, ends_modifyGet, ends_modify] at hfinish ⊢
  rw [he, hstart]
  exact hfinish.imp (fun _ s' hs' => hs'.imp (fun _ s₂ hs₂ => hs₂.collected href hep hremains) fun _ _ hf => hf)
    fun _ _ hf => hf

/-- A collection after reasons were pinned. -/
theorem Collectable.ends_pinned (hw : start ≠ 0 → s.store.Watched s.watches.view) :
    Ends (do
        modify (Solver.unwatch start mode)
        let relocation ← modifyGet (Solver.sweep start mode)
        modify (retag relocation mode)
        Solver.rewatch (unwatchedFrom mode relocation.start)
        pinReasons false
        modify fun s => { s with recent := s.recent.clear }) s
      (fun _ s' => Collected lags s s') fun _ _ => False := by
  obtain ⟨w, he, h₁, hon, href, hm⟩ := h.unwatch hw mode
  rw [ends_bind, ends_modify]
  rw [he] at h₁ href ⊢
  exact (h₁.ends_swept hpin hmarks hrecords hstored hon hm).imp
    (fun _ s' hs' => hs'.of_refines href ⟨_, _, _, rfl⟩ (fun _ _ _ _ => rfl) rfl) fun _ _ hf => hf

end Body

/-- The steps of a collection. -/
theorem collect_eq (start : Nat) (mode : CollectMode) : (collect start mode : SolverM ε Unit) = (do
    modify fun s => s.count fun c => { c with collections := c.collections + 1 }
    pinReasons true
    modify (Solver.unwatch start mode)
    let relocation ← modifyGet (Solver.sweep start mode)
    modify (retag relocation mode)
    Solver.rewatch (unwatchedFrom mode relocation.start)
    pinReasons false
    modify fun s => { s with recent := s.recent.clear }) := by
  cases mode <;> rfl

/-- A collection. -/
theorem ends_collect (h : s.Collectable lags start) (hw : start ≠ 0 → s.store.Watched s.watches.view)
    (hclean : s.Clean) (hstored : s.derived = #[]) :
    Ends (collect start mode) s (fun _ s' => Collected lags s s') fun _ _ => False := by
  rw [collect_eq, ends_bind, ends_modify, ends_bind]
  have h₀ : Collectable lags (s.count fun c => { c with collections := c.collections + 1 }) start :=
    { h with frame := { h.frame with } }
  have href₀ : Refines s (s.count fun c => { c with collections := c.collections + 1 }) :=
    ⟨rfl, rfl, rfl, rfl, rfl, rfl, rfl, id, fun v hv => { hv with }, fun v hv => { hv with }⟩
  refine (h₀.ends_pin hclean.unpinned).imp (fun _ s₁ hs₁ => ?_) fun _ _ hf => hf
  obtain ⟨st₁, rfl, hp₁, h₁, hpin₁⟩ := hs₁
  exact (h₁.ends_pinned hpin₁ hclean.marks hclean.records hstored fun h0 =>
    (hw h0).alike h.chain hp₁.toAlike).imp
      (fun _ s' hs' => hs'.of_refines (href₀.trans (refines_repinned hp₁)) ⟨_, _, _, rfl⟩
        (fun l hl r hr => hp₁.lits _ (Rehomes.large h.grounded hl hr).1.2) hp₁.epoch)
      fun _ _ hf => hf

end Solver

end ClauseLearning

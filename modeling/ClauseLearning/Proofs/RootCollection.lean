import ClauseLearning.Proofs.Accounting

/-!
# Dense collections at the root

At the root a dense collection does not need propagation to have come to its end.  Nothing is pinned there, so that
garbage is dropped, and every other clause is written again and watched by two of its literals, whatever these are.

* `Solver.Rooted.rewatched` — clauses may be watched afresh at the root.
* `Solver.Rooted.sweep`, `Solver.Rooted.sifted` — the sweep, and what it leaves.
* `Solver.Rooted.ends_collect` — a dense collection at the root.
* `Solver.Accounted.matched` — the clauses that are not garbage before and after it.
-/

namespace ClauseLearning

/-- What is on the left is related to something on the right. -/
theorem forall₂_exists_right {α β : Type} {R : α → β → Prop} {as : List α} {bs : List β} (h : List.Forall₂ R as bs) :
    ∀ a ∈ as, ∃ b ∈ bs, R a b := by
  induction h with
  | nil =>
    intro a ha
    simp at ha
  | cons hab _ ih =>
    intro a ha
    rcases List.mem_cons.1 ha with rfl | ha
    · exact ⟨_, List.mem_cons_self .., hab⟩
    · obtain ⟨b, hb, hr⟩ := ih a ha
      exact ⟨b, List.mem_cons_of_mem _ hb, hr⟩

/-- What is on the right is related to something on the left. -/
theorem forall₂_exists_left {α β : Type} {R : α → β → Prop} {as : List α} {bs : List β} (h : List.Forall₂ R as bs) :
    ∀ b ∈ bs, ∃ a ∈ as, R a b :=
  forall₂_exists_right h.flip

namespace Solver

variable {ε : Type} {s s' S : Solver ε} {o o' : Nat} {mode : CollectMode} {t : Store} {w : Watches}

/-! ## Clauses that are left -/

theorem Leaves.redundant (h : Leaves mode s t o o') : (t.flagsAt o').redundant = (s.store.flagsAt o).redundant := by
  have hflags := congrArg Flags.redundant h.flags
  exact hflags

theorem Leaves.garbage (h : Leaves mode s t o o') : (t.flagsAt o').garbage = (s.store.flagsAt o).garbage := by
  have hflags := congrArg Flags.garbage h.flags
  exact hflags

namespace Rooted

/-- At the root nothing is above the root. -/
theorem above (h : s.Rooted) : s.trail.above 0 = [] := by
  refine List.eq_nil_iff_forall_not_mem.2 ?_
  intro l hl
  obtain ⟨hmem, hpos⟩ := h.frame.trail.mem_above.1 hl
  have hle := h.frame.trail.level_le_of_mem hmem
  have h0 := h.level
  omega

/-- Garbage does not survive, and everything else does. -/
theorem survives_dense (h : s.Rooted) (o : Nat) : s.survives .dense o = !(s.store.flagsAt o).garbage := by
  have hnot : ¬ s.IsReason o := by
    rintro ⟨l, hl, hr⟩
    exact h.unforced l hl _ hr
  simp [survives, hnot]

/-- No reason is there to be pinned or released. -/
theorem ends_pinReasons (h : s.Rooted) (pin : Bool) :
    Ends (pinReasons pin) s (fun _ s' => s' = s) fun _ _ => False := by
  unfold pinReasons
  simp only [ends_bind, ends_get, h.above]
  exact (ends_pure _).2 rfl

/-- No reference is there to be carried over. -/
theorem retag_dense (h : s.Rooted) (r : Store.Relocation) : retag r .dense s = s := by
  unfold retag
  simp [h.above]

/-- The watches of binary clauses are all that is needed. -/
theorem unwatch (h : s.Rooted) : (s.unwatch 0 .dense).Rooted := by
  have hview : ∀ l, (s.watches.dropLarge.view l).filter Watch.isBinary = (s.watches.view l).filter Watch.isBinary := by
    intro l
    rw [Watches.view_dropLarge, List.filter_filter]
    simp
  exact { h with
    frame := { h.frame with lists := (Watches.size_dropLarge _).trans h.frame.lists }
    paired := h.paired.congr hview
    clean := { h.clean with } }

/-! ## Watching clauses -/

/-- Clauses may be watched afresh. -/
theorem rewatched {target : Nat → Prop} (h : s.Rooted) (hr : Rewatched target s s') (hc : s'.store.Chain 0) :
    s'.Rooted := by
  have hflags := hr.reordered.flags
  have hperm := hr.reordered.perm
  have hoffsets := hr.reordered.offsets
  have hlists := hr.lists
  have hbinary := hr.binary
  obtain ⟨st, w, rfl⟩ := hr.eq
  have hold : ∀ {o}, o ∈ st.offsets → o ∈ s.store.offsets := fun ho => hoffsets ▸ ho
  have hlive : ∀ {o}, o ∈ st.offsets → (st.flagsAt o).garbage = false → (s.store.flagsAt o).garbage = false := by
    intro o ho hg
    rwa [← hflags o (hold ho)]
  refine { h with
    frame := { h.frame with lists := hlists.trans h.frame.lists }
    chain := hc
    nodup := ?_
    usable := ?_
    paired := h.paired.congr hbinary
    clean := { h.clean with unpinned := ?_ } }
  · intro o ho hg
    exact ((hperm o (hold ho)).map Literal.var).nodup_iff.2 (h.nodup o (hold ho) (hlive ho hg))
  · intro o ho hg l hl
    exact h.usable o (hold ho) (hlive ho hg) l ((hperm o (hold ho)).mem_iff.1 hl)
  · intro o ho
    have hflag := congrArg Flags.reason (hflags o (hold ho))
    exact hflag.trans (h.clean.unpinned o (hold ho))

/-- One clause is watched by two of its literals. -/
theorem rewatch (h : s.Rooted) (ho : o ∈ s.store.offsets) (hg : (s.store.flagsAt o).garbage = false) :
    ∃ st w, { moveBest o (s.store.sizeAt o) 1 (moveBest o (s.store.sizeAt o) 0 s) with
        watches := (moveBest o (s.store.sizeAt o) 1 (moveBest o (s.store.sizeAt o) 0 s)).watches.addLarge
          ⟨o, s.store.epoch⟩
          ((moveBest o (s.store.sizeAt o) 1 (moveBest o (s.store.sizeAt o) 0 s)).store.literalAt o 0)
          ((moveBest o (s.store.sizeAt o) 1 (moveBest o (s.store.sizeAt o) 0 s)).store.literalAt o 1) } =
        { s with store := st, watches := w } ∧
      Rewatched (· = o) s { s with store := st, watches := w } ∧ Rooted { s with store := st, watches := w } := by
  have hat := (h.chain.mem ho).2
  obtain ⟨st, he, hp, -⟩ := moveBest_twice hat.three hat
  have hr := h.frame.rewatched h.chain ho (h.nodup o ho hg) (h.usable o ho hg) hp
  exact ⟨st, _, by rw [he], hr, h.rewatched hr (hp.chain h.chain ho)⟩

/-- Clauses that are not garbage are watched one after another. -/
theorem ends_rewatchAll {rs : List Reference} (h : s.Rooted)
    (hr : ∀ r ∈ rs, s.store.Current r ∧ (s.store.flagsAt r.offset).garbage = false) :
    Ends (rewatchAll rs) s (fun _ s' => s'.Rooted ∧ ∃ target, Rewatched target s s') fun _ _ => False := by
  induction rs generalizing s with
  | nil => exact (ends_pure _).2 ⟨h, _, .refl (fun _ => False) s⟩
  | cons r rs ih =>
    obtain ⟨hcur, hg⟩ := hr r (List.mem_cons_self ..)
    unfold rewatchAll
    simp only [ends_bind, ends_onStore, Store.ends_locate h.chain hcur, ends_modify]
    obtain ⟨st, w, he, hone, h₁⟩ := h.rewatch hcur.2 hg
    have hsame : (⟨r.offset, s.store.epoch⟩ : Reference) = r := by rw [← hcur.1]
    rw [hsame] at he
    rw [he]
    refine (ih h₁ ?_).imp (fun _ s' hs' => ?_) fun _ _ hf => hf
    · intro r' hmem
      obtain ⟨hcur', hg'⟩ := hr r' (List.mem_cons_of_mem _ hmem)
      refine ⟨(Store.current_iff hone.reordered.epoch hone.reordered.offsets r').2 hcur', ?_⟩
      exact (congrArg Flags.garbage (hone.reordered.flags _ hcur'.2)).trans hg'
    · obtain ⟨h', target, hrest⟩ := hs'
      exact ⟨h', _, hone.trans hrest⟩

/-! ## The sweep -/

/-- What has become of clauses while they are gone through, none of which is pinned. -/
def Sifted (s : Solver ε) (done : List Nat) (t : Store) (x : Assignment × Watches) : Prop :=
  t.Chain 0 ∧ (∀ o ∈ t.offsets, (t.flagsAt o).reason = false) ∧ Tally .dense 0 s done t s.watches ∧
    x = (s.assignment, s.watches)

/-- Before the first clause. -/
theorem sifted_start (h : s.Rooted) :
    Sifted s (s.store.cut 0 (Store.nextEpoch s.store.epoch)).offsets (s.store.cut 0 (Store.nextEpoch s.store.epoch))
      (s.assignment, s.watches) := by
  have hstop : s.store.Stop 0 := .inl rfl
  refine ⟨hstop.chain_cut h.chain _, ?_, tally_start h.chain hstop .dense _, rfl⟩
  intro o ho
  exact absurd ((hstop.mem_cut h.chain).1 ho).2 (Nat.not_lt_zero o)

/-- A clause that is not garbage is written again. -/
theorem visit_dense {done : List Nat} {x : Assignment × Watches} (h : s.Rooted) (ho : o ∈ s.store.offsets)
    (hs : Sifted s done t x) : s.store.Visits denseRule (Sifted s) done o t x := by
  obtain ⟨hc, hpin, htally, rfl⟩ := hs
  have hat := (h.chain.mem ho).2
  have hflags : (s.store.recordAt o).flags = s.store.flagsAt o := rfl
  have hreason : (s.store.recordAt o).flags.reason = false := h.clean.unpinned o ho
  have hsurvives := h.survives_dense o
  unfold Store.Visits denseRule
  simp only [hreason, Bool.not_false, Bool.and_true, Bool.false_eq_true, if_false]
  cases hg : (s.store.recordAt o).flags.garbage with
  | true =>
    rw [← hflags, hg] at hsurvives
    exact ⟨hc, hpin, htally.drop hsurvives, rfl⟩
  | false =>
    rw [← hflags, hg] at hsurvives
    have hlits : (s.store.recordAt o).literals.toList = s.store.lits o := Store.literalsAt_toList hat.fits
    have h3 : 3 ≤ (s.store.recordAt o).literals.size :=
      Nat.le_trans hat.three (Nat.le_of_eq (Store.size_literalsAt hat.fits).symm)
    have hlen : (s.store.recordAt o).literals.size < Store.padding := by
      rw [← Array.length_toList, hlits]
      exact h.frame.length_lt_padding (h.nodup o ho hg) (h.usable o ho hg)
    have ha := Store.appended_append (c := (s.store.recordAt o).settled) hc h3 (Nat.ne_of_lt hlen)
    refine ⟨ha.chain, ?_, htally.keep hc ho (Nat.zero_le o) hsurvives hlits h3 rfl rfl ha, rfl⟩
    intro o' ho'
    rcases ha.mem_offsets.1 ho' with ho' | rfl
    · rw [ha.flagsAt_old hc ho']
      exact hpin o' ho'
    · rw [ha.flags]
      exact hreason

/-- What has become of clauses when each was gone through. -/
theorem sweep (h : s.Rooted) : ∃ t, Sifted s s.store.offsets t (s.assignment, s.watches) ∧
    s.sweep 0 .dense = (⟨0, s.store.epoch, Store.nextEpoch s.store.epoch⟩, { s with store := t }) := by
  obtain ⟨t, x, garbage, ⟨hc, hpin, htally, rfl⟩, he⟩ := Store.sweep_induct fits_denseRule h.chain (.inl rfl)
    (fun done o t x ho _ _ hs => h.visit_dense ho hs) h.sifted_start
  have hwords : ({ t with garbage } : Store).words = t.words := rfl
  have hoffsets : Store.offsets { t with garbage } = t.offsets := Store.offsetsFrom_of_words hwords hc
  refine ⟨{ t with garbage }, ⟨hc.of_words hwords, ?_, htally.garbage hc garbage, rfl⟩, ?_⟩
  · rw [hoffsets]
    exact hpin
  · unfold Solver.sweep
    simp only [he]

end Rooted

/-- What is left of clauses at the root is as it needs to be, and none of it is garbage. -/
theorem Rooted.sifted (hs : s.Rooted) (h : Rooted.Sifted s s.store.offsets t (s.assignment, s.watches)) :
    Rooted { s with store := t } ∧ ∀ o ∈ t.offsets, (t.flagsAt o).garbage = false := by
  obtain ⟨hc, hpin, htally, -⟩ := h
  obtain ⟨moved, hoffsets, hleaves⟩ := htally.large
  have hsource : ∀ o' ∈ t.offsets, ∃ o, Leaves .dense s t o o' ∧ (s.store.flagsAt o).garbage = false := by
    intro o' ho'
    rw [hoffsets, List.filter_eq_nil_iff.2 (by simp), List.nil_append] at ho'
    obtain ⟨o, ho, hl⟩ := forall₂_exists_left hleaves o' ho'
    have hsurvives := (List.mem_filter.1 (List.mem_of_mem_filter ho)).2
    simp only [hs.survives_dense, Bool.and_eq_true, Bool.not_eq_true'] at hsurvives
    exact ⟨o, hl, hsurvives.2⟩
  refine ⟨{ hs with
    frame := { hs.frame with }
    chain := hc
    nodup := ?_
    usable := ?_
    clean := { hs.clean with unpinned := hpin } }, ?_⟩
  · intro o' ho' _
    obtain ⟨o, hl, hg⟩ := hsource o' ho'
    exact (hl.lits.map Literal.var).nodup_iff.2 (hs.nodup o hl.source hg)
  · intro o' ho' _ l hm
    obtain ⟨o, hl, hg⟩ := hsource o' ho'
    exact hs.usable o hl.source hg l (hl.lits.mem_iff.1 hm)
  · intro o' ho'
    obtain ⟨o, hl, hg⟩ := hsource o' ho'
    exact hl.garbage.trans hg

/-! ## The collection -/

/-- A dense collection at the root. -/
structure Repacked (s s' : Solver ε) : Prop where
  /-- Nothing else has changed. -/
  eq : ∃ counters store watches recent, s' = { s with counters, store, watches, recent }
  /-- Another round may follow. -/
  rooted : s'.Rooted
  /-- What has become of every clause. -/
  accounted : Accounted .dense 0 s s'

/-- The part of it from the sweep on. -/
theorem Rooted.ends_swept (h : s.Rooted) :
    Ends (do
        let relocation ← modifyGet (Solver.sweep 0 .dense)
        modify (retag relocation .dense)
        Solver.rewatch (unwatchedFrom .dense relocation.start)
        pinReasons false
        modify fun s => { s with recent := s.recent.clear }) s
      (fun _ s' => (∃ store watches recent, s' = { s with store, watches, recent }) ∧ s'.Rooted ∧
        ∃ t, Tally .dense 0 s s.store.offsets t s.watches ∧ Resettled 0 { s with store := t } s')
      fun _ _ => False := by
  obtain ⟨t, hsifted, hsweep⟩ := h.sweep
  obtain ⟨h₁, hlive⟩ := h.sifted hsifted
  have htally := hsifted.2.2.1
  simp only [ends_bind, ends_modify, ends_modifyGet, hsweep, h₁.retag_dense, Solver.rewatch, ends_get]
  refine (h₁.ends_rewatchAll ?_).imp ?_ fun _ _ hf => hf
  · intro r hr
    have hcur := Store.mem_references.1 hr
    exact ⟨hcur, hlive _ hcur.2⟩
  intro _ s₂ hs₂
  obtain ⟨h₂, target, hr⟩ := hs₂
  refine (h₂.ends_pinReasons false).imp ?_ fun _ _ hf => hf
  intro _ s₃ hs₃
  subst hs₃
  refine ⟨?_, { h₂ with frame := { h₂.frame with }, clean := { h₂.clean with } }, t, htally, hr.reordered.offsets, ?_, ?_,
    Watches.binaries_congr hr.lists hr.binary⟩
  · obtain ⟨store, watches, rfl⟩ := hr.eq
    exact ⟨_, _, _, rfl⟩
  · intro o ho
    exact hr.reordered.sameAt ho
  · intro o _ hlt
    exact absurd hlt (Nat.not_lt_zero o)

/-- At the root a dense collection succeeds, and every clause is accounted for. -/
theorem Rooted.ends_collect (h : s.Rooted) :
    Ends (collect 0 .dense) s (fun _ s' => Repacked s s') fun _ _ => False := by
  have h₁ : Rooted (s.count fun c => { c with collections := c.collections + 1 }) :=
    { h with frame := { h.frame with }, clean := { h.clean with } }
  have hbinaries : s.watches.dropLarge.binaries = s.watches.binaries.filter (s.keepsBinary .dense) :=
    binaries_unwatch s 0 .dense
  rw [collect_eq, ends_bind, ends_modify, ends_bind]
  refine (h₁.ends_pinReasons true).imp ?_ fun _ _ hf => hf
  intro _ s₁ hs₁
  subst hs₁
  rw [ends_bind, ends_modify]
  refine h₁.unwatch.ends_swept.imp ?_ fun _ _ hf => hf
  intro _ s' hs'
  obtain ⟨⟨store, watches, recent, he⟩, hrooted, t, htally, hsettled⟩ := hs'
  -- what was counted, and the watches that went before, do not matter for what is left of clauses
  have hpins : Store.Repinned true (fun _ => False) s.store s.store := .refl h.chain fun _ => id
  obtain ⟨⟨moved, hmoved, hleaves⟩, hbinary⟩ := Tally.repinned hpins htally
  refine ⟨⟨_, store, watches, recent, he⟩, hrooted, hrooted.chain.nodup, ?_, ?_, ?_, ?_, ?_⟩
  · intro o _ hlt
    exact absurd hlt (Nat.not_lt_zero o)
  · intro hmode
    cases hmode
  · intro o ho _
    exact Nat.le_of_succ_le (three_le_residue h.chain ho)
  · refine ⟨moved, hsettled.offsets.trans hmoved, hleaves.imp ?_⟩
    intro o o' hl
    exact hl.sameAt (hsettled.offsets.symm ▸ hl.mem) (hsettled.same o' hl.mem)
  · rw [hsettled.binary, ← hbinaries]
    exact hbinary

/-! ## Clauses before and after -/

/-- Each clause that is not garbage is left once more, and all that is left comes from such a clause. -/
theorem Accounted.matched (h : Accounted .dense 0 s s') (hs : s.Rooted) :
    (∀ o ∈ s.store.offsets, (s.store.flagsAt o).garbage = false → ∃ o', Leaves .dense s s'.store o o') ∧
      ∀ o' ∈ s'.store.offsets, ∃ o, Leaves .dense s s'.store o o' ∧ (s.store.flagsAt o).garbage = false := by
  obtain ⟨moved, hoffsets, hleaves⟩ := h.large
  rw [List.filter_eq_nil_iff.2 (by simp), List.nil_append] at hoffsets
  have hmem : ∀ o, o ∈ (s.survivors .dense 0 s.store.offsets).filter (fun o => 3 ≤ (s.residue .dense o).length) ↔
      o ∈ s.store.offsets ∧ (s.store.flagsAt o).garbage = false := by
    intro o
    simp only [survivors, List.mem_filter, hs.survives_dense, Nat.zero_le, decide_true, Bool.true_and,
      Bool.not_eq_true', decide_eq_true_eq, and_iff_left_iff_imp]
    intro ho
    exact three_le_residue hs.chain ho.1
  refine ⟨?_, ?_⟩
  · intro o ho hg
    obtain ⟨o', -, hl⟩ := forall₂_exists_right hleaves o ((hmem o).2 ⟨ho, hg⟩)
    exact ⟨o', hl⟩
  · intro o' ho'
    obtain ⟨o, ho, hl⟩ := forall₂_exists_left hleaves o' (hoffsets ▸ ho')
    exact ⟨o, hl, ((hmem o).1 ho).2⟩

end Solver

end ClauseLearning

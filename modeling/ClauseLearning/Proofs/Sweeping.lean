import ClauseLearning.Proofs.Rehoming

/-!
# The sweep of a collection

A collection needs less than the invariant: clauses that are going to be watched afresh only have to be fit
for it, and a clause that is garbage and no reason may be anything.  While clauses are gone through, what
was kept is a trimmed clause of the old store, and what was not kept is not needed.

* `Solver.Collectable` — what a collection needs.
* `Collectable.flush` — the watches before the sweep.
* `Solver.Moves`, `Solver.Gathers` — the store and the watches while clauses are gone through.
* `Solver.Sweeping` — all of it.
-/

namespace ClauseLearning

namespace Solver

variable {ε : Type} {lags : Prop} {s S : Solver ε} {start o : Nat}

/-! ## Before the sweep -/

/-- What a collection from a position on needs. -/
structure Collectable (lags : Prop) (s : Solver ε) (start : Nat) : Prop where
  /-- The tables fit together. -/
  frame : s.Frame
  /-- Everything was propagated. -/
  full : s.trail.propagated = s.trail.size
  /-- The walk over the store is good. -/
  chain : s.store.Chain 0
  /-- The position is one of a clause, or the end. -/
  stop : s.store.Stop start
  /-- The binary clauses have both their watches. -/
  paired : Watches.Paired s.numbering.Usable s.watches.view
  /-- The binary clauses are guarded. -/
  binary : ∀ l m r y, .binary m r y ∈ s.watches.view l →
    Guard s.trail s.assignment s.trail.size (lags ∧ r = true) l m m l [l, m]
  /-- Every assigned literal has a reason. -/
  grounded : ∀ i < s.trail.size, Grounded s.trail s.assignment s.store i
  /-- A binary clause that is a reason is there. -/
  reasons : ∀ l ∈ s.trail.literals, ∀ o, s.assignment.reason l = .binary o →
    ∃ r y, .binary o r y ∈ s.watches.view l
  /-- A clause that is not garbage is fit to be watched.  Above the root all clauses are. -/
  fits : ∀ o ∈ s.store.offsets, (s.store.flagsAt o).garbage = false ∨ s.trail.level ≠ 0 →
    Fits s.numbering.Usable s.assignment (lags ∧ (s.store.flagsAt o).redundant = true) (s.store.lits o)
  /-- Clauses before the position are fit. -/
  early : ∀ o ∈ s.store.offsets, o < start →
    Fits s.numbering.Usable s.assignment (lags ∧ (s.store.flagsAt o).redundant = true) (s.store.lits o)
  /-- Clauses before the position are guarded. -/
  large : ∀ r x b y d, .large b r ∈ s.watches.view x → .large d r ∈ s.watches.view y → x ≠ y →
    s.store.Current r → r.offset < start → Guard s.trail s.assignment s.trail.size
      (lags ∧ (s.store.flagsAt r.offset).redundant = true) x b y d (s.store.lits r.offset)

/-- Watches may go as long as binary clauses keep both theirs, and reasons stay. -/
theorem Collectable.of_watches (h : s.Collectable lags start) {w : Watches}
    (hl : w.lists.size = s.watches.lists.size) (hp : Watches.Paired s.numbering.Usable w.view)
    (hsub : ∀ l, ∀ x ∈ w.view l, x ∈ s.watches.view l)
    (hr : ∀ l ∈ s.trail.literals, ∀ o, s.assignment.reason l = .binary o →
      ∃ r y, .binary o r y ∈ w.view l) :
    Collectable lags { s with watches := w } start :=
  { h with
    frame := { h.frame with lists := hl.trans h.frame.lists }
    paired := hp
    binary := fun l m r y hm => h.binary l m r y (hsub l _ hm)
    reasons := hr
    large := fun r x b y d hx hy => h.large r x b y d (hsub x _ hx) (hsub y _ hy) }

theorem view_flushWatches (start : Nat) (s : Solver ε) (l : Literal) :
    (s.flushWatches start).watches.view l =
      (s.watches.view l).filter (keepsWatch s.assignment start l) := by
  simp only [flushWatches, Watches.view, Watches.of_eq, Array.getElem?_mapIdx]
  cases s.watches.lists[l.code]? <;> simp

/-- The watches before a sparse sweep: clauses from the position on are not watched. -/
theorem Collectable.flush (h : s.Collectable lags start) : (s.flushWatches start).Collectable lags start := by
  have hview := view_flushWatches start s
  refine h.of_watches (w := (s.flushWatches start).watches) (by simp [flushWatches]) ?_
    (fun l x hx => ?_) fun l hl o ho => ?_
  · have := h.paired.filter fun l m r y => show keepsWatch s.assignment start l (.binary m r y) =
        keepsWatch s.assignment start m (.binary l r y) by
      simp only [keepsWatch, Assignment.isBinaryReason, Bool.or_comm]
    rwa [show (s.flushWatches start).watches.view = _ from funext hview]
  · rw [hview] at hx
    exact List.mem_of_mem_filter hx
  · -- a clause that is a reason is not settled at the root
    obtain ⟨r, y, hm⟩ := h.reasons l hl o ho
    obtain ⟨i, hi, rfl⟩ := Trail.exists_at' hl
    obtain ⟨h1, -, h2⟩ := (h.grounded i hi).binary ho
    refine ⟨r, y, ?_⟩
    rw [hview]
    refine List.mem_filter.2 ⟨hm, ?_⟩
    have htt : s.assignment.value (s.trail.at' i) = .tt := h.frame.val_tt.2 hl
    simp [keepsWatch, Assignment.fixed_of_level (Nat.ne_of_gt h1), Assignment.fixed_of_level (Nat.ne_of_gt h2),
      Value.isAssigned, Assignment.isBinaryReason, htt, ho]

/-- What is known after the watches were flushed: a binary clause that is dropped is redundant, or it is
satisfied at the root. -/
theorem Collectable.refines_flush (h : s.Collectable lags start) : Refines s (s.flushWatches start) := by
  have hview := view_flushWatches start s
  refine ⟨rfl, rfl, rfl, rfl, rfl, rfl, rfl, id, fun v hv => ?_, fun v hv => ?_⟩
  · refine { hv with binary := fun l o r y hm => ?_ }
    rw [hview] at hm
    exact hv.binary l o r y (List.mem_of_mem_filter hm)
  · refine { hv with binary := fun l o y hm => ?_ }
    have hroot : ∀ {m}, s.assignment.fixed m = .tt → v.makesTrue m = true := fun hm => by
      obtain ⟨h1, h2⟩ := Assignment.fixed_tt.1 hm
      exact hv.root _ (h.frame.val_tt.1 h1) h2
    have hfall : ∀ {m}, s.assignment.fixed m = .ff →
        Fallen s.trail s.trail.size m ∧ s.assignment.level m = 0 := fun hm => by
      obtain ⟨h1, h2⟩ := Assignment.fixed_ff.1 hm
      exact ⟨(fallen_size h.frame.trail h.frame.sized).2 h1, h2⟩
    by_cases hkeep : keepsWatch s.assignment start l (.binary o false y) = true
    · refine hv.binary l o y ?_
      rw [hview]
      exact List.mem_filter.2 ⟨hm, hkeep⟩
    · have hy : y = false := by
        rw [← Bool.not_eq_true]
        rintro rfl
        exact absurd (h.paired.hyper l o false hm) (by simp)
      subst hy
      simp only [keepsWatch, Bool.not_false, Bool.true_or] at hkeep
      -- one of the two literals is assigned at the root, and then one of them is true there
      have hmeets : s.assignment.Meets 0 [l, o] := by
        have hguard := h.binary l o false false hm
        cases hl : s.assignment.fixed l with
        | tt => exact Assignment.meets_zero.2 ⟨l, by simp, hl⟩
        | ff =>
          have := hguard.meets (hfall hl).1 (by simp) (by simp) fun hl => absurd hl.2 (by simp)
          rwa [(hfall hl).2] at this
        | unassigned =>
          cases ho : s.assignment.fixed o with
          | tt => exact Assignment.meets_zero.2 ⟨o, by simp, ho⟩
          | ff =>
            have := hguard.symm.meets (hfall ho).1 (by simp) (by simp) fun hl => absurd hl.2 (by simp)
            rwa [(hfall ho).2] at this
          | unassigned => simp [hl, ho, Value.isAssigned] at hkeep
      obtain ⟨m, hm, ht⟩ := Assignment.meets_zero.1 hmeets
      exact ⟨m, hm, hroot ht⟩

/-- What stays watched. -/
theorem watchedOn_flush (hw : start ≠ 0 → s.store.Watched s.watches.view) :
    s.store.WatchedOn (· < start) (s.flushWatches start).watches.view := by
  have hview := view_flushWatches start s
  have hmem : ∀ l b r, .large b r ∈ (s.flushWatches start).watches.view l ↔
      .large b r ∈ s.watches.view l ∧ r.offset < start := fun l b r => by
    rw [hview, List.mem_filter]
    simp [keepsWatch]
  refine ⟨fun l => ?_, fun l r => ?_, fun l b r hm => ?_⟩
  · by_cases h0 : start = 0
    · have : ((s.flushWatches start).watches.view l).filterMap Watch.ref? = [] := by
        refine List.filterMap_eq_nil_iff.2 fun w hw => ?_
        cases w with
        | binary => rfl
        | large b r =>
          have := ((hmem l b r).1 hw).2
          omega
      rw [this]
      exact List.nodup_nil
    · rw [hview]
      exact ((hw h0).nodup l).sublist (List.filter_sublist.filterMap _)
  · have href : ∀ {view : Literal → List Watch}, r ∈ (view l).filterMap Watch.ref? ↔
        ∃ b, .large b r ∈ view l := fun {view} => by
      simp only [List.mem_filterMap, Watch.ref?_eq_some]
      constructor
      · rintro ⟨_, hw, b, rfl⟩
        exact ⟨b, hw⟩
      · rintro ⟨b, hw⟩
        exact ⟨_, hw, b, rfl⟩
    constructor
    · intro hr
      obtain ⟨b, hb⟩ := href.1 hr
      obtain ⟨hb, hlt⟩ := (hmem l b r).1 hb
      obtain ⟨h1, h2⟩ := ((hw (by omega)).mem_iff l r).1 (href.2 ⟨b, hb⟩)
      exact ⟨h1, hlt, h2⟩
    · rintro ⟨h1, hlt, h2⟩
      obtain ⟨b, hb⟩ := href.1 (((hw (by omega)).mem_iff l r).2 ⟨h1, h2⟩)
      exact href.2 ⟨b, (hmem l b r).2 ⟨hb, hlt⟩⟩
  · obtain ⟨hm, hlt⟩ := (hmem l b r).1 hm
    exact (hw (by omega)).blocking l b r hm

/-! ## While clauses are gone through -/

/-- The store while clauses are gone through. -/
structure Moves (lags : Prop) (S : Solver ε) (start : Nat) (t : Store) : Prop where
  /-- The epoch is the next one. -/
  epoch : t.epoch = Store.nextEpoch S.store.epoch
  /-- The walk over the new store is good. -/
  chain : t.Chain 0
  /-- It splits at the position. -/
  stop : t.Stop start
  /-- The words before the position are as they were. -/
  word : ∀ i < start, t.word i = S.store.word i
  /-- The clauses before the position are there. -/
  early : ∀ o < start, o ∈ t.offsets ↔ o ∈ S.store.offsets
  /-- Every clause is fit to be watched, and is left of a clause of the old store. -/
  moved : ∀ o' ∈ t.offsets,
    Fits S.numbering.Usable S.assignment (lags ∧ (t.flagsAt o').redundant = true) (t.lits o') ∧
    ∃ o ∈ S.store.offsets, Trims S.assignment (S.store.lits o) (t.lits o')

/-- A clause of the old store is not needed: it is satisfied at the root, or something is left of it that is
not redundant. -/
def Spared (S : Solver ε) (o : Nat) (t : Store) (w : Watches) : Prop :=
  (∃ l ∈ S.store.lits o, S.assignment.fixed l = .tt) ∨
    (∃ o' ∈ t.offsets, Trims S.assignment (S.store.lits o) (t.lits o') ∧
      (t.flagsAt o').redundant = false ∧ (t.flagsAt o').garbage = false) ∨
    ∃ l m y, .binary m false y ∈ w.view l ∧ Trims S.assignment (S.store.lits o) [l, m]

/-- The watches while clauses are gone through, and what has become of irredundant clauses. -/
structure Gathers (lags : Prop) (S : Solver ε) (done : List Nat) (t : Store) (w : Watches) : Prop where
  /-- There are as many lists. -/
  lists : w.lists.size = S.watches.lists.size
  /-- The binary clauses have both their watches. -/
  paired : Watches.Paired S.numbering.Usable w.view
  /-- Watches on clauses of the store are as they were. -/
  larges : ∀ l, (w.view l).filter (fun x => !x.isBinary) =
    (S.watches.view l).filter fun x => !x.isBinary
  /-- No watch has gone. -/
  more : ∀ l, ∀ x ∈ S.watches.view l, x ∈ w.view l
  /-- A new binary clause is fit to be watched, and is left of a clause of the old store. -/
  binaries : ∀ l m r y, .binary m r y ∈ w.view l → .binary m r y ∈ S.watches.view l ∨
    Fits S.numbering.Usable S.assignment (lags ∧ r = true) [l, m] ∧
      ∃ o ∈ S.store.offsets, Trims S.assignment (S.store.lits o) [l, m]
  /-- Clauses that were gone through are not needed any more. -/
  spared : ∀ o ∈ done, (S.store.flagsAt o).redundant = false → (S.store.flagsAt o).garbage = false →
    S.Spared o t w

/-- All that is so while clauses are gone through. -/
structure Sweeping (lags : Prop) (S : Solver ε) (start : Nat) (done : List Nat) (t : Store)
    (x : Assignment × Watches) : Prop where
  /-- The store. -/
  moves : Moves lags S start t
  /-- The watches. -/
  gathers : Gathers lags S done t x.2
  /-- The reasons. -/
  rehomes : Rehomes S start done t x.1
  /-- A binary clause that is a reason is there. -/
  stored : ∀ l ∈ S.trail.literals, ∀ m, x.1.reason l = .binary m → ∃ r y, .binary m r y ∈ x.2.view l

section Steps

variable {t t' : Store} {w : Watches} {done : List Nat} {ls : List Literal} {f : Flags}

/-- A clause before the position has the same literals and flags. -/
theorem Moves.early_same (h : Moves lags S start t) (hc : S.store.Chain 0) (hq : S.store.Stop start)
    (ho : o ∈ S.store.offsets) (hlt : o < start) :
    t.sizeAt o = S.store.sizeAt o ∧ t.lits o = S.store.lits o ∧ t.flagsAt o = S.store.flagsAt o ∧
      ∀ i < S.store.sizeAt o, t.literalAt o i = S.store.literalAt o i := by
  have hfits := hq.fits hc ((hq.mem_cut hc (e := 0)).2 ⟨ho, hlt⟩)
  have hsize : t.sizeAt o = S.store.sizeAt o := h.word o hlt
  simp only [Store.headerWords] at hfits
  refine ⟨hsize, Store.lits_congr hsize fun i hi => h.word _ ?_, ?_, fun i hi => ?_⟩
  · simp only [Store.headerWords]
    omega
  · simp only [Store.flagsAt, h.word (o + 2) (by omega)]
  · have : t.word (o + Store.headerWords + i) = S.store.word (o + Store.headerWords + i) :=
      h.word _ (by simp only [Store.headerWords]; omega)
    simp only [Store.literalAt, this]

theorem Moves.append (h : Moves lags S start t) (ha : Store.Appended ls f t t')
    (hfit : Fits S.numbering.Usable S.assignment (lags ∧ f.redundant = true) ls)
    (ho : o ∈ S.store.offsets) (ht : Trims S.assignment (S.store.lits o) ls) : Moves lags S start t' := by
  have hle := h.stop.le h.chain
  refine ⟨ha.epoch.trans h.epoch, ha.chain, ?_, fun i hi => (ha.word i (by omega)).trans (h.word i hi),
    fun o' ho' => ?_, fun o' ho' => ?_⟩
  · rcases h.stop with h0 | hm | he
    · exact .inl h0
    · exact .inr (.inl (ha.mem_offsets.2 (.inl hm)))
    · exact .inr (.inl (ha.mem_offsets.2 (.inr he)))
  · rw [ha.mem_offsets, h.early o' ho', or_iff_left]
    omega
  · rcases ha.mem_offsets.1 ho' with ho' | rfl
    · rw [ha.lits_old h.chain ho', ha.flagsAt_old h.chain ho']
      exact h.moved o' ho'
    · rw [ha.lits, ha.flags]
      exact ⟨hfit, o, ho, ht⟩

theorem Spared.append (h : S.Spared o t w) (hc : t.Chain 0) (ha : Store.Appended ls f t t') :
    S.Spared o t' w := by
  refine h.imp_right (.imp_left ?_)
  rintro ⟨o', ho', ht, hr, hg⟩
  exact ⟨o', ha.mem_offsets.2 (.inl ho'), by rwa [ha.lits_old hc ho'], by rwa [ha.flagsAt_old hc ho'],
    by rwa [ha.flagsAt_old hc ho']⟩

theorem Gathers.skip (h : Gathers lags S done t w) (hn : (S.store.flagsAt o).redundant = false →
    (S.store.flagsAt o).garbage = false → S.Spared o t w) : Gathers lags S (done ++ [o]) t w :=
  { h with
    spared := fun o' ho' hr hg => by
      rcases List.mem_append.1 ho' with ho' | ho'
      · exact h.spared o' ho' hr hg
      · rw [List.mem_singleton.1 ho'] at hr hg ⊢
        exact hn hr hg }

theorem Gathers.append (h : Gathers lags S done t w) (hc : t.Chain 0) (ha : Store.Appended ls f t t') :
    Gathers lags S done t' w :=
  { h with spared := fun o' ho' hr hg => (h.spared o' ho' hr hg).append hc ha }

theorem Gathers.addBinary (h : Gathers lags S done t w) (hf : S.Frame) {a b : Literal} (r : Bool)
    (hfit : Fits S.numbering.Usable S.assignment (lags ∧ r = true) [a, b]) (ho : o ∈ S.store.offsets)
    (ht : Trims S.assignment (S.store.lits o) [a, b]) :
    Gathers lags S done t (w.addBinary a b r false) ∧ (∀ l, ∀ x ∈ w.view l, x ∈ (w.addBinary a b r false).view l) ∧
      .binary b r false ∈ (w.addBinary a b r false).view a := by
  have hua := hfit.usable a (by simp)
  have hub := hfit.usable b (by simp)
  have hne : a.var ≠ b.var := fun he => by
    have := hfit.nodup
    simp [he] at this
  have hab : a ≠ b := fun he => hne (congrArg Literal.var he)
  have hswap : [b, a].Perm [a, b] := .swap a b []
  have hlt : ∀ {m : Literal}, S.numbering.Usable m.var → m.code < w.lists.size := fun hu => by
    rw [h.lists]
    exact hf.code_lt hu
  have hview := Watches.view_addBinary r false (hlt hua) (hlt hub) hab
  have hmore : ∀ l, ∀ x ∈ w.view l, x ∈ (w.addBinary a b r false).view l := fun l x hx => by
    rw [hview]
    split
    · exact List.mem_append_left _ hx
    · split
      · exact List.mem_append_left _ hx
      · exact hx
  refine ⟨⟨by rw [Watches.size_addBinary, h.lists], h.paired.addBinary hua hub hne (by simp) hview,
    fun l => ?_, fun l x hx => hmore l x (h.more l x hx), fun l m r' y hm => ?_,
    fun o' ho' hr hg => (h.spared o' ho' hr hg).imp_right (.imp_right ?_)⟩, hmore, by rw [hview]; simp⟩
  · rw [← h.larges, hview]
    split
    · simp [Watch.isBinary]
    · split <;> simp [Watch.isBinary]
  · rw [hview] at hm
    split at hm
    · next hl =>
      rcases List.mem_append.1 hm with hm | hm
      · exact h.binaries l m r' y hm
      · obtain ⟨rfl, rfl, -⟩ := Watch.binary.inj (List.mem_singleton.1 hm)
        rw [hl]
        exact .inr ⟨hfit, o, ho, ht⟩
    · split at hm
      · next hl =>
        rcases List.mem_append.1 hm with hm | hm
        · exact h.binaries l m r' y hm
        · obtain ⟨rfl, rfl, -⟩ := Watch.binary.inj (List.mem_singleton.1 hm)
          rw [hl]
          exact .inr ⟨(Trims.of_perm hswap).fits hfit, o, ho, ht.perm hswap⟩
      · exact h.binaries l m r' y hm
  · rintro ⟨l, m, y, hm, htr⟩
    exact ⟨l, m, y, hmore l _ hm, htr⟩

/-- What is false at the root is false where root literals are true. -/
theorem Frame.makesTrue_of_fixed (hf : S.Frame) {v : Valuation}
    (hroot : ∀ l ∈ S.trail.literals, S.assignment.level l = 0 → v.makesTrue l = true) (l : Literal)
    (hl : S.assignment.fixed l = .ff) : v.makesTrue l = false := by
  obtain ⟨h1, h2⟩ := Assignment.fixed_ff.1 hl
  have := hroot _ (hf.val_ff.1 h1) (by rwa [Assignment.level_negate])
  rw [Valuation.makesTrue_negate] at this
  simpa using this

/-- Every binary clause follows from what was known. -/
theorem Gathers.satisfies (h : Gathers lags S done t w) (hf : S.Frame) {v : Valuation} (hv : S.Holds v)
    {l m : Literal} {r y : Bool} (hm : .binary m r y ∈ w.view l) : v.Satisfies [l, m] := by
  rcases h.binaries l m r y hm with hm | ⟨-, o, ho, ht⟩
  · exact hv.binary l m r y hm
  · exact (ht.satisfies (hf.makesTrue_of_fixed hv.root)).2 (hv.large o ho)

/-- Where no clause is needed any more, nothing was lost that is never to be dropped. -/
theorem Gathers.base (h : Gathers lags S S.store.offsets t w) (hf : S.Frame) {v : Valuation}
    (hroot : ∀ l ∈ S.trail.literals, S.assignment.level l = 0 → v.makesTrue l = true)
    (hlarge : ∀ o ∈ t.offsets, (t.flagsAt o).redundant = false → (t.flagsAt o).garbage = false →
      v.Satisfies (t.lits o))
    (hbinary : ∀ l m y, .binary m false y ∈ w.view l → v.Satisfies [l, m]) : S.Base v := by
  have hfalse := hf.makesTrue_of_fixed hroot
  refine ⟨hroot, fun o ho hr hg => ?_, fun l m y hm => hbinary l m y (h.more l _ hm)⟩
  rcases h.spared o ho hr hg with ⟨l, hl, ht⟩ | ⟨o', ho', ht, hr', hg'⟩ | ⟨l, m, y, hm, ht⟩
  · obtain ⟨h1, h2⟩ := Assignment.fixed_tt.1 ht
    exact ⟨l, hl, hroot l (hf.val_tt.1 h1) h2⟩
  · exact (ht.satisfies hfalse).1 (hlarge o' ho' hr' hg')
  · exact (ht.satisfies hfalse).1 (hbinary l m y hm)

/-- Before the first visit. -/
theorem Collectable.sweeping (h : S.Collectable lags start)
    (hpin : ∀ o ∈ S.store.offsets, (S.store.flagsAt o).reason = true → S.IsReason o) :
    Sweeping lags S start (S.store.cut start (Store.nextEpoch S.store.epoch)).offsets
      (S.store.cut start (Store.nextEpoch S.store.epoch)) (S.assignment, S.watches) := by
  have hc := h.chain
  have hq := h.stop
  have hsize := Store.size_cut (hq.le hc) (Store.nextEpoch S.store.epoch)
  have hword : ∀ i < start, (S.store.cut start (Store.nextEpoch S.store.epoch)).word i =
      S.store.word i := fun i hi => Store.word_cut hi _
  have hm : Moves lags S start (S.store.cut start (Store.nextEpoch S.store.epoch)) := by
    have hmem : ∀ o, o ∈ (S.store.cut start (Store.nextEpoch S.store.epoch)).offsets ↔
        o ∈ S.store.offsets ∧ o < start := fun o => hq.mem_cut hc
    refine ⟨rfl, hq.chain_cut hc _, .inr (.inr hsize.symm), hword, fun o ho => ?_, fun o ho => ?_⟩
    · rw [hmem, and_iff_left ho]
    · obtain ⟨ho, hlt⟩ := (hmem o).1 ho
      have hfits := hq.fits hc ((hq.mem_cut hc (e := 0)).2 ⟨ho, hlt⟩)
      have hlits : (S.store.cut start (Store.nextEpoch S.store.epoch)).lits o = S.store.lits o :=
        Store.lits_congr (hword o hlt) fun i hi => hword _ (by omega)
      have hflags : (S.store.cut start (Store.nextEpoch S.store.epoch)).flagsAt o = S.store.flagsAt o := by
        simp only [Store.headerWords] at hfits
        simp only [Store.flagsAt, hword (o + 2) (by omega)]
      rw [hlits, hflags]
      exact ⟨h.early o ho hlt, o, ho, .refl _ _⟩
  refine ⟨hm, ⟨rfl, h.paired, fun _ => rfl, fun _ _ hx => hx, fun _ _ _ _ hx => .inl hx,
    fun o ho hr hg => ?_⟩, ⟨.refl _, fun _ _ _ hr _ => hr, fun i hi hd => ?_, fun _ _ _ hm => .inl hm,
    fun l hl r hr hd => ?_, fun _ _ _ => rfl, fun o ho hp => ?_⟩, h.reasons⟩
  · obtain ⟨ho', hlt⟩ := (hq.mem_cut hc).1 ho
    obtain ⟨-, hlits, hflags, -⟩ := hm.early_same hc hq ho' hlt
    exact .inr (.inl ⟨o, ho, by rw [hlits]; exact .refl _ _, by rwa [hflags], by rwa [hflags]⟩)
  · refine (h.grounded i hi).imp fun r _ hr _ _ => ?_
    obtain ⟨hm, hle⟩ := hd r hr
    have := ((hq.mem_cut hc).1 hm).2
    omega
  · obtain ⟨ho', hlt⟩ := (hq.mem_cut hc).1 hd
    simp only [hr]
    exact ⟨hd, by rw [(hm.early_same hc hq ho' hlt).2.1]; exact .refl _ _⟩
  · obtain ⟨ho', hlt⟩ := (hq.mem_cut hc).1 ho
    rw [(hm.early_same hc hq ho' hlt).2.2.1] at hp
    obtain ⟨l, hl, hr⟩ := hpin o ho' hp
    exact ⟨l, hl, .inr ⟨hlt, hr⟩⟩

/-- A clause of different usable variables is not as long as padding looks. -/
theorem Frame.length_lt_padding (hf : S.Frame) (hn : (ls.map Literal.var).Nodup)
    (hu : ∀ l ∈ ls, S.numbering.Usable l.var) : ls.length < Store.padding := by
  have hsub : ls.map Literal.var ⊆ List.range S.numbering.size := fun v hv => by
    obtain ⟨l, hl, rfl⟩ := List.mem_map.1 hv
    exact List.mem_range.2 (hu l hl).1
  have hle := (hn.subperm hsub).length_le
  rw [List.length_map, List.length_range] at hle
  have := hf.few
  simp only [Numbering.greatestExternal] at this
  simp only [Store.padding, greatestWord]
  omega

/-- A clause that is the reason of a literal. -/
theorem IsReason.exists_at (hg : ∀ i < S.trail.size, Grounded S.trail S.assignment S.store i)
    (h : S.IsReason o) : ∃ i < S.trail.size,
      S.assignment.reason (S.trail.at' i) = .large ⟨o, S.store.epoch⟩ ∧
      Forced S.trail S.assignment i ∧
      ∃ rest, S.store.lits o = S.trail.at' i :: rest ∧ ∀ m ∈ rest, -m ∈ S.trail.upTo i := by
  obtain ⟨l, hl, hr⟩ := h
  obtain ⟨i, hi, rfl⟩ := Trail.exists_at' hl
  obtain ⟨h1, -, h2⟩ := (hg i hi).large hr
  exact ⟨i, hi, hr, (hg i hi).forced h1 (by simp [hr]), h2⟩

end Steps

/-! ## One visit -/

section Visit

variable {t : Store} {x : Assignment × Watches} {done : List Nat} (hS : S.Collectable lags start)
  (hpin : ∀ o ∈ S.store.offsets, (S.store.flagsAt o).reason = true ↔ S.IsReason o)
  (h : Sweeping lags S start done t x) (ho : o ∈ S.store.offsets) (hq : start ≤ o) (hd : o ∉ done)
include hS hpin h ho

omit hS h in
theorem not_isReason (hr : (S.store.flagsAt o).reason = false) : ¬ S.IsReason o := fun hi => by
  rw [(hpin o ho).2 hi] at hr
  simp at hr

/-- A clause that is dropped. -/
theorem Sweeping.drop (hr : (S.store.flagsAt o).reason = false)
    (hn : (S.store.flagsAt o).redundant = false → (S.store.flagsAt o).garbage = false →
      S.Spared o t x.2) : Sweeping lags S start (done ++ [o]) t x :=
  ⟨h.moves, h.gathers.skip hn, h.rehomes.skip hS.grounded (not_isReason hpin ho hr), h.stored⟩

omit hpin in
/-- A clause that is kept, except for reasons. -/
theorem Sweeping.append {c : Store.Record} (h3 : 3 ≤ c.literals.size)
    (hfit : Fits S.numbering.Usable S.assignment (lags ∧ (S.store.flagsAt o).redundant = true)
      c.literals.toList)
    (ht : Trims S.assignment (S.store.lits o) c.literals.toList) (hf : c.flags = S.store.flagsAt o) :
    Store.Appended c.literals.toList c.settled.flags t (t.append c.settled) ∧
      Moves lags S start (t.append c.settled) ∧ Gathers lags S (done ++ [o]) (t.append c.settled) x.2 := by
  have hlen := hS.frame.length_lt_padding hfit.nodup hfit.usable
  rw [Array.length_toList] at hlen
  have ha := Store.appended_append (c := c.settled) h.moves.chain h3 (Nat.ne_of_lt hlen)
  refine ⟨ha, h.moves.append ha (by rwa [Store.flags_settled, hf]) ho ht,
    (h.gathers.append h.moves.chain ha).skip fun hr hg => ?_⟩
  refine .inr (.inl ⟨t.words.size, ha.mem_offsets.2 (.inr rfl), ?_, ?_, ?_⟩)
  · rw [ha.lits]
    exact ht
  · rw [ha.flags, Store.flags_settled, hf]
    exact hr
  · rw [ha.flags, Store.flags_settled, hf]
    exact hg

/-- A clause that is kept and is no reason. -/
theorem Sweeping.keep {c : Store.Record} (hr : (S.store.flagsAt o).reason = false)
    (h3 : 3 ≤ c.literals.size)
    (hfit : Fits S.numbering.Usable S.assignment (lags ∧ (S.store.flagsAt o).redundant = true)
      c.literals.toList)
    (ht : Trims S.assignment (S.store.lits o) c.literals.toList) (hf : c.flags = S.store.flagsAt o) :
    Sweeping lags S start (done ++ [o]) (t.append c.settled) x := by
  obtain ⟨ha, hm, hgather⟩ := h.append hS ho h3 hfit ht hf
  refine ⟨hm, hgather, (h.rehomes.append h.moves.chain ha ?_).skip hS.grounded (not_isReason hpin ho hr),
    h.stored⟩
  rw [Store.flags_settled, hf]
  exact hr

include hq hd

/-- A pinned clause that is kept takes its first literal along. -/
theorem Sweeping.keep_pinned {c : Store.Record} {l : Literal} {rest : List Literal}
    (hp : (S.store.flagsAt o).reason = true) (hl : c.literals.toList = l :: rest)
    (h3 : 3 ≤ c.literals.size)
    (hfit : Fits S.numbering.Usable S.assignment (lags ∧ (S.store.flagsAt o).redundant = true)
      c.literals.toList)
    (ht : Trims S.assignment (S.store.lits o) c.literals.toList) (hf : c.flags = S.store.flagsAt o)
    (hfirst : ∃ tail, S.store.lits o = l :: tail) :
    Sweeping lags S start (done ++ [o]) (t.append c.settled)
      (rehome x l (.large ⟨t.words.size, t.epoch⟩)) := by
  obtain ⟨ha, hm, hgather⟩ := h.append hS ho h3 hfit ht hf
  obtain ⟨i, hi, hr, h1, tail, hlits, htail⟩ := ((hpin o ho).1 hp).exists_at hS.grounded
  obtain ⟨tail', hlits'⟩ := hfirst
  obtain ⟨rfl, rfl⟩ : S.trail.at' i = l ∧ tail = tail' := by
    rw [hlits] at hlits'
    simpa using hlits'
  have hc := h.moves.chain
  have hs := h.rehomes.rehomed.sized hS.frame.sized
  have hvar : (S.trail.at' i).var < S.numbering.size :=
    (hS.frame.trail.usable _ (Trail.at'_mem hi)).1
  have hnodup : ∀ m ∈ rest, m ∈ tail := fun m hm => by
    have hmem := ht.mem (l := m) (by rw [hl]; exact List.mem_cons_of_mem _ hm)
    rw [hlits] at hmem
    refine (List.mem_cons.1 hmem).resolve_left ?_
    rintro rfl
    have := hfit.nodup
    rw [hl, List.map_cons, List.nodup_cons] at this
    exact this.1 (List.mem_map_of_mem hm)
  refine ⟨hm, hgather, h.rehomes.rehome hS.grounded hi hr hS.frame
    (by rw [h.moves.epoch]; exact Store.nextEpoch_ne _) ha.epoch hq hd
    (fun r hcur => ⟨ha.current hcur, ha.lits_old hc hcur.2⟩) ?_ ⟨ha.current_next.2, ?_⟩ ho
    fun o' ho' hp' => ?_, fun l' hl' m hm' => ?_⟩
  · unfold Grounded
    rw [Assignment.reason_setReason hs hvar, if_pos rfl]
    refine ⟨?_, ha.current_next, rest, ha.lits.trans hl, fun m hm => htail m (hnodup m hm)⟩
    rw [Forced, (Assignment.Rehomed.setReason hs hvar _).level_eq, h.rehomes.rehomed.level_eq]
    exact h1
  · simp only
    rw [ha.lits]
    exact ht
  · rcases ha.mem_offsets.1 ho' with ho' | rfl
    · rw [ha.flagsAt_old hc ho'] at hp'
      exact .inl ⟨ho', hp'⟩
    · exact .inr rfl
  · rw [rehome, Assignment.reason_setReason hs hvar] at hm'
    split at hm'
    · simp at hm'
    · exact h.stored l' hl' m hm'

/-- A pinned clause that becomes a binary clause gives its first literal a new reason. -/
theorem Sweeping.rehome_binary {w : Watches} {l m : Literal} {r : Bool}
    (hp : (S.store.flagsAt o).reason = true) (hgather : Gathers lags S (done ++ [o]) t w)
    (hmore : ∀ l, ∀ y ∈ x.2.view l, y ∈ w.view l) (hin : .binary m r false ∈ w.view l)
    (ht : Trims S.assignment (S.store.lits o) [l, m]) (hne : l ≠ m) (hfix : S.assignment.fixed m ≠ .ff)
    (hfirst : ∃ tail, S.store.lits o = l :: tail) :
    Sweeping lags S start (done ++ [o]) t (rehome (x.1, w) l (.binary m)) := by
  obtain ⟨i, hi, hr, h1, tail, hlits, htail⟩ := ((hpin o ho).1 hp).exists_at hS.grounded
  obtain ⟨tail', hlits'⟩ := hfirst
  obtain ⟨rfl, rfl⟩ : S.trail.at' i = l ∧ tail = tail' := by
    rw [hlits] at hlits'
    simpa using hlits'
  have hs := h.rehomes.rehomed.sized hS.frame.sized
  have hvar : (S.trail.at' i).var < S.numbering.size :=
    (hS.frame.trail.usable _ (Trail.at'_mem hi)).1
  have hm : m ∈ tail := by
    have hmem := ht.mem (l := m) (by simp)
    rw [hlits] at hmem
    exact (List.mem_cons.1 hmem).resolve_left (Ne.symm hne)
  refine ⟨h.moves, hgather, h.rehomes.rehome hS.grounded hi hr hS.frame
    (by rw [h.moves.epoch]; exact Store.nextEpoch_ne _) rfl hq hd (fun r hcur => ⟨hcur, rfl⟩) ?_
    ht ho fun o' ho' hp' => .inl ⟨ho', hp'⟩, fun l' hl' m' hm' => ?_⟩
  · unfold Grounded Forced
    rw [Assignment.reason_setReason hs hvar, if_pos rfl]
    simp only [(Assignment.Rehomed.setReason hs hvar _).level_eq, h.rehomes.rehomed.level_eq]
    refine ⟨h1, htail m hm, Nat.one_le_iff_ne_zero.2 fun h0 => hfix (Assignment.fixed_ff.2 ⟨?_, h0⟩)⟩
    exact hS.frame.val_ff.2 (Trail.mem_of_mem_upTo (htail m hm))
  · rw [rehome, Assignment.reason_setReason hs hvar] at hm'
    split at hm'
    · next hv =>
      obtain rfl := Reason.binary.inj hm'
      obtain ⟨j, hj, rfl⟩ := Trail.exists_at' hl'
      rw [hS.frame.trail.at'_inj hj hi hv]
      exact ⟨_, _, hin⟩
    · obtain ⟨r', y, hy⟩ := h.stored l' hl' m' hm'
      exact ⟨r', y, hmore _ _ hy⟩

omit h hq hd in
/-- A clause that is not dropped is fit, has no literal that is true at the root, and if it is pinned then
its first literal is not false at the root. -/
theorem Collectable.fits_of_kept (h1 : (S.store.flagsAt o).garbage = true → (S.store.flagsAt o).reason = true)
    (h2 : (∃ l ∈ S.store.lits o, S.assignment.fixed l = .tt) → (S.store.flagsAt o).reason = true) :
    Fits S.numbering.Usable S.assignment (lags ∧ (S.store.flagsAt o).redundant = true)
        (S.store.lits o) ∧
      (∀ l ∈ S.store.lits o, S.assignment.fixed l ≠ .tt) ∧
      ((S.store.flagsAt o).reason = true →
        ∃ l tail, S.store.lits o = l :: tail ∧ S.assignment.fixed l ≠ .ff) := by
  cases hr : (S.store.flagsAt o).reason with
  | false =>
    rw [hr] at h1 h2
    refine ⟨hS.fits o ho (.inl ?_), fun l hl ht => absurd (h2 ⟨l, hl, ht⟩) (by simp), fun hf => by simp at hf⟩
    rw [← Bool.not_eq_true]
    exact fun hg => absurd (h1 hg) (by simp)
  | true =>
    obtain ⟨i, hi, -, hlev, tail, hlits, htail⟩ := ((hpin o ho).1 hr).exists_at hS.grounded
    have hval := hS.frame.val_tt.2 (Trail.at'_mem hi)
    have hle := hS.frame.trail.level_le hi
    have hlev := hlev.1
    refine ⟨hS.fits o ho (.inr (by omega)), fun l hl ht => ?_, fun _ => ⟨_, tail, hlits, fun hf => ?_⟩⟩
    · rw [hlits] at hl
      obtain ⟨hv, h0⟩ := Assignment.fixed_tt.1 ht
      rcases List.mem_cons.1 hl with rfl | hl
      · omega
      · have hff := hS.frame.val_ff.2 (Trail.mem_of_mem_upTo (htail l hl))
        rw [val, hv] at hff
        simp at hff
    · have := (Assignment.fixed_ff.1 hf).1
      rw [val, this] at hval
      simp at hval

/-- What a dense collection does to a clause. -/
theorem Sweeping.visit_dense : S.store.Visits denseRule (Sweeping lags S start) done o t x := by
  have hat := (hS.chain.mem ho).2
  have hlits : (S.store.recordAt o).literals.toList = S.store.lits o := Store.literalsAt_toList hat.fits
  have h3 : 3 ≤ (S.store.recordAt o).literals.size :=
    Nat.le_trans hat.three (Nat.le_of_eq (Store.size_literalsAt hat.fits).symm)
  have hflags : (S.store.recordAt o).flags = S.store.flagsAt o := rfl
  have ht : Trims S.assignment (S.store.lits o) (S.store.recordAt o).literals.toList := hlits ▸ .refl _ _
  unfold Store.Visits denseRule
  simp only [hflags]
  cases hr : (S.store.flagsAt o).reason with
  | true =>
    -- a clause that is pinned is kept, be it garbage or not
    obtain ⟨i, hi, -, hlev, tail, hl, -⟩ := ((hpin o ho).1 hr).exists_at hS.grounded
    have hle := hS.frame.trail.level_le hi
    have hlev := hlev.1
    have hfirst := hlits.trans hl
    have h0 : (S.store.recordAt o).literals.getD 0 .invalid = S.trail.at' i := by
      rw [Array.getD_eq_getD_getElem?, ← Array.getElem?_toList, hfirst]
      rfl
    simp only [Bool.not_true, Bool.and_false, Bool.false_eq_true, if_false, if_true, h0, ← h.moves.epoch]
    refine h.keep_pinned hS hpin ho hq hd hr hfirst h3 ?_ ht rfl ⟨tail, hl⟩
    rw [hlits]
    exact hS.fits o ho (.inr (by omega))
  | false =>
    simp only [Bool.not_false, Bool.and_true, Bool.false_eq_true, if_false]
    cases hg : (S.store.flagsAt o).garbage with
    | true => exact h.drop hS hpin ho hr fun _ hg' => by rw [hg] at hg'; simp at hg'
    | false => exact h.keep hS hpin ho hr h3 (by rw [hlits]; exact hS.fits o ho (.inl hg)) ht rfl

omit h hq hd in
/-- What a sparse collection comes to for a clause.  It is dropped, or at least two literals of it are left, and then it
becomes a binary clause or is written again. -/
theorem Collectable.sparse_cases (hx : S.assignment.Rehomed x.1) (old new : Reference) :
    ((S.store.flagsAt o).reason = false ∧
      ((S.store.flagsAt o).garbage = true ∨ ∃ l ∈ S.store.lits o, S.assignment.fixed l = .tt) ∧
      sparseRule x old new (S.store.recordAt o) = (none, x)) ∨
    (((S.store.flagsAt o).garbage = true → (S.store.flagsAt o).reason = true) ∧
      ((∃ l ∈ S.store.lits o, S.assignment.fixed l = .tt) → (S.store.flagsAt o).reason = true)) ∧
      ∃ rest : Array Literal, rest.toList = (S.store.lits o).filter (fun l => S.assignment.fixed l ≠ .ff) ∧
        ((∃ a b, rest.toList = [a, b] ∧ sparseRule x old new (S.store.recordAt o) =
            (none, if (S.store.flagsAt o).reason then
              rehome (x.1, x.2.addBinary a b (S.store.flagsAt o).redundant false) a (.binary b)
            else (x.1, x.2.addBinary a b (S.store.flagsAt o).redundant false))) ∨
          3 ≤ rest.size ∧ sparseRule x old new (S.store.recordAt o) =
            (some { S.store.recordAt o with literals := rest },
              if (S.store.flagsAt o).reason then rehome x (rest.getD 0 .invalid) (.large new) else x)) := by
  have hat := (hS.chain.mem ho).2
  have hlits : (S.store.recordAt o).literals.toList = S.store.lits o := Store.literalsAt_toList hat.fits
  have hflags : (S.store.recordAt o).flags = S.store.flagsAt o := rfl
  have hany : ((S.store.recordAt o).literals.any fun l => x.1.fixed l = .tt) = true ↔
      ∃ l ∈ S.store.lits o, S.assignment.fixed l = .tt := by
    rw [← Array.any_toList, hlits, List.any_eq_true, hx.fixed_eq]
    simp
  unfold sparseRule
  simp only [hflags]
  by_cases h1 : ((S.store.flagsAt o).garbage && !(S.store.flagsAt o).reason) = true
  · rw [if_pos h1]
    simp only [Bool.and_eq_true, Bool.not_eq_true'] at h1
    exact .inl ⟨h1.2, .inl h1.1, rfl⟩
  rw [if_neg h1]
  by_cases h2 : (!(S.store.flagsAt o).reason &&
      (S.store.recordAt o).literals.any fun l => x.1.fixed l = .tt) = true
  · rw [if_pos h2]
    simp only [Bool.and_eq_true, Bool.not_eq_true', hany] at h2
    exact .inl ⟨h2.1, .inr h2.2, rfl⟩
  rw [if_neg h2]
  have hgarbage : (S.store.flagsAt o).garbage = true → (S.store.flagsAt o).reason = true := by
    intro hg
    simpa [hg] using h1
  have htrue : (∃ l ∈ S.store.lits o, S.assignment.fixed l = .tt) → (S.store.flagsAt o).reason = true := by
    intro ht
    simpa [hany.2 ht] using h2
  -- what is left of the clause has at least two literals
  obtain ⟨hfit, hroot, -⟩ := hS.fits_of_kept hpin ho hgarbage htrue
  generalize hrest : ((S.store.recordAt o).literals.filter fun l => x.1.fixed l ≠ .ff) = rest
  have hrl : rest.toList = (S.store.lits o).filter fun l => S.assignment.fixed l ≠ .ff := by
    rw [← hrest, Array.toList_filter, hlits, hx.fixed_eq]
  have ht : Trims S.assignment (S.store.lits o) rest.toList := hrl ▸ .filter _ _
  have h2le : 2 ≤ rest.size := by
    rw [← Array.length_toList]
    exact (ht.fits hfit).two_le fun l hl => hroot l (ht.mem hl)
  refine .inr ⟨⟨hgarbage, htrue⟩, rest, hrl, ?_⟩
  rw [if_neg (by omega)]
  by_cases h3 : rest.size = 2
  · obtain ⟨a, b, hab⟩ := List.length_eq_two.1 (Array.length_toList.trans h3)
    have hget : rest.getD 0 .invalid = a ∧ rest.getD 1 .invalid = b := by
      simp only [Array.getD_eq_getD_getElem?, ← Array.getElem?_toList, hab]
      exact ⟨rfl, rfl⟩
    refine .inl ⟨a, b, hab, ?_⟩
    rw [if_pos h3, hget.1, hget.2]
  · refine .inr ⟨by omega, ?_⟩
    rw [if_neg h3]

/-- What a sparse collection does to a clause. -/
theorem Sweeping.visit_sparse : S.store.Visits sparseRule (Sweeping lags S start) done o t x := by
  unfold Store.Visits
  rcases hS.sparse_cases hpin ho h.rehomes.rehomed ⟨o, S.store.epoch⟩ ⟨t.words.size, Store.nextEpoch S.store.epoch⟩ with
    ⟨hr, hdrop, he⟩ | ⟨⟨hgarbage, htrue⟩, rest, hrl, hleft⟩
  · rw [he]
    refine h.drop hS hpin ho hr fun _ hg => ?_
    rcases hdrop with hg' | hd'
    · exact absurd (hg.symm.trans hg') Bool.false_ne_true
    · exact .inl hd'
  obtain ⟨hfit, -, hpinned⟩ := hS.fits_of_kept hpin ho hgarbage htrue
  have ht : Trims S.assignment (S.store.lits o) rest.toList := hrl ▸ .filter _ _
  have hfit' := ht.fits hfit
  have hfirst : (S.store.flagsAt o).reason = true → ∃ l tail tail', rest.toList = l :: tail ∧
      S.store.lits o = l :: tail' := by
    intro hr
    obtain ⟨l, tail, hl, hff⟩ := hpinned hr
    rw [hrl, hl]
    exact ⟨l, _, tail, List.filter_cons_of_pos (by simpa using hff), rfl⟩
  rcases hleft with ⟨a, b, hab, he⟩ | ⟨h3, he⟩
  · have hb : S.assignment.fixed b ≠ .ff := by
      have hmem : b ∈ rest.toList := by simp [hab]
      rw [hrl] at hmem
      simpa using (List.mem_filter.1 hmem).2
    rw [hab] at ht hfit' hfirst
    obtain ⟨hg, hmore, hmem⟩ := h.gathers.addBinary hS.frame (S.store.flagsAt o).redundant hfit' ho ht
    have hg' := hg.skip (o := o) fun hr _ => .inr (.inr ⟨a, b, false, hr ▸ hmem, ht⟩)
    rw [he]
    cases hr : (S.store.flagsAt o).reason with
    | false =>
      refine ⟨h.moves, hg', h.rehomes.skip hS.grounded (not_isReason hpin ho hr), fun l hl m hm => ?_⟩
      obtain ⟨r, y, hy⟩ := h.stored l hl m hm
      exact ⟨r, y, hmore _ _ hy⟩
    | true =>
      obtain ⟨l, tail, tail', hl, hl'⟩ := hfirst hr
      obtain ⟨rfl, rfl⟩ := List.cons.inj hl
      refine h.rehome_binary hS hpin ho hq hd hr hg' hmore hmem ht ?_ hb ⟨tail', hl'⟩
      rintro rfl
      have hnodup := hfit'.nodup
      simp at hnodup
  · rw [he]
    cases hr : (S.store.flagsAt o).reason with
    | false => exact h.keep hS hpin ho hr h3 hfit' ht rfl
    | true =>
      obtain ⟨l, tail, tail', hl, hl'⟩ := hfirst hr
      have h0 : rest.getD 0 .invalid = l := by
        rw [Array.getD_eq_getD_getElem?, ← Array.getElem?_toList, hl]
        rfl
      simp only [h0, if_true, ← h.moves.epoch]
      exact h.keep_pinned hS hpin ho hq hd (c := { S.store.recordAt o with literals := rest }) hr hl h3 hfit' ht rfl
        ⟨tail', hl'⟩

end Visit

/-! ## The whole sweep -/

section Sweep

variable {t : Store} {x : Assignment × Watches} {done : List Nat} {mode : CollectMode}

/-- The count of garbage is of no matter. -/
theorem Sweeping.garbage (h : Sweeping lags S start done t x) (garbage : Nat) :
    Sweeping lags S start done { t with garbage } x := by
  have hc := h.moves.chain
  have hw : ({ t with garbage } : Store).words = t.words := rfl
  have hoff : Store.offsets { t with garbage } = t.offsets := Store.offsetsFrom_of_words hw hc
  refine ⟨⟨h.moves.epoch, hc.of_words hw, ?_, h.moves.word, fun o ho => ?_, fun o' ho' => ?_⟩,
    { h.gathers with spared := fun o ho hr hg => ?_ },
    { h.rehomes with
      grounded := fun i hi hd => ?_
      remains := fun l hl r hr hd => (h.rehomes.remains l hl r hr hd).imp fun o ho =>
        ⟨hoff.symm ▸ ho, .refl _⟩
      pinned := fun o ho hp => ?_ }, h.stored⟩
  · rcases h.moves.stop with h0 | hm | he
    · exact .inl h0
    · exact .inr (.inl (hoff.symm ▸ hm))
    · exact .inr (.inr he)
  · rw [hoff]
    exact h.moves.early o ho
  · exact h.moves.moved o' (hoff ▸ ho')
  · refine (h.gathers.spared o ho hr hg).imp_right (.imp_left ?_)
    rintro ⟨o', ho', h'⟩
    exact ⟨o', hoff.symm ▸ ho', h'⟩
  · exact (h.rehomes.grounded i hi hd).imp fun r rest _ hcur hlits =>
      ⟨⟨hcur.1, hoff.symm ▸ hcur.2⟩, rest, hlits, fun _ hm => hm⟩
  · exact h.rehomes.pinned o (hoff ▸ ho) hp

/-- What a collection does to each clause. -/
def ruleOf : CollectMode → Store.SweepRule (Assignment × Watches)
  | .sparse => sparseRule
  | .dense => denseRule

theorem fits_denseRule : denseRule.Fits := by
  intro x old new c c' hkept h3
  unfold denseRule at hkept
  split at hkept
  · cases hkept
  · split at hkept
    · obtain rfl := Option.some.inj hkept
      exact ⟨h3, Nat.le_refl _⟩
    · obtain rfl := Option.some.inj hkept
      exact ⟨h3, Nat.le_refl _⟩

theorem fits_sparseRule : sparseRule.Fits := by
  intro x old new c c' hkept h3
  unfold sparseRule at hkept
  dsimp only at hkept
  split at hkept
  · cases hkept
  split at hkept
  · cases hkept
  split at hkept
  · obtain rfl := Option.some.inj hkept
    exact ⟨h3, Nat.le_refl _⟩
  split at hkept
  · cases hkept
  · -- three literals are left, at least
    obtain rfl := Option.some.inj hkept
    exact ⟨by dsimp only; omega, Array.size_filter_le⟩

theorem fits_ruleOf (mode : CollectMode) : (ruleOf mode).Fits := by
  cases mode with
  | sparse => exact fits_sparseRule
  | dense => exact fits_denseRule

/-- What is kept by every visit while clauses are gone through is kept by a sweep. -/
theorem Collectable.sweep_induct {P : List Nat → Store → Assignment × Watches → Prop} (hS : S.Collectable lags start)
    (mode : CollectMode) (hpin : ∀ o ∈ S.store.offsets, (S.store.flagsAt o).reason = true ↔ S.IsReason o)
    (hstep : ∀ done o t x, o ∈ S.store.offsets → start ≤ o → Sweeping lags S start done t x → P done t x →
      S.store.Visits (ruleOf mode) P done o t x)
    (h : P (S.store.cut start (Store.nextEpoch S.store.epoch)).offsets
      (S.store.cut start (Store.nextEpoch S.store.epoch)) (S.assignment, S.watches)) :
    ∃ t x garbage, Sweeping lags S start S.store.offsets t x ∧ P S.store.offsets t x ∧
      S.sweep start mode = (⟨start, S.store.epoch, Store.nextEpoch S.store.epoch⟩,
        { S with store := { t with garbage }, assignment := x.1, watches := x.2 }) := by
  have hvisit : ∀ done o t x, o ∈ S.store.offsets → start ≤ o → o ∉ done → Sweeping lags S start done t x →
      S.store.Visits (ruleOf mode) (Sweeping lags S start) done o t x := fun done o t x ho hq hd hsw => by
    cases mode with
    | sparse => exact hsw.visit_sparse hS hpin ho hq hd
    | dense => exact hsw.visit_dense hS hpin ho hq hd
  obtain ⟨t, x, g, ⟨hsw, hP⟩, he⟩ := Store.sweep_induct (fits_ruleOf mode) hS.chain hS.stop
    (fun done o t x ho hq hd h => (hvisit done o t x ho hq hd h.1).and (hstep done o t x ho hq h.1 h.2))
    (And.intro (hS.sweeping fun o ho => (hpin o ho).1) h)
  refine ⟨t, x, g, hsw, hP, ?_⟩
  unfold Solver.sweep
  cases mode with
  | sparse =>
    simp only [ruleOf] at he
    simp only [he]
  | dense =>
    simp only [ruleOf] at he
    simp only [he]

/-- A whole sweep. -/
theorem Collectable.sweep (hS : S.Collectable lags start)
    (hpin : ∀ o ∈ S.store.offsets, (S.store.flagsAt o).reason = true ↔ S.IsReason o) :
    ∃ t x, Sweeping lags S start S.store.offsets t x ∧
      S.sweep start mode = (⟨start, S.store.epoch, Store.nextEpoch S.store.epoch⟩,
        { S with store := t, assignment := x.1, watches := x.2 }) := by
  obtain ⟨t, x, garbage, hsw, -, he⟩ := hS.sweep_induct (P := fun _ _ _ => True) mode hpin
    (fun _ _ _ _ _ _ _ _ => by unfold Store.Visits; split <;> trivial) trivial
  exact ⟨_, x, hsw.garbage garbage, he⟩

end Sweep

end Solver

end ClauseLearning

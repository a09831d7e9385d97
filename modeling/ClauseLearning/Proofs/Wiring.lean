import ClauseLearning.Proofs.Assign
import ClauseLearning.Proofs.Visit

/-!
# Changes of clauses and watches

When a clause is visited, its literals change places and a watch may move from one list to another.  The
clauses stay watched and guarded, and a clause that is a reason keeps its place.

* `Store.Watched.front` — the literals that watch a clause are its first two.
* `Store.Watched.moved`, `Store.Watched.kept` — the two ways in which a watch is dealt with.
* `Solver.Wired.permute` — the literals of one clause in another order.
* `Solver.Wired.addBinary` — one more binary clause.
-/

namespace ClauseLearning

/-! ## Values and the trail -/

namespace Solver

variable {ε : Type} {lags : Prop} {s : Solver ε} {l m : Literal} {p : Nat}

theorem Frame.val_tt (h : s.Frame) : s.val l = .tt ↔ l ∈ s.trail.literals := h.trail.tt_iff l

theorem Frame.val_ff (h : s.Frame) : s.val l = .ff ↔ -l ∈ s.trail.literals := h.trail.ff_iff h.sized

theorem Frame.usable_of_mem (h : s.Frame) (hl : l ∈ s.trail.literals) : s.numbering.Usable l.var :=
  h.trail.usable l hl

theorem Frame.usable_of_neg_mem (h : s.Frame) (hl : -l ∈ s.trail.literals) : s.numbering.Usable l.var :=
  Literal.var_negate l ▸ h.usable_of_mem hl

theorem Frame.code_lt (h : s.Frame) (hu : s.numbering.Usable l.var) :
    l.code < s.watches.lists.size := by
  rw [h.lists]
  exact Literal.code_lt_iff.2 hu.1

end Solver

namespace Store

variable {s s' : Store} {view view' : Literal → List Watch} {r : Reference} {o : Nat}

/-! ## Watches on clauses of the store -/

theorem current_iff (he : s'.epoch = s.epoch) (ho : s'.offsets = s.offsets) (r : Reference) :
    s'.Current r ↔ s.Current r := by
  unfold Current
  rw [he, ho]

theorem Current.ext {r' : Reference} (h : s.Current r) (h' : s.Current r')
    (ho : r'.offset = r.offset) : r' = r := by
  obtain ⟨o, e⟩ := r
  obtain ⟨o', e'⟩ := r'
  simp only [Current] at h h' ho
  rw [ho, h.1, h'.1]

theorem Permuted.mem_lits_iff (h : Permuted o s s') (hc : s.Chain 0) (ho : o ∈ s.offsets)
    {o' : Nat} (ho' : o' ∈ s.offsets) (l : Literal) : l ∈ s'.lits o' ↔ l ∈ s.lits o' := by
  by_cases he : o' = o
  · rw [he]
    exact h.mem_lits
  · rw [h.lits_other hc ho ho' he]

/-- A good store stays so when the literals of a clause change places. -/
theorem Good.permute {usable : Nat → Prop} (h : s.Good usable) (hp : Permuted o s s')
    (ho : o ∈ s.offsets) : s'.Good usable := by
  have hoff := hp.offsets h.chain ho
  refine ⟨hp.chain h.chain ho, fun o' ho' => ?_, fun o' ho' l hl => ?_⟩
  · rw [hoff] at ho'
    by_cases he : o' = o
    · rw [he]
      exact (hp.perm.map Literal.var).nodup_iff.2 (h.nodup o ho)
    · rw [hp.lits_other h.chain ho ho' he]
      exact h.nodup o' ho'
  · rw [hoff] at ho'
    exact h.usable o' ho' l ((hp.mem_lits_iff h.chain ho ho' l).1 hl)

theorem Good.nodup_lits {usable : Nat → Prop} (h : s.Good usable) (ho : o ∈ s.offsets) :
    (s.lits o).Nodup := List.Nodup.of_map _ (h.nodup o ho)

theorem Good.hasAt {usable : Nat → Prop} (h : s.Good usable) (ho : o ∈ s.offsets) : s.HasAt o :=
  (h.chain.mem ho).2

theorem Good.literalAt_ne {usable : Nat → Prop} (h : s.Good usable) (ho : o ∈ s.offsets) :
    s.literalAt o 0 ≠ s.literalAt o 1 := fun he => by
  have h3 := (h.hasAt ho).three
  have := nodup_literalAt (h.nodup_lits ho) (by omega) (by omega) he
  omega

namespace Watched

/-- Only clauses that are there are watched. -/
theorem current (h : s.Watched view) {l b : Literal} (hm : .large b r ∈ view l) : s.Current r :=
  ((h.mem_iff l r).1 (List.mem_filterMap.2 ⟨_, hm, rfl⟩)).1

/-- The two literals whose lists have a watch on a clause are its first two. -/
theorem front (h : s.Watched view) {x b y d : Literal} (hx : .large b r ∈ view x)
    (hy : .large d r ∈ view y) (hne : x ≠ y) : s.Front r.offset x y := by
  have h1 := ((h.mem_iff x r).1 (List.mem_filterMap.2 ⟨_, hx, rfl⟩)).2
  have h2 := ((h.mem_iff y r).1 (List.mem_filterMap.2 ⟨_, hy, rfl⟩)).2
  rcases h1 with h1 | h1 <;> rcases h2 with h2 | h2
  · exact absurd (h1.symm.trans h2) hne
  · exact .inl ⟨h1, h2⟩
  · exact .inr ⟨h2, h1⟩
  · exact absurd (h1.symm.trans h2) hne

/-- A clause is watched by its first two literals. -/
theorem mem_refs_iff (h : s.Watched view) (hr : s.Current r) {x y : Literal} (hw : s.Front r.offset x y)
    (l : Literal) : r ∈ (view l).filterMap Watch.ref? ↔ l = x ∨ l = y := by
  rw [h.mem_iff, hw.literalAt_iff, and_iff_right hr]

/-- A literal has one watch on a clause. -/
theorem blocking_unique (h : s.Watched view) {l b b' : Literal} (hb : .large b r ∈ view l)
    (hb' : .large b' r ∈ view l) : b = b' := by
  by_contra hne
  obtain ⟨ws, ws', he⟩ := List.append_of_mem hb
  have hn := h.nodup l
  rw [he] at hb' hn
  rw [List.filterMap_append, List.filterMap_cons_some (Watch.ref?_large b r)] at hn
  obtain ⟨-, hn', hdis⟩ := List.nodup_append.1 hn
  rcases List.mem_append.1 hb' with hm | hm
  · exact hdis r (List.mem_filterMap.2 ⟨_, hm, rfl⟩) r (List.mem_cons_self ..) rfl
  · rcases List.mem_cons.1 hm with hm | hm
    · exact hne (Watch.large.inj hm).1.symm
    · exact (List.nodup_cons.1 hn').1 (List.mem_filterMap.2 ⟨_, hm, rfl⟩)

/-- The literals of a clause have watches on it. -/
theorem exists_pair (h : s.Watched view) (hr : s.Current r) :
    ∃ b d, .large b r ∈ view (s.literalAt r.offset 0) ∧ .large d r ∈ view (s.literalAt r.offset 1) := by
  have h0 := (h.mem_iff _ r).2 ⟨hr, .inl rfl⟩
  have h1 := (h.mem_iff _ r).2 ⟨hr, .inr rfl⟩
  obtain ⟨w, hw, he⟩ := List.mem_filterMap.1 h0
  obtain ⟨w', hw', he'⟩ := List.mem_filterMap.1 h1
  obtain ⟨b, rfl⟩ := Watch.ref?_eq_some.1 he
  obtain ⟨d, rfl⟩ := Watch.ref?_eq_some.1 he'
  exact ⟨b, d, hw, hw'⟩

/-- The same clauses are watched by the same literals. -/
theorem kept (h : s.Watched view) (hcur : ∀ r, s'.Current r ↔ s.Current r)
    (hlit : ∀ r l, s.Current r → ((s'.literalAt r.offset 0 = l ∨ s'.literalAt r.offset 1 = l) ↔
      (s.literalAt r.offset 0 = l ∨ s.literalAt r.offset 1 = l)))
    (hmem : ∀ r l, s.Current r → l ∈ s.lits r.offset → l ∈ s'.lits r.offset)
    (hrefs : ∀ l, (view' l).filterMap Watch.ref? = (view l).filterMap Watch.ref?)
    (hblock : ∀ l b r, .large b r ∈ view' l → b ∈ s.lits r.offset) : s'.Watched view' where
  nodup l := by
    rw [hrefs]
    exact h.nodup l
  mem_iff l r := by
    rw [hrefs, h.mem_iff, hcur]
    exact and_congr_right fun hr => (hlit r l hr).symm
  blocking l b r hw := by
    have hr : r ∈ (view l).filterMap Watch.ref? := by
      rw [← hrefs]
      exact List.mem_filterMap.2 ⟨_, hw, rfl⟩
    exact hmem r b ((h.mem_iff l r).1 hr).1 (hblock l b r hw)

/-! ### A watch that moves -/

section Moved

variable {no m other b : Literal} {ws ws' : List Watch} (hno : view no = ws ++ .large b r :: ws')
  (hview : ∀ l, view' l = if l = no then ws ++ ws' else if l = m then view l ++ [.large other r] else view l)
include hno hview

/-- Every watch was there before, but for the one that has moved. -/
theorem mem_of_moved {l d : Literal} {r' : Reference} (hm : .large d r' ∈ view' l) :
    .large d r' ∈ view l ∨ d = other ∧ r' = r := by
  rw [hview] at hm
  split at hm
  · next hl =>
    rw [hl, hno]
    left
    simp only [List.mem_append, List.mem_cons] at hm ⊢
    exact hm.imp_right .inr
  · split at hm
    · rcases List.mem_append.1 hm with hm | hm
      · exact .inl hm
      · obtain ⟨rfl, rfl⟩ := Watch.large.inj (List.mem_singleton.1 hm)
        exact .inr ⟨rfl, rfl⟩
    · exact .inl hm

/-- Binary clauses are not touched. -/
theorem isBinary_moved (l : Literal) : (view' l).filter Watch.isBinary = (view l).filter Watch.isBinary := by
  rw [hview]
  split
  · next hl =>
    rw [hl, hno]
    simp [List.filter_append, Watch.isBinary]
  · split
    · simp [List.filter_append, Watch.isBinary]
    · rfl

/-- Other clauses are watched by the same literals. -/
theorem mem_refs_moved_of_ne {l : Literal} {r' : Reference} (hne : r' ≠ r) :
    r' ∈ (view' l).filterMap Watch.ref? ↔ r' ∈ (view l).filterMap Watch.ref? := by
  rw [hview]
  split
  · next hl =>
    rw [hl, hno]
    simp [hne, List.filterMap_append]
  · split
    · simp [hne, List.filterMap_append]
    · exact Iff.rfl

/-- The list that the watch has left has no other watch on the clause. -/
theorem not_mem_refs_left (h : s.Watched view) : r ∉ (view' no).filterMap Watch.ref? := by
  have hnd := h.nodup no
  rw [hno, List.filterMap_append, List.filterMap_cons_some (Watch.ref?_large b r)] at hnd
  rw [hview, if_pos rfl, List.filterMap_append, List.mem_append]
  rintro (hm | hm)
  · exact (List.nodup_append.1 hnd).2.2 r hm r (List.mem_cons_self ..) rfl
  · exact (List.nodup_cons.1 (List.nodup_append.1 hnd).2.1).1 hm

/-- The clause is watched by the literal that the watch has moved to, in place of the one that it has left. -/
theorem mem_refs_moved (h : s.Watched view) (hr : s.Current r) (hw : s.Front r.offset other no) (hone : other ≠ no)
    (hmno : m ≠ no) (l : Literal) : r ∈ (view' l).filterMap Watch.ref? ↔ l = other ∨ l = m := by
  by_cases hl : l = no
  · subst hl
    have hleft := not_mem_refs_left hno hview h
    exact ⟨fun hm => absurd hm hleft, fun he => (he.elim hone.symm hmno.symm).elim⟩
  · rw [hview, if_neg hl]
    split
    · next hlm => simp [hlm]
    · next hlm =>
      rw [h.mem_refs_iff hr hw]
      simp [hl, hlm]

/-- No list has two watches on one clause. -/
theorem nodup_moved (h : s.Watched view) (hr : s.Current r) (hw : s.Front r.offset other no) (hmno : m ≠ no)
    (hmo : m ≠ other) (l : Literal) : ((view' l).filterMap Watch.ref?).Nodup := by
  have hnd := h.nodup l
  rw [hview]
  split
  · next hl =>
    rw [hl, hno] at hnd
    exact hnd.sublist (by simp)
  · split
    · next hlm =>
      have hrl : r ∉ (view l).filterMap Watch.ref? := by
        rw [h.mem_refs_iff hr hw, hlm]
        exact fun he => he.elim hmo hmno
      rw [List.filterMap_append]
      refine List.nodup_append.2 ⟨hnd, by simp, fun x hx y hy hxy => ?_⟩
      simp only [List.filterMap_cons, Watch.ref?_large, List.filterMap_nil, List.mem_singleton] at hy
      exact hrl (hy ▸ hxy ▸ hx)
    · exact hnd

/-- A watch on a clause moves from the list of `no` to the list of `m`. -/
theorem moved (h : s.Watched view) (hg : ∀ o ∈ s.offsets, s.literalAt o 0 ≠ s.literalAt o 1)
    (hc : s.Chain 0) (hr : s.Current r) (hp : Permuted r.offset s s') (hw : s.Front r.offset other no)
    (h0 : s'.literalAt r.offset 0 = other) (h1 : s'.literalAt r.offset 1 = m) (hmno : m ≠ no)
    (hmo : m ≠ other) : s'.Watched view' := by
  have hcur := current_iff hp.epoch (hp.offsets hc hr.2)
  have hone : other ≠ no := hw.ne (hg _ hr.2)
  have hw' : s'.Front r.offset other m := .inl ⟨h0, h1⟩
  refine ⟨nodup_moved hno hview h hr hw hmno hmo, fun l r' => ?_, fun l d r' hm => ?_⟩
  · by_cases hrr : r' = r
    · rw [hrr, mem_refs_moved hno hview h hr hw hone hmno, hw'.literalAt_iff, and_iff_right ((hcur r).2 hr)]
    · rw [mem_refs_moved_of_ne hno hview hrr, h.mem_iff, hcur]
      refine and_congr_right fun hr' => ?_
      have hne : r'.offset ≠ r.offset := fun he => hrr (hr.ext hr' he)
      have h3 := (hc.mem hr'.2).2.three
      rw [hp.literalAt_other hc hr.2 hr'.2 hne (by omega), hp.literalAt_other hc hr.2 hr'.2 hne (by omega)]
  · rcases mem_of_moved hno hview hm with hm | ⟨rfl, rfl⟩
    · exact (hp.mem_lits_iff hc hr.2 (h.current hm).2 d).2 (h.blocking l d r' hm)
    · have h3 := (hc.mem hr.2).2.three
      exact (hw'.mem (by rw [hp.sizeAt_self]; omega)).1

end Moved

end Watched

end Store

/-! ## One more binary clause -/

section AddBinary

variable {view view' : Literal → List Watch} {x y : Literal} {red hyp : Bool}
  (hview : ∀ l, view' l = if l = x then view l ++ [.binary y red hyp]
    else if l = y then view l ++ [.binary x red hyp] else view l)
include hview

/-- The watches on clauses of the store stay. -/
theorem mem_large_of_addBinary {l b : Literal} {r : Reference} (hm : .large b r ∈ view' l) :
    .large b r ∈ view l := by
  rw [hview] at hm
  split at hm
  · simpa using hm
  · split at hm <;> simpa using hm

/-- Everything stays guarded if the new clause is. -/
theorem Guarded.addBinary {lags : Prop} {t : Trail} {a : Assignment} {st : Store} {p : Nat}
    (h : Guarded lags t a st view p) (hg : Guard t a p (lags ∧ red = true) x y y x [x, y]) :
    Guarded lags t a st view' p := by
  refine ⟨fun l o r f hm => ?_, fun r u b w d hu hw => h.large r u b w d
    (mem_large_of_addBinary hview hu) (mem_large_of_addBinary hview hw)⟩
  rw [hview] at hm
  split at hm
  · next hl =>
    rcases List.mem_append.1 hm with hm | hm
    · exact h.binary l o r f hm
    · obtain ⟨rfl, rfl, -⟩ := Watch.binary.inj (List.mem_singleton.1 hm)
      rw [hl]
      exact hg
  · split at hm
    · next hl =>
      rcases List.mem_append.1 hm with hm | hm
      · exact h.binary l o r f hm
      · obtain ⟨rfl, rfl, -⟩ := Watch.binary.inj (List.mem_singleton.1 hm)
        rw [hl]
        exact hg.symm.of_mem (by simp)
    · exact h.binary l o r f hm

end AddBinary

namespace Solver

variable {ε : Type} {lags : Prop} {s : Solver ε} {p : Nat}

/-- Fewer or other watches that hold the same binary clauses. -/
theorem mem_of_isBinary {ws ws' : List Watch}
    (h : ws'.filter Watch.isBinary = ws.filter Watch.isBinary) {o : Literal} {r y : Bool} :
    .binary o r y ∈ ws' ↔ .binary o r y ∈ ws := by
  have := congrArg (Watch.binary o r y ∈ ·) h
  simpa [List.mem_filter, Watch.isBinary] using this

/-- The literals of one clause are in another order, and watches on clauses of the store have moved. -/
theorem Wired.permute (h : s.Wired lags p) {st' : Store} {w' : Watches} {o : Nat}
    (hp : Store.Permuted o s.store st') (ho : o ∈ s.store.offsets)
    (hw : st'.Watched w'.view)
    (hb : ∀ l, (w'.view l).filter Watch.isBinary = (s.watches.view l).filter Watch.isBinary)
    (hreason : ∀ i < s.trail.size, ∀ r, s.assignment.reason (s.trail.at' i) = .large r →
      r.offset = o → st'.lits o = s.store.lits o)
    (hold : ∀ l b r, r.offset ≠ o → .large b r ∈ w'.view l → .large b r ∈ s.watches.view l)
    (hg : ∀ r x b y d, r.offset = o → .large b r ∈ w'.view x → .large d r ∈ w'.view y → x ≠ y →
      Guard s.trail s.assignment p (lags ∧ (s.store.flagsAt o).redundant = true) x b y d
        (s.store.lits o)) :
    Wired lags { s with store := st', watches := w' } p := by
  have hc := h.store.chain
  have hoff := hp.offsets hc ho
  have hcur := Store.current_iff hp.epoch hoff
  refine ⟨h.store.permute hp ho, h.paired.congr hb, hw, fun i hi => ?_, fun l hl o' ho' => ?_,
    ⟨?_, fun r x b y d hx hy hne => ?_⟩, fun r hr => ?_⟩
  · refine (h.grounded i hi).imp fun r rest he hr hlits => ⟨(hcur r).2 hr, rest, ?_, fun _ hm => hm⟩
    by_cases hro : r.offset = o
    · rw [hro, hreason i hi r he hro, ← hro, hlits]
    · rw [hp.lits_other hc ho hr.2 hro, hlits]
  · refine (h.reasons l hl o' ho').imp_left ?_
    rintro ⟨r, y, hm⟩
    exact ⟨r, y, (mem_of_isBinary (hb l)).2 hm⟩
  · exact fun l o r y hm => h.guarded.binary l o r y ((mem_of_isBinary (hb l)).1 hm)
  · have hr : s.store.Current r := (hcur r).1 (hw.current hx)
    by_cases he : r.offset = o
    · subst he
      simp only
      rw [hp.flags]
      exact (hg r x b y d rfl hx hy hne).of_mem fun l hl => hp.mem_lits.1 hl
    · simp only
      rw [hp.flagsAt_other hc ho hr.2 he, hp.lits_other hc ho hr.2 he]
      exact h.guarded.large r x b y d (hold x b r he hx) (hold y d r he hy) hne
  · obtain ⟨h1, h2⟩ := h.recent r hr
    refine ⟨(hcur r).2 h1, ?_⟩
    rw [← h2]
    exact congrArg Flags.redundant (hp.flagsAt_eq hp.flags hc ho h1.2)

/-- One more binary clause. -/
theorem Wired.addBinary (h : s.Wired lags p) (hf : s.Frame) {a b : Literal} {r y : Bool}
    (ha : s.numbering.Usable a.var) (hb : s.numbering.Usable b.var) (hne : a.var ≠ b.var)
    (hy : y = true → r = true)
    (hg : Guard s.trail s.assignment p (lags ∧ r = true) a b b a [a, b]) :
    Wired lags { s with watches := s.watches.addBinary a b r y } p := by
  have hab : a ≠ b := fun he => hne (congrArg Literal.var he)
  have hview := Watches.view_addBinary r y (hf.code_lt ha) (hf.code_lt hb) hab
  have hrefs : ∀ l, ((s.watches.addBinary a b r y).view l).filterMap Watch.ref? =
      (s.watches.view l).filterMap Watch.ref? := fun l => by
    rw [hview]
    split
    · simp
    · split <;> simp
  have hlarge : ∀ l b' r', .large b' r' ∈ (s.watches.addBinary a b r y).view l →
      .large b' r' ∈ s.watches.view l := fun _ _ _ => mem_large_of_addBinary hview
  refine ⟨h.store, h.paired.addBinary ha hb hne hy hview,
    h.watched.kept (fun _ => Iff.rfl) (fun _ _ _ => Iff.rfl) (fun _ _ _ hm => hm) hrefs
      (fun l b' r' hm => h.watched.blocking l b' r' (hlarge l b' r' hm)), h.grounded,
    fun l hl o ho => (h.reasons l hl o ho).imp_left ?_,
    h.guarded.addBinary hview hg, h.recent⟩
  rintro ⟨r', y', hm⟩
  refine ⟨r', y', ?_⟩
  simp only
  rw [hview]
  split
  · exact List.mem_append_left _ hm
  · split
    · exact List.mem_append_left _ hm
    · exact hm

section AddBinary

variable {a b : Literal} {r y : Bool} {v : Valuation} (hf : s.Frame)
  (ha : s.numbering.Usable a.var) (hb : s.numbering.Usable b.var) (hne : a.var ≠ b.var)
include hf ha hb hne

/-- What is known with one more binary clause. -/
theorem Holds.addBinary (h : s.Holds v) (hs : v.Satisfies [a, b]) :
    Holds { s with watches := s.watches.addBinary a b r y } v := by
  have hview := Watches.view_addBinary r y (hf.code_lt ha) (hf.code_lt hb)
    fun he => hne (congrArg Literal.var he)
  refine { h with binary := fun l o r' y' hm => ?_ }
  rw [hview] at hm
  split at hm
  · next hl =>
    rcases List.mem_append.1 hm with hm | hm
    · exact h.binary l o r' y' hm
    · obtain ⟨rfl, -, -⟩ := Watch.binary.inj (List.mem_singleton.1 hm)
      exact hl ▸ hs
  · split at hm
    · next hl =>
      rcases List.mem_append.1 hm with hm | hm
      · exact h.binary l o r' y' hm
      · obtain ⟨rfl, -, -⟩ := Watch.binary.inj (List.mem_singleton.1 hm)
        obtain ⟨m, hm, ht⟩ := hs
        exact ⟨m, by simpa [hl, or_comm] using hm, ht⟩
    · exact h.binary l o r' y' hm

/-- Nothing is lost with one more binary clause. -/
theorem Base.of_addBinary (h : Base { s with watches := s.watches.addBinary a b r y } v) :
    s.Base v := by
  refine { h with binary := fun l o y' hm => h.binary l o y' ?_ }
  simp only [Watches.view_addBinary r y (hf.code_lt ha) (hf.code_lt hb)
    fun he => hne (congrArg Literal.var he)]
  split
  · exact List.mem_append_left _ hm
  · split
    · exact List.mem_append_left _ hm
    · exact hm

/-- One more binary clause, which was known. -/
theorem refines_addBinary (hs : ∀ v, s.Holds v → v.Satisfies [a, b]) :
    Refines s { s with watches := s.watches.addBinary a b r y } :=
  ⟨rfl, rfl, rfl, rfl, rfl, rfl, rfl, id, fun v h => h.addBinary hf ha hb hne (hs v h),
    fun _ h => h.of_addBinary hf ha hb hne⟩

end AddBinary

end Solver

end ClauseLearning

import ClauseLearning.Proofs.Accounting
import ClauseLearning.Proofs.Arrangement
import ClauseLearning.Proofs.Store.Amend
import ClauseLearning.Proofs.Fixpoint
import ClauseLearning.Proofs.RootPropagation
import ClauseLearning.Proofs.Tidying

/-!
# Clauses while they are simplified

At the root a simplification goes through the clauses of the store one by one.  What is satisfied becomes garbage, and
so does what is left with two literals, which becomes a binary clause.  All others are cut to what is left of them.  So
the collection that comes after it finds nothing more to be done but to drop the garbage, and what has become of every
clause over the whole is what would have become of it in a collection alone.

* `Solver.Pared`, `Solver.Simplifying.ends_simplifyOne_pared` — what becomes of one clause.
* `Solver.Pruned`, `Solver.Pruned.ends_simplifyAll` — what has become of those gone through, and of all.
* `Solver.Pruned.survivors_eq`, `Solver.Pruned.leaves` — what the collection after it finds.
* `Solver.Pruned.accounted` — nothing is counted twice by the collection.
* `Solver.Quiet.ends_simplifyAll` — the whole.
-/

namespace ClauseLearning

/-- Writing literals does not touch the glue. -/
theorem Store.glueAt_setLiteralsAt (s : Store) (o i : Nat) (ls : List Literal) :
    (s.setLiteralsAt o i ls).glueAt o = s.glueAt o := by
  induction ls generalizing s i with
  | nil => rfl
  | cons l ls ih =>
    rw [setLiteralsAt, ih, glueAt, setLiteralAt, word_setWord, if_neg (by simp only [headerWords]; omega)]
    rfl

/-- A clause that is overwritten and then cut to what was written. -/
theorem Store.shortened_setLiteralsAt {s : Store} {o : Nat} {ls : List Literal} (hc : s.Chain 0) (ho : o ∈ s.offsets)
    (hle : ls.length ≤ s.sizeAt o) :
    (((s.setLiteralsAt o 0 ls).recordAt o).shortened ls.length).literals.toList = ls ∧
      (((s.setLiteralsAt o 0 ls).recordAt o).shortened ls.length).glue = s.glueAt o ∧
      (((s.setLiteralsAt o 0 ls).recordAt o).shortened ls.length).flags =
        { s.flagsAt o with used := min (s.flagsAt o).used Flags.maxUsed, shrunken := true } := by
  have hw := overwritten_setLiteralsAt hc ho hle
  have hmem : o ∈ (s.setLiteralsAt o 0 ls).offsets := (hw.offsets hc ho).symm ▸ ho
  have hlits : ((s.setLiteralsAt o 0 ls).recordAt o).literals.toList = ls ++ (s.lits o).drop ls.length := by
    rw [← hw.lits]
    exact literalsAt_toList ((hw.chain hc ho).mem hmem).2.fits
  have hflags : ((s.setLiteralsAt o 0 ls).recordAt o).flags = s.flagsAt o := hw.flags
  refine ⟨?_, glueAt_setLiteralsAt s o 0 ls, ?_⟩
  · simp [Record.shortened, hlits]
  · simp [Record.shortened, hflags, Flags.maxUsed]

theorem Store.Record.garbage_trashed (c : Record) : c.trashed.flags.garbage = true := by
  unfold trashed
  split
  · assumption
  · rfl

/-- A clause that is amended twice is what it is amended to last. -/
theorem Store.Amended.trans {s s' s'' : Store} {o : Nat} {c c' : Record} (h : Amended o c s s')
    (h' : Amended o c' s' s'') : Amended o c' s s'' where
  epoch := h'.epoch.trans h.epoch
  size := h'.size.trans h.size
  chain := h'.chain
  offsets := h'.offsets.trans h.offsets
  self := h'.self
  other o' ho' hne := (h'.other o' (h.offsets.symm ▸ ho') hne).trans (h.other o' ho' hne)

namespace Solver

variable {ε : Type} {lags : Prop} {s s' S : Solver ε} {o : Nat} {done : List Nat} {t t' : Store} {w w' : Watches}

/-! ## What is left of clauses at the root -/

/-- No clause is a reason at the root. -/
theorem Collectable.not_isReason (h : S.Collectable lags 0) (h0 : S.trail.level = 0) (o : Nat) : ¬ S.IsReason o := by
  rintro ⟨l, hl, hr⟩
  exact Reason.noConfusion ((h.frame.trail.reason_unit h.grounded h0 hl).symm.trans hr)

/-- What a simplification makes of a clause, and of the watches. -/
inductive Pared (S : Solver ε) (o : Nat) (w : Watches) : Store.Record → Watches → Prop where
  /-- It is garbage. -/
  | dropped {c : Store.Record} (hs : S.survives .sparse o = false) (garbage : c.flags.garbage = true) :
      Pared S o w c w
  /-- It becomes a binary clause, and what is stored is garbage. -/
  | paired {c : Store.Record} {a b : Literal} (hs : S.survives .sparse o = true)
      (left : S.residue .sparse o = [a, b]) (garbage : c.flags.garbage = true) :
      Pared S o w c (w.addBinary a b (S.store.flagsAt o).redundant false)
  /-- It stays, with the literals that are left. -/
  | kept {c : Store.Record} (hs : S.survives .sparse o = true) (left : c.literals.toList = S.residue .sparse o)
      (three : 3 ≤ c.literals.size) (glue : c.glue = S.store.glueAt o)
      (flags : { c.flags.unpinned with shrunken := false } =
        { (S.store.flagsAt o).unpinned with shrunken := false }) :
      Pared S o w c w

section One

variable (hS : S.Collectable lags 0) (h0 : S.trail.level = 0)
include hS h0

/-- Where no reason is pinned, at the root just the reasons are, for there are none. -/
theorem Collectable.pinned_root
    (hu : ∀ o ∈ S.store.offsets, (S.store.flagsAt o).reason = false) :
    ∀ o ∈ S.store.offsets, (S.store.flagsAt o).reason = true ↔ S.IsReason o := by
  intro o ho
  refine iff_of_false ?_ (hS.not_isReason h0 o)
  rw [hu o ho]
  exact Bool.false_ne_true

/-- At the root a clause survives if it is not garbage and none of its literals is true. -/
theorem Collectable.survives_root (o : Nat) : S.survives .sparse o =
    (!(S.store.flagsAt o).garbage && !(S.store.lits o).any fun l => S.assignment.value l = .tt) := by
  have hfix := hS.frame.fixed_eq h0
  simp [survives, hS.not_isReason h0 o, hfix]

/-- A binary clause that is made of a clause stays. -/
theorem Collectable.keepsBinary_of_pair {c : BinaryClause} (hs : S.survives .sparse o = true)
    (hc : S.pairOf? .sparse o = some c) : S.keepsBinary .sparse c = true := by
  have hfree : ∀ l ∈ S.residue .sparse o, (S.assignment.fixed l).isAssigned = false := by
    intro l hl
    obtain ⟨hl, hff⟩ := List.mem_filter.1 hl
    rw [hS.survives_root h0, Bool.and_eq_true, Bool.not_eq_true', Bool.not_eq_true', List.any_eq_false] at hs
    have htt := hs.2 l hl
    rw [hS.frame.fixed_eq h0] at hff ⊢
    cases hv : S.assignment.value l <;> simp [hv, Value.isAssigned] at hff htt ⊢
  unfold pairOf? at hc
  split at hc
  · next a b hab =>
    have ha := hfree a (by rw [hab]; simp)
    have hb := hfree b (by rw [hab]; simp)
    obtain rfl := Option.some.inj hc
    unfold BinaryClause.ofPair
    split
    · simp [keepsBinary, ha, hb]
    · simp [keepsBinary, ha, hb]
  · cases hc

/-- One clause is simplified. -/
theorem Simplifying.ends_simplifyOne_pared (hu : ∀ o ∈ S.store.offsets, (S.store.flagsAt o).reason = false)
    {r : Reference} (h : Simplifying lags S t w) (hr : S.store.Current r)
    (hsame : t.recordAt r.offset = S.store.recordAt r.offset) :
    Ends (simplifyOne r) { S with store := t, watches := w }
      (fun _ s' => ∃ c, Store.Amended r.offset c t s'.store ∧ Pared S r.offset w c s'.watches) fun _ _ => False := by
  have ho := hr.2
  have hot : r.offset ∈ t.offsets := h.offsets.symm ▸ ho
  have hcur : t.Current r := ⟨hr.1.trans h.epoch.symm, hot⟩
  have hat := (h.chain.mem hot).2
  have hflags : (t.recordAt r.offset).flags = S.store.flagsAt r.offset := by rw [hsame]; rfl
  have hglue : (t.recordAt r.offset).glue = S.store.glueAt r.offset := by rw [hsame]; rfl
  have hlits : (t.recordAt r.offset).literals.toList = S.store.lits r.offset := by
    rw [hsame]
    exact Store.literalsAt_toList (hS.chain.mem ho).2.fits
  have hsize : (t.recordAt r.offset).literals.size = t.sizeAt r.offset := hat.size_recordAt
  have hsurvives := hS.survives_root h0 r.offset
  have hleft : S.assignment.leftOf (t.recordAt r.offset) = S.residue .sparse r.offset := by
    rw [Assignment.leftOf, hlits, ← funext (hS.frame.fixed_eq h0)]
    rfl
  have hle : (S.assignment.leftOf (t.recordAt r.offset)).length ≤ t.sizeAt r.offset := by
    rw [← hsize, ← Array.length_toList]
    exact List.length_filter_le _ _
  obtain ⟨hw, hcur₁⟩ := h.overwritten hcur
  unfold simplifyOne
  simp only [ends_bind, ends_get, ends_ofExcept, Store.record?_of_current h.chain hcur]
  refine ⟨fun c hc => ?_, fun e he => by simp at he⟩
  obtain rfl := Except.ok.inj hc
  have haction := S.assignment.simplifies (t.recordAt r.offset)
  generalize S.assignment.simplification (t.recordAt r.offset) = action at haction ⊢
  cases haction with
  | garbage hg =>
    rw [← hflags, hg] at hsurvives
    exact ⟨_, .refl h.chain, .dropped (by simpa using hsurvives) hg⟩
  | satisfied hg htrue =>
    rw [hlits] at htrue
    rw [htrue, Bool.not_true, Bool.and_false] at hsurvives
    simp only [ends_bind, ends_onStore, ends_pure]
    refine (Store.ends_markGarbage_amended h.chain hcur).imp (fun _ t' ht' => ?_) fun _ _ hf => hf
    exact ⟨_, ht'.2, .dropped hsurvives (Store.Record.garbage_trashed _)⟩
  | same hg hnot hall =>
    rw [hlits] at hnot
    rw [← hflags, hg, hnot] at hsurvives
    have htwo := (hS.fits_residue (hS.pinned_root h0 hu) ho hsurvives).2
    have hall := hall.resolve_right (by rw [hleft]; omega)
    have hkept : S.residue .sparse r.offset = S.store.lits r.offset :=
      List.filter_sublist.eq_of_length ((congrArg List.length hleft).symm.trans (hall.trans (by
        rw [← hlits, Array.length_toList])))
    refine ⟨_, .refl h.chain, .kept hsurvives (hlits.trans hkept.symm) ?_ hglue (by rw [hflags])⟩
    rw [hsize]
    exact hat.three
  | @binary x y hg hnot hxy =>
    rw [hlits] at hnot
    rw [← hflags, hg, hnot] at hsurvives
    rw [hxy] at hw hcur₁
    simp only [ends_bind, ends_modify, ends_onStore, ends_pure]
    refine (Store.ends_markGarbage_amended (hw.chain h.chain hot) hcur₁).imp (fun _ t' ht' => ?_) fun _ _ hf => hf
    rw [hflags]
    exact ⟨_, (hw.amended h.chain hot rfl).trans ht'.2,
      .paired hsurvives (hleft.symm.trans hxy) (Store.Record.garbage_trashed _)⟩
  | @shrunk ls hg hnot hls three fewer =>
    rw [hlits] at hnot
    rw [← hls] at hle hw hcur₁
    rw [← hflags, hg, hnot] at hsurvives
    have hwhole := hS.fits r.offset ho (.inl (by rw [← hflags, hg]))
    have hlen := hS.frame.length_lt_padding hwhole.nodup hwhole.usable
    have hsize₁ : (t.setLiteralsAt r.offset 0 ls.toList).sizeAt r.offset = t.sizeAt r.offset := hw.sizeAt_self
    rw [← hlits, Array.length_toList, hsize, ← hsize₁] at hlen
    simp only [ends_bind, ends_modify, ends_onStore]
    refine (Store.ends_shrink_amended (hw.chain h.chain hot) hcur₁ hlen).imp (fun _ t' ht' => ?_) fun _ _ hf => ?_
    · obtain ⟨hthree, ht'⟩ := ht'
      rw [if_pos (by omega)] at ht'
      obtain ⟨hl, hgl, hfl⟩ := Store.shortened_setLiteralsAt h.chain hot hle
      rw [Array.length_toList] at hl hgl hfl
      have hflags' : t.flagsAt r.offset = S.store.flagsAt r.offset := hflags
      refine ⟨_, (hw.amended h.chain hot rfl).trans ht', .kept hsurvives (hl.trans (hls.trans hleft)) ?_
        (hgl.trans hglue) ?_⟩
      · rwa [← Array.length_toList, hl]
      · rw [hfl, hflags']
        simp [Flags.unpinned]
    · have hfew := hf.1
      omega

end One

/-! ## All clauses -/

/-- What has become of clauses when some of them were simplified. -/
structure Pruned (S : Solver ε) (done : List Nat) (t : Store) (w : Watches) : Prop where
  /-- The others are as they were. -/
  ahead : ∀ o ∈ S.store.offsets, o ∉ done → t.recordAt o = S.store.recordAt o
  /-- Where three literals or more are left, the clause stays with these. -/
  kept : ∀ o ∈ done, S.survives .sparse o = true → 3 ≤ (S.residue .sparse o).length →
    (t.recordAt o).literals.toList = S.residue .sparse o ∧ (t.recordAt o).glue = S.store.glueAt o ∧
      { (t.recordAt o).flags.unpinned with shrunken := false } =
        { (S.store.flagsAt o).unpinned with shrunken := false }
  /-- All others of them are garbage. -/
  gone : ∀ o ∈ done, (S.survives .sparse o = true → (S.residue .sparse o).length < 3) →
    (t.recordAt o).flags.garbage = true
  /-- There is a new binary clause for each clause of which two literals are left. -/
  binary : w.binaries.Perm (S.watches.binaries ++ (S.survivors .sparse 0 done).filterMap (S.pairOf? .sparse))

/-- Before the first clause. -/
theorem pruned_nil (S : Solver ε) : Pruned S [] S.store S.watches where
  ahead _ _ _ := rfl
  kept _ ho := by simp at ho
  gone _ ho := by simp at ho
  binary := by simp [survivors]

section All

variable (hS : S.Collectable lags 0) (h0 : S.trail.level = 0)
  (hu : ∀ o ∈ S.store.offsets, (S.store.flagsAt o).reason = false)
include hS h0 hu

/-- One more clause becomes a binary clause, or does not. -/
theorem Pared.binaries {c : Store.Record} (hp : Pared S o w c w') (ht : Simplifying lags S t w)
    (ho : o ∈ S.store.offsets)
    (h : w.binaries.Perm (S.watches.binaries ++ (S.survivors .sparse 0 done).filterMap (S.pairOf? .sparse))) :
    w'.binaries.Perm (S.watches.binaries ++ (S.survivors .sparse 0 (done ++ [o])).filterMap (S.pairOf? .sparse)) := by
  cases hp with
  | dropped hs =>
    rw [survivors_append_dropped hs]
    exact h
  | @paired a b hs left =>
    obtain ⟨ha, hb, hne⟩ := hS.fits_pair (hS.pinned_root h0 hu) ho hs left ht.gathers.lists
    exact binaries_pair h (Nat.zero_le o) hs left ha hb hne
  | kept hs left three =>
    have hnone : S.pairOf? .sparse o = none := pairOf?_of_long (by rwa [← left, Array.length_toList])
    rw [survivors_append_kept (Nat.zero_le o) hs, List.filterMap_append]
    simpa [hnone] using h

/-- One more clause was simplified. -/
theorem Pruned.snoc (h : Pruned S done t w) (ht : Simplifying lags S t w) (hsub : done ⊆ S.store.offsets)
    (ho : o ∈ S.store.offsets) (hnot : o ∉ done) {c : Store.Record} (ha : Store.Amended o c t t')
    (hp : Pared S o w c w') : Pruned S (done ++ [o]) t' w' := by
  -- what was done before stays
  have hold : ∀ o' ∈ S.store.offsets, o' ≠ o → t'.recordAt o' = t.recordAt o' := by
    intro o' ho' hne
    exact ha.other o' (ht.offsets.symm ▸ ho') hne
  have hself := ha.self
  refine ⟨?_, ?_, ?_, ?_⟩
  · intro o' ho' hn
    rw [List.mem_append, List.mem_singleton, not_or] at hn
    exact (hold o' ho' hn.2).trans (h.ahead o' ho' hn.1)
  · intro o' ho' hs h3
    rcases List.mem_append.1 ho' with ho' | ho'
    · rw [hold o' (hsub ho') fun he => hnot (he ▸ ho')]
      exact h.kept o' ho' hs h3
    · obtain rfl := List.mem_singleton.1 ho'
      rw [hself]
      cases hp with
      | dropped hs' => simp [hs] at hs'
      | paired hs' left =>
        rw [left] at h3
        simp at h3
      | kept hs' left three glue flags => exact ⟨left, glue, flags⟩
  · intro o' ho' hs
    rcases List.mem_append.1 ho' with ho' | ho'
    · rw [hold o' (hsub ho') fun he => hnot (he ▸ ho')]
      exact h.gone o' ho' hs
    · obtain rfl := List.mem_singleton.1 ho'
      rw [hself]
      cases hp with
      | dropped hs' garbage => exact garbage
      | paired hs' left garbage => exact garbage
      | kept hs' left three =>
        have hlt := hs hs'
        rw [← left, Array.length_toList] at hlt
        omega
  · exact hp.binaries hS h0 hu ht ho h.binary

/-- Clauses are simplified one after another. -/
theorem Pruned.ends_simplifyAll {os : List Nat} (h : Pruned S done t w) (ht : Simplifying lags S t w)
    (hall : S.store.offsets = done ++ os) :
    Ends (simplifyAll (os.map fun o => ⟨o, S.store.epoch⟩)) { S with store := t, watches := w }
      (fun _ s' => ∃ t' w', s' = { S with store := t', watches := w' } ∧ Simplifying lags S t' w' ∧
        Pruned S S.store.offsets t' w') fun _ _ => False := by
  induction os generalizing done t w with
  | nil =>
    rw [List.append_nil] at hall
    exact ⟨t, w, rfl, ht, hall ▸ h⟩
  | cons o os ih =>
    have hnodup : S.store.offsets.Nodup := hS.chain.nodup
    have ho : o ∈ S.store.offsets := by simp [hall]
    have hsub : done ⊆ S.store.offsets := by simp [hall]
    have hnot : o ∉ done := by
      rw [hall] at hnodup
      intro hm
      exact (List.nodup_append.1 hnodup).2.2 o hm o (List.mem_cons_self ..) rfl
    have hcur : S.store.Current ⟨o, S.store.epoch⟩ := ⟨rfl, ho⟩
    rw [List.map_cons, simplifyAll, ends_bind]
    refine ((ht.ends_simplifyOne hS h0 hcur).and (ht.ends_simplifyOne_pared hS h0 hu hcur (h.ahead o ho hnot))).imp ?_
      fun _ _ hf => hf.1
    rintro - s₁ ⟨⟨t', w', rfl, ht'⟩, c, ha, hp⟩
    exact ih (h.snoc hS h0 hu ht hsub ho hnot ha hp) ht' (by rw [hall, List.append_assoc]; rfl)

omit hu in
/-- The clauses which survive after that are those of which three literals or more are left, and there is no more to be
done about them. -/
theorem Pruned.survives_iff (h : Pruned S S.store.offsets t w) (ht : Simplifying lags S t w)
    (ho : o ∈ S.store.offsets) :
    (survives .sparse { S with store := t, watches := w } o = true ↔
        S.survives .sparse o = true ∧ 3 ≤ (S.residue .sparse o).length) ∧
      (survives .sparse { S with store := t, watches := w } o = true →
        residue .sparse { S with store := t, watches := w } o = S.residue .sparse o) := by
  have hT := ht.collectable hS h0
  have hat := (hT.chain.mem (ht.offsets.symm ▸ ho : o ∈ t.offsets)).2
  have hlits : (t.recordAt o).literals.toList = t.lits o := Store.literalsAt_toList hat.fits
  have hsurvives : survives .sparse { S with store := t, watches := w } o =
      (!(t.flagsAt o).garbage && !(t.lits o).any fun l => S.assignment.value l = .tt) := hT.survives_root h0 o
  by_cases hkept : S.survives .sparse o = true ∧ 3 ≤ (S.residue .sparse o).length
  · obtain ⟨hl, -, hf⟩ := h.kept o ho hkept.1 hkept.2
    rw [hlits] at hl
    have hs := hkept.1
    rw [hS.survives_root h0, Bool.and_eq_true, Bool.not_eq_true', Bool.not_eq_true'] at hs
    have hg : (t.flagsAt o).garbage = false := (congrArg Flags.garbage hf).trans hs.1
    have htrue : (t.lits o).any (fun l => S.assignment.value l = .tt) = false := by
      rw [List.any_eq_false] at hs ⊢
      intro l hm
      rw [hl] at hm
      exact hs.2 l (List.mem_of_mem_filter hm)
    refine ⟨iff_of_true ?_ hkept, ?_⟩
    · rw [hsurvives, hg, htrue]
      rfl
    · intro _
      show (t.lits o).filter _ = _
      rw [hl, residue, List.filter_filter]
      simp
  · have hg : (t.flagsAt o).garbage = true := by
      refine h.gone o ho ?_
      intro hs
      by_contra hlt
      exact hkept ⟨hs, Nat.not_lt.1 hlt⟩
    have hnot : ¬ survives .sparse { S with store := t, watches := w } o = true := by
      rw [hsurvives, hg]
      simp
    exact ⟨iff_of_false hnot hkept, fun hs => absurd hs hnot⟩

omit hu in
/-- So the survivors after that are those of before of which three literals or more are left. -/
theorem Pruned.survivors_eq (h : Pruned S S.store.offsets t w) (ht : Simplifying lags S t w) :
    survivors .sparse 0 { S with store := t, watches := w } t.offsets =
      (S.survivors .sparse 0 S.store.offsets).filter fun o => 3 ≤ (S.residue .sparse o).length := by
  unfold survivors
  rw [List.filter_filter, show t.offsets = S.store.offsets from ht.offsets]
  refine List.filter_congr ?_
  intro o ho
  have hiff := (h.survives_iff hS h0 ht ho).1
  rw [Bool.eq_iff_iff]
  simp only [Nat.zero_le, decide_true, Bool.true_and, Bool.and_eq_true, decide_eq_true_eq, hiff]
  exact and_comm

omit hu in
/-- Of these three literals or more are left then, too. -/
theorem Pruned.long_survivors (h : Pruned S S.store.offsets t w) (ht : Simplifying lags S t w)
    (ho : o ∈ survivors .sparse 0 { S with store := t, watches := w } t.offsets) :
    3 ≤ (residue .sparse { S with store := t, watches := w } o).length := by
  obtain ⟨ho, hs⟩ := List.mem_filter.1 ho
  have hs : survives .sparse { S with store := t, watches := w } o = true := by simpa using hs
  obtain ⟨hiff, hsame⟩ := h.survives_iff hS h0 ht (ht.offsets ▸ ho)
  rw [hsame hs]
  exact (hiff.1 hs).2

omit hu in
/-- No clause is made binary by the collection. -/
theorem Pruned.pairs_nil (h : Pruned S S.store.offsets t w) (ht : Simplifying lags S t w) :
    (survivors .sparse 0 { S with store := t, watches := w } t.offsets).filterMap
      (pairOf? .sparse { S with store := t, watches := w }) = [] := by
  rw [List.filterMap_eq_nil_iff]
  intro o ho
  exact pairOf?_of_long (h.long_survivors hS h0 ht ho)

omit hu in
/-- The binary clauses that are made of clauses stay. -/
theorem Collectable.filter_pairs (os : List Nat) :
    ((S.survivors .sparse 0 os).filterMap (S.pairOf? .sparse)).filter (S.keepsBinary .sparse) =
      (S.survivors .sparse 0 os).filterMap (S.pairOf? .sparse) := by
  rw [List.filter_eq_self]
  intro c hc
  obtain ⟨o, ho, hpair⟩ := List.mem_filterMap.1 hc
  exact hS.keepsBinary_of_pair h0 (by simpa using (List.mem_filter.1 ho).2) hpair

omit hu in
/-- What a collection makes of a survivor is what it would have made of the clause before. -/
theorem Pruned.leaves (h : Pruned S S.store.offsets t w) (ht : Simplifying lags S t w) {o' : Nat}
    (ho : o ∈ S.survivors .sparse 0 S.store.offsets) (h3 : 3 ≤ (S.residue .sparse o).length)
    (hl : Leaves .sparse { S with store := t, watches := w } t' o o') : Leaves .sparse S t' o o' := by
  obtain ⟨ho, hs⟩ := List.mem_filter.1 ho
  have hs : S.survives .sparse o = true := by simpa using hs
  obtain ⟨hiff, hsame⟩ := h.survives_iff hS h0 ht ho
  obtain ⟨-, hglue, hflags⟩ := h.kept o ho hs h3
  refine ⟨ho, hl.mem, hl.glue.trans hglue, hl.flags.trans hflags, ?_⟩
  rw [← hsame (hiff.2 ⟨hs, h3⟩)]
  exact hl.lits

/-- Every clause is accounted for after a collection, if it is after the clauses were simplified. -/
theorem Pruned.accounted (h : Pruned S S.store.offsets t w) (ht : Simplifying lags S t w)
    (ha : Accounted .sparse 0 { S with store := t, watches := w } s') : Accounted .sparse 0 S s' where
  nodup := ha.nodup
  early o _ hlt := absurd hlt (Nat.not_lt_zero o)
  untouched _ o _ hlt := absurd hlt (Nat.not_lt_zero o)
  enough o ho hs := (hS.fits_residue (hS.pinned_root h0 hu) ho hs).2
  large := by
    -- all that survive are long, so the filter of the collection leaves them as they are
    obtain ⟨moved, hmoved, hleaves⟩ := ha.large
    rw [List.filter_eq_self.2 fun o ho => decide_eq_true (h.long_survivors hS h0 ht ho),
      h.survivors_eq hS h0 ht] at hleaves
    refine ⟨moved, ?_, ?_⟩
    · rw [hmoved]
      show t.offsets.filter _ ++ moved = _
      rw [show t.offsets = S.store.offsets from ht.offsets]
    · refine ((List.forall₂_and_left _ _).2 ⟨fun o ho => List.mem_filter.1 ho, hleaves⟩).imp ?_
      rintro o o' ⟨⟨ho, h3⟩, hl⟩
      exact h.leaves hS h0 ht ho (of_decide_eq_true h3) hl
  binary := by
    have hbinary := ha.binary
    rw [h.pairs_nil hS h0 ht, List.append_nil] at hbinary
    refine hbinary.trans ((h.binary.filter (S.keepsBinary .sparse)).trans ?_)
    rw [List.filter_append, hS.filter_pairs h0]

end All

/-- Every clause is simplified, and garbage is collected. -/
theorem Quiet.ends_simplifyAll (h : S.Quiet lags) (h0 : S.trail.level = 0) :
    Ends (do
        simplifyAll (← get).store.references
        collect 0 .sparse) S
      (fun _ s' => Accounted .sparse 0 S s' ∧ Collected lags S s' ∧ s'.store.garbage = 0 ∧
        s'.store.garbageFrom 0 = 0) fun _ _ => False := by
  have hS := h.inv.collectable h.full (.inl rfl)
  have hu := h.inv.unpinned
  have hrun : Ends (do
        simplifyAll (← get).store.references
        collect 0 .sparse) S
      (fun _ s' => Accounted .sparse 0 S s' ∧ s'.store.garbage = 0 ∧
        (s'.store.Chain 0 → s'.store.garbageFrom 0 = 0)) fun _ _ => False := by
    simp only [ends_bind, ends_get]
    refine ((pruned_nil S).ends_simplifyAll hS h0 hu hS.simplifying rfl).imp ?_ fun _ _ hf => hf
    rintro _ _ ⟨t, w, rfl, ht, hp⟩
    have hT := ht.collectable hS h0
    have hclean : Clean { S with store := t, watches := w } :=
      ⟨h.inv.marks, h.inv.records, fun o ho => by
        have ho' : o ∈ S.store.offsets := ht.offsets ▸ ho
        rw [ht.reason o ho']
        exact hu o ho'⟩
    refine ((hT.ends_accounted (fun hn => absurd rfl hn) hclean .sparse).and
      (hT.ends_tidied hclean (hT.not_isReason h0) .sparse)).imp ?_ fun _ _ hf => hf.1
    rintro _ s' ⟨ha, htidy⟩
    exact ⟨hp.accounted hS h0 hu ht ha, htidy⟩
  refine ((hS.ends_simplifyAll h0 h.inv.toClean h.inv.stored).and hrun).imp ?_ fun _ _ hf => hf.1
  rintro _ s' ⟨hc, ha, hg, hwords⟩
  exact ⟨ha, hc, hg, hwords hc.inv.store.chain⟩

end Solver

end ClauseLearning

import ClauseLearning.Proofs.Paring
import ClauseLearning.Proofs.Relocation
import ClauseLearning.Proofs.Reconstruction

/-!
# Simplification at the root

A simplification first propagates what is left to be propagated.  If there is no conflict, every clause is one that was
there before, without its false literals, or with two literals left a binary clause; satisfied clauses, garbage, and
clauses that were derived during propagation are gone.  Nothing is stored twice, no literal of a clause is assigned, and
no word of the store is garbage.

Propagation goes through all clauses, those from outside as well.  So the literals that it assigns follow from the
clauses which are stored, but not always from those which are never dropped.

* `Solver.Simplified` — what a simplification makes of what is stored.
* `Solver.Quiet.complete_root` — after propagation at the root no clause is unit.
* `Solver.Rearranged.residue_root`, `Solver.Accounted.clipped`, `Solver.Accounted.binary_root` — what is left of each
  clause, said of the clauses as they were before propagation went through them.
* `Solver.Accounted.simplified`, `Solver.Simplified.base` — the clauses, and the models of those which are never
  dropped.
* `Solver.simplify_exact` — a simplification, wherever one may be made.
* `Solver.simplify_loses_model` — a clause from outside that does not follow from the others.
-/

namespace ClauseLearning

/-- The binary clause of a list of two literals. -/
def BinaryClause.ofLiterals? (redundant : Bool) : List Literal → Option BinaryClause
  | [a, b] => some (.ofPair a b redundant false)
  | _ => none

/-- A binary clause is the same whichever of its literals comes first. -/
theorem BinaryClause.ofPair_comm {a b : Literal} (h : a ≠ b) (r y : Bool) : ofPair a b r y = ofPair b a r y := by
  unfold ofPair
  rcases Literal.before_of_ne h with hlt | hlt
  · simp [hlt, Literal.before_asymm hlt]
  · simp [hlt, Literal.before_asymm hlt]

theorem BinaryClause.ofLiterals?_of_length {r : Bool} {c : List Literal} (h : c.length ≠ 2) :
    ofLiterals? r c = none := by
  unfold ofLiterals?
  split
  · simp at h
  · rfl

theorem BinaryClause.of_ofLiterals? {r : Bool} {c : List Literal} {d : BinaryClause} (h : ofLiterals? r c = some d) :
    c.Perm [d.a, d.b] ∧ d.redundant = r := by
  unfold ofLiterals? at h
  split at h
  · obtain rfl := Option.some.inj h
    unfold ofPair
    split
    · exact ⟨.refl _, rfl⟩
    · exact ⟨.swap .., rfl⟩
  · cases h

theorem BinaryClause.ofLiterals?_perm {r : Bool} {c c' : List Literal} (h : c.Perm c') (hn : c.Nodup) :
    ofLiterals? r c = ofLiterals? r c' := by
  by_cases h2 : c.length = 2
  · obtain ⟨a, b, rfl⟩ := List.length_eq_two.1 h2
    obtain ⟨x, y, rfl⟩ := List.length_eq_two.1 (h.length_eq.symm.trans h2)
    have hne : a ≠ b := by
      rintro rfl
      simp at hn
    have ha : a ∈ [x, y] := h.mem_iff.1 (by simp)
    have hb : b ∈ [x, y] := h.mem_iff.1 (by simp)
    simp only [List.mem_cons, List.not_mem_nil, or_false] at ha hb
    rcases ha with rfl | rfl
    · rcases hb with rfl | rfl
      · exact absurd rfl hne
      · rfl
    · rcases hb with rfl | rfl
      · exact congrArg some (ofPair_comm hne r false)
      · exact absurd rfl hne
  · rw [ofLiterals?_of_length h2, ofLiterals?_of_length (h.length_eq ▸ h2)]

namespace Solver

variable {ε : Type} {lags : Prop} {s s' S : Solver ε} {o : Nat}

/-- The literals of a clause that are not false. -/
def remainder (s : Solver ε) (c : List Literal) : List Literal := c.filter fun l => s.val l ≠ .ff

/-- Whether a clause is not garbage, and not satisfied later on. -/
def outlasts (s s' : Solver ε) (o : Nat) : Bool :=
  !(s.store.flagsAt o).garbage && !(s.store.lits o).any fun l => s'.val l = .tt

/-- Of a clause of one store the literals that are not false are stored in another one, with the same notes. -/
structure Clipped (s s' : Solver ε) (o o' : Nat) : Prop where
  /-- The glue is the same. -/
  glue : s'.store.glueAt o' = s.store.glueAt o
  /-- The flags are the same, except that the clause is not noted to have been shortened. -/
  flags : (s'.store.flagsAt o').unpinned = { (s.store.flagsAt o).unpinned with shrunken := false }
  /-- The literals are those which are not false. -/
  lits : (s'.store.lits o').Perm (s'.remainder (s.store.lits o))

/-- What a simplification at the root makes of what is stored. -/
structure Simplified (s s' : Solver ε) : Prop where
  /-- Nothing is decided. -/
  level : s'.trail.level = 0
  /-- Everything is propagated. -/
  full : s'.trail.propagated = s'.trail.size
  /-- Root literals stay. -/
  grown : ∃ ls, s'.trail.literals.toList = s.trail.literals.toList ++ ls
  /-- No literal of a clause is assigned. -/
  unassigned : ∀ c r, s'.Stored c r → ∀ l ∈ c, s'.val l = .unassigned
  /-- No clause is garbage. -/
  garbage : ∀ o ∈ s'.store.offsets, (s'.store.flagsAt o).garbage = false
  /-- No word is garbage or padding. -/
  packed : s'.store.garbageFrom 0 = 0
  /-- Nor is any counted as such. -/
  counted : s'.store.garbage = 0
  /-- No clause is stored twice. -/
  nodup : s'.store.offsets.Nodup
  /-- Of each clause that is not garbage and not satisfied, two literals or more are left. -/
  enough : ∀ o ∈ s.store.offsets, s.outlasts s' o = true → 2 ≤ (s'.remainder (s.store.lits o)).length
  /-- The clauses of the store are those of which three or more are left, in order. -/
  large : List.Forall₂ (Clipped s s')
    (s.store.offsets.filter fun o => s.outlasts s' o && 3 ≤ (s'.remainder (s.store.lits o)).length) s'.store.offsets
  /-- The binary clauses are those which were there, were not derived during propagation and are not satisfied, and one
  for each clause of which two literals are left. -/
  binary : s'.watches.binaries.Perm
    ((s.watches.binaries.filter fun c => !c.hyper && s'.val c.a ≠ .tt && s'.val c.b ≠ .tt) ++
      (s.store.offsets.filter (s.outlasts s')).filterMap fun o =>
        BinaryClause.ofLiterals? (s.store.flagsAt o).redundant (s'.remainder (s.store.lits o)))

theorem outlasts_iff : s.outlasts s' o = true ↔
    (s.store.flagsAt o).garbage = false ∧ ∀ l ∈ s.store.lits o, s'.val l ≠ .tt := by
  simp [outlasts]

/-- What is left of a clause that is not satisfied is unassigned. -/
theorem unassigned_remainder (hout : s.outlasts s' o = true) {l : Literal} (hl : l ∈ s'.remainder (s.store.lits o)) :
    s'.val l = .unassigned := by
  obtain ⟨hl, hff⟩ := List.mem_filter.1 hl
  have htt := (outlasts_iff.1 hout).2 l hl
  cases hv : s'.val l <;> simp [hv] at hff htt ⊢

/-- Which clauses are stored does not depend on anything but the store and the watches. -/
theorem Stored.of_eq {c : List Literal} {r : Bool} (h : s.Stored c r) (hs : s'.store = s.store)
    (hw : s'.watches = s.watches) : s'.Stored c r := by
  cases h with
  | large hr =>
    rw [← hs] at hr ⊢
    exact .large hr
  | binary hm => exact .binary (hw ▸ hm)

/-! ## At the root -/

/-- No clause is late at the root. -/
theorem WatchedBy.root {c : List Literal} {r : Bool} {x y : Literal} (h : WatchedBy lags s c r x y) (hf : s.Frame)
    (h0 : s.trail.level = 0) : WatchedBy False s c r x y := by
  have hback : ∀ {x b y}, Backed s.trail s.assignment s.trail.size (lags ∧ r = true) x b y c →
      Backed s.trail s.assignment s.trail.size (False ∧ r = true) x b y c := by
    intro x b y hb hx
    refine (hb hx).imp_right ?_
    rintro ⟨-, hlevel, -⟩
    have hff := (fallen_size hf.trail hf.sized).1 hx
    have hle := hf.trail.level_le_of_mem (hf.val_ff.1 hff)
    rw [Assignment.level_negate] at hle
    omega
  obtain ⟨b, d, hb, hd, hg⟩ := h.guard
  exact ⟨h.mem, h.ne, b, d, hb, hd, hg.crossed, hback hg.left, hback hg.right⟩

/-- At the root a clause that is not satisfied has two unassigned literals, once everything is propagated. -/
theorem Quiet.complete_root {c : List Literal} {r : Bool} (h : s.Quiet lags) (h0 : s.trail.level = 0)
    (hc : s.Stored c r) : s.Complete c := by
  obtain ⟨x, y, hw⟩ := h.inv.watchedBy hc
  exact (hw.root h.inv.toFrame h0).complete h.inv.toFrame (by simp)

/-- At the root both literals of a binary clause are unassigned, or one is true. -/
theorem Quiet.binary_root {l o : Literal} {r y : Bool} (h : s.Quiet lags) (h0 : s.trail.level = 0)
    (hm : .binary o r y ∈ s.watches.view l) (hl : s.val l ≠ .tt) (ho : s.val o ≠ .tt) :
    s.val l = .unassigned ∧ s.val o = .unassigned := by
  have hw := ((h.inv.watchedBy_binary rfl hm).root h.inv.toFrame h0)
  refine hw.unassigned h.inv.toFrame ?_ (by simp)
  simp [hl, ho]

section Root

variable (hS : S.Quiet lags) (h0 : S.trail.level = 0)
include hS h0

/-- The binary clauses which a collection at the root keeps. -/
theorem Quiet.keepsBinary_root {c : BinaryClause} (hc : c ∈ S.watches.binaries) : S.keepsBinary .sparse c =
    (!c.hyper && S.val c.a ≠ .tt && S.val c.b ≠ .tt) := by
  have hm := (Watches.mem_binaries.1 hc).2
  have hfix : ∀ l, S.assignment.fixed l = S.val l := hS.inv.fixed_eq h0
  by_cases hsat : S.val c.a = .tt ∨ S.val c.b = .tt
  · have hassigned : ∀ {l}, S.val l = .tt → (S.assignment.fixed l).isAssigned = true := by
      intro l hl
      rw [hfix, hl]
      rfl
    rcases hsat with ha | hb
    · simp [keepsBinary, hassigned ha, ha]
    · simp [keepsBinary, hassigned hb, hb]
  · rw [not_or] at hsat
    obtain ⟨ha, hb⟩ := hS.binary_root h0 hm hsat.1 hsat.2
    have hreason : S.assignment.isBinaryReason c.a c.b = false := by
      have ha' : S.assignment.value c.a = .unassigned := ha
      have hb' : S.assignment.value c.b = .unassigned := hb
      simp [Assignment.isBinaryReason, ha', hb']
    simp [keepsBinary, hfix, ha, hb, hreason, Value.isAssigned]

section Rearranged

variable (hr : Rearranged s S) (hval : ∀ l, s'.val l = S.val l)
include hr hval

/-- What is left of a clause, said of the clause as it was in another order of its literals. -/
theorem Rearranged.residue_root (ho : o ∈ s.store.offsets) :
    (S.residue .sparse o).Perm (s'.remainder (s.store.lits o)) := by
  have hfix : ∀ l, S.assignment.fixed l = s'.val l := fun l => (hS.inv.fixed_eq h0 l).trans (hval l).symm
  have hperm := (hr.store.perm o ho).filter fun l => s'.val l ≠ .ff
  simpa only [residue, remainder, hfix] using hperm

/-- And whether it survives. -/
theorem Rearranged.survives_root (ho : o ∈ s.store.offsets) : S.survives .sparse o = s.outlasts s' o := by
  rw [(hS.inv.collectable hS.full (.inl rfl)).survives_root h0, outlasts, hr.store.flags o ho,
    (hr.store.perm o ho).any_eq]
  simp only [hval]
  rfl

theorem Rearranged.survivors_root :
    S.survivors .sparse 0 S.store.offsets = s.store.offsets.filter (s.outlasts s') := by
  rw [survivors, hr.store.offsets]
  refine List.filter_congr ?_
  intro o ho
  simp [hr.survives_root hS h0 hval ho]

/-- The clauses of which three literals or more are left. -/
theorem Accounted.clipped (ha : Accounted .sparse 0 S s') : List.Forall₂ (Clipped s s')
    (s.store.offsets.filter fun o => s.outlasts s' o && 3 ≤ (s'.remainder (s.store.lits o)).length)
    s'.store.offsets := by
  have hoff : S.store.offsets = s.store.offsets := hr.store.offsets
  obtain ⟨moved, hmoved, hleaves⟩ := ha.large
  have hnone : S.store.offsets.filter (· < 0) = [] := List.filter_eq_nil_iff.2 (by simp)
  rw [hnone, List.nil_append] at hmoved
  rw [hr.survivors_root hS h0 hval, List.filter_filter, ← hmoved] at hleaves
  have hsame :
      (s.store.offsets.filter fun o => Decidable.decide (3 ≤ (S.residue .sparse o).length) && s.outlasts s' o) =
      s.store.offsets.filter fun o => s.outlasts s' o && 3 ≤ (s'.remainder (s.store.lits o)).length := by
    refine List.filter_congr ?_
    intro o ho
    rw [(hr.residue_root hS h0 hval ho).length_eq, Bool.and_comm]
  rw [hsame] at hleaves
  refine hleaves.imp ?_
  intro o o' hl
  have ho : o ∈ s.store.offsets := hoff ▸ hl.source
  refine ⟨hl.glue.trans (hr.store.glue o ho), ?_, hl.lits.trans (hr.residue_root hS h0 hval ho)⟩
  rw [hl.flags, hr.store.flags o ho]

/-- The binary clauses that stay. -/
theorem Rearranged.kept_root : S.watches.binaries.filter (S.keepsBinary .sparse) =
    s.watches.binaries.filter fun c => !c.hyper && s'.val c.a ≠ .tt && s'.val c.b ≠ .tt := by
  rw [hr.binaries]
  refine List.filter_congr ?_
  intro c hm
  rw [hS.keepsBinary_root h0 (hr.binaries ▸ hm)]
  simp only [hval]

/-- The binary clauses that are made of clauses of which two literals are left. -/
theorem Rearranged.pairs_root : (S.survivors .sparse 0 S.store.offsets).filterMap (S.pairOf? .sparse) =
    (s.store.offsets.filter (s.outlasts s')).filterMap fun o =>
      BinaryClause.ofLiterals? (s.store.flagsAt o).redundant (s'.remainder (s.store.lits o)) := by
  rw [hr.survivors_root hS h0 hval]
  refine List.filterMap_congr ?_
  intro o ho
  have ho := List.mem_of_mem_filter ho
  have hmem : o ∈ S.store.offsets := hr.store.offsets ▸ ho
  have hnodup : (S.residue .sparse o).Nodup :=
    (List.Nodup.of_map _ (hS.inv.store.nodup o hmem)).sublist List.filter_sublist
  rw [← BinaryClause.ofLiterals?_perm (hr.residue_root hS h0 hval ho) hnodup, ← hr.store.flags o ho]
  rfl

theorem Accounted.binary_root (ha : Accounted .sparse 0 S s') : s'.watches.binaries.Perm
    ((s.watches.binaries.filter fun c => !c.hyper && s'.val c.a ≠ .tt && s'.val c.b ≠ .tt) ++
      (s.store.offsets.filter (s.outlasts s')).filterMap fun o =>
        BinaryClause.ofLiterals? (s.store.flagsAt o).redundant (s'.remainder (s.store.lits o))) := by
  have hbinary := ha.binary
  rwa [hr.kept_root hS h0 hval, hr.pairs_root hS h0 hval] at hbinary

/-- The literals of the binary clauses are unassigned: those that stay are not satisfied, and of the others it is what is
left of a clause. -/
theorem Accounted.unassigned_binary (ha : Accounted .sparse 0 S s') {c : BinaryClause}
    (hm : c ∈ s'.watches.binaries) : s'.val c.a = .unassigned ∧ s'.val c.b = .unassigned := by
  rcases List.mem_append.1 ((ha.binary_root hS h0 hr hval).mem_iff.1 hm) with hm | hm
  · obtain ⟨hm, hkeep⟩ := List.mem_filter.1 hm
    simp only [hval, Bool.and_eq_true, ne_eq, decide_not, Bool.not_eq_true',
      decide_eq_false_iff_not] at hkeep ⊢
    exact hS.binary_root h0 (Watches.mem_binaries.1 (hr.binaries ▸ hm)).2 hkeep.1.2 hkeep.2
  · obtain ⟨o, ho, hc⟩ := List.mem_filterMap.1 hm
    obtain ⟨hperm, -⟩ := BinaryClause.of_ofLiterals? hc
    have hout := (List.mem_filter.1 ho).2
    exact ⟨unassigned_remainder hout (hperm.mem_iff.2 (by simp)),
      unassigned_remainder hout (hperm.mem_iff.2 (by simp))⟩

/-- The literals of all clauses are. -/
theorem Accounted.unassigned_root (ha : Accounted .sparse 0 S s') {usable : Nat → Prop}
    (hpaired : Watches.Paired usable s'.watches.view) {c : List Literal} {r : Bool} (hstored : s'.Stored c r)
    {l : Literal} (hl : l ∈ c) : s'.val l = .unassigned := by
  cases hstored with
  | @large r hmem =>
    obtain ⟨o, ho, hclip⟩ := forall₂_exists_left (ha.clipped hS h0 hr hval) r.offset (Store.mem_references.1 hmem).2
    have hout := (List.mem_filter.1 ho).2
    rw [Bool.and_eq_true] at hout
    exact unassigned_remainder hout.1 (hclip.lits.mem_iff.1 hl)
  | @binary a b r y hm =>
    simp only [List.mem_cons, List.not_mem_nil, or_false] at hl
    rcases hpaired.mem_iff.1 hm with hm | hm
    · have hfree := ha.unassigned_binary hS h0 hr hval hm
      rcases hl with rfl | rfl
      · exact hfree.1
      · exact hfree.2
    · have hfree := ha.unassigned_binary hS h0 hr hval hm
      rcases hl with rfl | rfl
      · exact hfree.2
      · exact hfree.1

end Rearranged

/-- What a collection at the root leaves, said of the clauses as they were in another order of their literals. -/
theorem Accounted.simplified (ha : Accounted .sparse 0 S s') (hr : Rearranged s S) (hc : Collected lags S s')
    (hgrown : ∃ ls, S.trail.literals.toList = s.trail.literals.toList ++ ls)
    (hpacked : s'.store.garbageFrom 0 = 0) (hcounted : s'.store.garbage = 0) : Simplified s s' := by
  have htrail := hc.trimmed.trail
  have hval : ∀ l, s'.val l = S.val l := congrFun (hc.relocated hS.inv.toFrame).val
  have hclipped := ha.clipped hS h0 hr hval
  exact {
    level := htrail ▸ h0
    full := by
      rw [htrail]
      exact hS.full
    grown := htrail ▸ hgrown
    unassigned := fun c r hstored l hl => ha.unassigned_root hS h0 hr hval hc.inv.paired hstored hl
    garbage := by
      intro o' ho'
      obtain ⟨o, ho, hl⟩ := forall₂_exists_left hclipped o' ho'
      have hout := (List.mem_filter.1 ho).2
      rw [Bool.and_eq_true, outlasts_iff] at hout
      exact (congrArg Flags.garbage hl.flags).trans hout.1.1
    packed := hpacked
    counted := hcounted
    nodup := ha.nodup
    enough := by
      intro o ho hout
      have hmem : o ∈ S.store.offsets := hr.store.offsets ▸ ho
      rw [← (hr.residue_root hS h0 hval ho).length_eq]
      exact ha.enough o hmem ((hr.survives_root hS h0 hval ho).trans hout)
    large := hclipped
    binary := ha.binary_root hS h0 hr hval }

end Root

/-- A clause of which something is left means what is left of it, where what is assigned at the root is true. -/
theorem Frame.satisfies_remainder {c : List Literal} {v : Valuation} (hf : s'.Frame)
    (hroot : ∀ l ∈ s'.trail.literals, v.makesTrue l = true) (hc : v.Satisfies c) : v.Satisfies (s'.remainder c) := by
  obtain ⟨l, hl, ht⟩ := hc
  refine ⟨l, List.mem_filter.2 ⟨hl, ?_⟩, ht⟩
  rw [decide_eq_true_eq]
  intro hff
  have hneg := hroot _ (hf.val_ff.1 hff)
  rw [Valuation.makesTrue_negate, ht] at hneg
  simp at hneg

/-- What is never dropped is what was there, and the literals assigned at the root. -/
theorem Simplified.base {p : Nat} {v : Valuation} (h : Simplified s s') (hinv : s'.Inv lags p) (hv : s.Base v)
    (hroot : ∀ l ∈ s'.trail.literals, v.makesTrue l = true) : s'.Base v := by
  have hrest := fun o ho hred hg => hinv.satisfies_remainder hroot (hv.large o ho hred hg)
  have hpair : ∀ c ∈ s'.watches.binaries, c.redundant = false → v.Satisfies [c.a, c.b] := by
    intro c hm hred
    rcases List.mem_append.1 (h.binary.mem_iff.1 hm) with hm | hm
    · have hmem := (Watches.mem_binaries.1 (List.mem_of_mem_filter hm)).2
      exact hv.binary _ _ c.hyper (hred ▸ hmem)
    · obtain ⟨o, ho, hc⟩ := List.mem_filterMap.1 hm
      obtain ⟨ho, hout⟩ := List.mem_filter.1 ho
      obtain ⟨hperm, hr⟩ := BinaryClause.of_ofLiterals? hc
      obtain ⟨l, hl, ht⟩ := hrest o ho (hr.symm.trans hred) (outlasts_iff.1 hout).1
      exact ⟨l, hperm.mem_iff.1 hl, ht⟩
  refine ⟨fun l hl _ => hroot l hl, ?_, ?_⟩
  · intro o' ho' hred _
    obtain ⟨o, ho, hl⟩ := forall₂_exists_left h.large o' ho'
    obtain ⟨ho, hout⟩ := List.mem_filter.1 ho
    rw [Bool.and_eq_true, outlasts_iff] at hout
    have hflags := congrArg Flags.redundant hl.flags
    obtain ⟨l, hm, ht⟩ := hrest o ho (Eq.trans (Eq.symm hflags) hred) hout.1.1
    exact ⟨l, hl.lits.mem_iff.2 hm, ht⟩
  · intro l o y hm
    rcases hinv.paired.mem_iff.1 hm with hm | hm
    · exact hpair _ hm rfl
    · obtain ⟨m, hmem, ht⟩ := hpair _ hm rfl
      exact ⟨m, by simpa [or_comm] using hmem, ht⟩

/-! ## Propagation before it -/

/-- Propagation at the root.  Either every literal is propagated, and no clause comes or goes, or nothing satisfies what
is there. -/
theorem Live.ends_propagateRoot (h : s.Live lags) (h0 : s.trail.level = 0) :
    Ends propagateRoot s
      (fun b s' => (b = true → s'.Quiet lags ∧ Kept s s' ∧ Rearranged s s') ∧
        (b = false → s'.inconsistent = true ∧ ∀ v, ¬ s.Fulfils v)) fun _ _ => False := by
  have hend := (ends_propagate h.inv).and
    (h.inv.shaped.ends_propagate_rearranged (by omega) h.inv.stored)
  unfold Ends Solver.propagateRoot
  cases hrun : propagate s with
  | ok a s' =>
    obtain ⟨⟨hinv, hfull, hk⟩, hr⟩ := hend.of_ok hrun
    refine ⟨fun _ => ⟨⟨hfull ▸ hinv, hfull, hk.inconsistent.trans h.consistent⟩, hk, hr⟩, fun hb => ?_⟩
    cases hb
  | error e s' =>
    obtain ⟨⟨key, rfl, hc, hk⟩, -⟩ := hend.of_error hrun
    obtain ⟨p, hinv, -, -⟩ := hc.inv
    refine ⟨fun hb => (Bool.noConfusion hb), fun _ => ⟨rfl, ?_⟩⟩
    intro v hv
    have hholds := h.inv.holds h0 h.consistent hv
    exact hc.conflict.not_holds hinv.toFrame (hk.level.trans h0) v (hk.refines.holds v hholds)

/-! ## The whole -/

/-- A state in which nothing was learnt since. -/
theorem Quiet.dismiss (h : s.Quiet lags) : Quiet lags { s with iterating := false } ∧
    Refines s { s with iterating := false } := by
  have hinv : Inv lags { s with iterating := false } s.trail.size :=
    { h.inv with
      toFrame := { h.inv.toFrame with iterating := fun hi => by simp at hi }
      toWired := { h.inv.toWired with }
      toClean := { h.inv.toClean with } }
  exact ⟨⟨hinv, h.full, h.consistent⟩,
    { Refines.refl s with
      holds := fun v hv => { hv with }
      base := fun v hv => { hv with } }⟩

/-- What comes after propagation in a simplification, for any state that propagation began in. -/
theorem Quiet.ends_simplifyRest (h : S.Quiet lags) (h0 : S.trail.level = 0) (hr : Rearranged s S)
    (hgrown : ∃ ls, S.trail.literals.toList = s.trail.literals.toList ++ ls) :
    Ends (do
        modify fun s => { s with
          counters.simplifications := s.counters.simplifications + 1
          iterating := false }
        simplifyAll (← get).store.references
        collect 0 .sparse
        modify fun s => { s with unflushed := 0 }) S
      (fun _ s' => Simplified s s' ∧ Refines S s' ∧ s'.Inv lags s'.trail.propagated ∧ s'.trail = S.trail ∧
        s'.inconsistent = false) fun _ _ => False := by
  obtain ⟨hq₀, href₀⟩ := h.dismiss
  have haside : Aside { S with iterating := false }
      { S with
        counters.simplifications := S.counters.simplifications + 1
        iterating := false } := ⟨_, _, _, _, _, _, _, _, rfl⟩
  have hq := (hq₀.aside haside).1
  have hrun := hq.ends_simplifyAll h0
  simp only [ends_bind, ends_get, ends_modify] at hrun ⊢
  refine hrun.imp (fun _ s₁ h₁ => h₁.imp (fun _ s₂ h₂ => ?_) fun _ _ hf => hf) fun _ _ hf => hf
  obtain ⟨ha, hc, hcounted, hpacked⟩ := h₂
  have haside₂ : Aside s₂ { s₂ with unflushed := 0 } := ⟨_, _, _, _, _, _, _, _, rfl⟩
  have hsimplified : Simplified s s₂ := ha.simplified hq h0 { hr with } hc hgrown hpacked hcounted
  have hbefore := href₀.trans haside.refines
  have hunassigned : ∀ c r, Stored { s₂ with unflushed := 0 } c r → ∀ l ∈ c, s₂.val l = .unassigned := by
    intro c r hstored
    exact hsimplified.unassigned c r (hstored.of_eq rfl rfl)
  have hlarge := hsimplified.large.imp fun _ _ h =>
    (⟨h.glue, h.flags, h.lits⟩ : Clipped s { s₂ with unflushed := 0 } _ _)
  have href := hbefore.trans (hc.refines.trans haside₂.refines)
  exact ⟨{ hsimplified with unassigned := hunassigned, large := hlarge }, href, haside₂.inv hc.inv,
    hc.trimmed.trail, hc.trimmed.inconsistent.trans h.consistent⟩

/-- What a simplification at the root comes to: a refutation, or clauses which are simplified. -/
theorem Live.ends_simplify (h : s.Live lags) (h0 : s.trail.level = 0) :
    Ends simplify s (fun _ s' => (s'.inconsistent = true ∧ ∀ v, ¬ s.Fulfils v) ∨
      (s'.inconsistent = false ∧ Simplified s s' ∧ Refines s s' ∧ s'.Inv lags s'.trail.propagated ∧
        (s.trail.propagated = s.trail.size → s'.trail = s.trail))) fun _ _ => False := by
  have hprop := h.ends_propagateRoot h0
  have hstill : s.trail.propagated = s.trail.size → ∀ b s₁, propagateRoot s = .ok b s₁ → s₁ = s := by
    intro hfull b s₁ hrun
    rw [propagateRoot, propagate_full hfull] at hrun
    exact (EStateM.Result.ok.inj hrun).2.symm
  unfold simplify
  simp only [ends_bind, ends_get, ends_ite, ends_throw, ends_pure, h.consistent, Bool.false_eq_true]
  refine ⟨fun hn => hn h0, fun _ => ⟨False.elim, fun _ => ?_⟩⟩
  obtain ⟨b, s₁, hrun, htrue, hfalse⟩ := hprop.exists_ok
  rw [ends_of_ok hrun]
  refine ⟨?_, fun hb => .inl (hfalse (by simpa using hb))⟩
  rintro rfl
  obtain ⟨hquiet, hk, hr⟩ := htrue rfl
  obtain ⟨ls, hls, -⟩ := hk.leads.grown
  have hrest := hquiet.ends_simplifyRest (hk.level.trans h0) hr ⟨ls, hls⟩
  simp only [ends_bind, ends_get, ends_modify] at hrest
  refine hrest.imp (fun _ s₂ h₂ => h₂.imp (fun _ s₃ h₃ => ?_) fun _ _ hf => hf) fun _ _ hf => hf
  obtain ⟨hsimplified, href, hinv, htrail, hi⟩ := h₃
  refine .inr ⟨hi, hsimplified, hk.refines.trans href, hinv, fun hfull => ?_⟩
  rw [← hstill hfull _ _ hrun]
  exact htrail

/-- What is found by evaluating calls that add clauses, something that is done after them, and then something else. -/
theorem exists_called {α : Type} (s₀ : Solver ε) (calls : List Call) (m : SolverM ε Unit) (x : SolverM ε α)
    (test : Solver ε → Solver ε → Solver ε → Bool)
    (h : ((result? (calls.forM Call.run) s₀).any fun r₀ => (result? m r₀.2).any fun r₁ =>
      (result? x r₁.2).any fun r₂ => test r₀.2 r₁.2 r₂.2) = true) :
    ∃ s s₁ a s', Relation.ReflTransGen Move (.adding, s₀) (.adding, s) ∧ m s = .ok () s₁ ∧ x s₁ = .ok a s' ∧
      test s s₁ s' = true := by
  obtain ⟨⟨⟨⟩, s⟩, hload, hrest⟩ := (Option.any_eq_true _ _).1 h
  obtain ⟨⟨⟨⟩, s₁⟩, hm, hrest⟩ := (Option.any_eq_true _ _).1 hrest
  obtain ⟨⟨a, s'⟩, hx, htest⟩ := (Option.any_eq_true _ _).1 hrest
  exact ⟨s, s₁, a, s', reached_calls (result?_eq_some.1 hload), result?_eq_some.1 hm, result?_eq_some.1 hx, htest⟩

variable {C : Settings} {hooks : Hooks ε} {limits : Limits} {stopped : Bool} {outside : ε} {moment : Moment}

/-- A simplification at the root, in any state in which nothing is refuted and literals may be left to be propagated,
unless propagation has just ended in a conflict.  It refutes only what no valuation satisfies.  Otherwise the clauses
are those that were there, without their false literals, but for those which are satisfied, garbage or derived during
propagation.  The models of what is never dropped are those it had before that satisfy the literals assigned at the
root.  These literals follow from the clauses which were there; so the models are the same ones if everything was
propagated before, or if every clause followed from what is never dropped. -/
theorem simplify_exact (h : Reached C hooks limits stopped outside (moment, s))
    (hm : ∀ key, moment ≠ .conflicted key) (h0 : s.trail.level = 0) (hi : s.inconsistent = false) :
    ∃ s', simplify s = .ok () s' ∧ ((s'.inconsistent = true ∧ ∀ v, ¬ s.Fulfils v) ∨
      (s'.inconsistent = false ∧ Simplified s s' ∧ (∀ v, s.Fulfils v → s'.Fulfils v) ∧
        (∀ v, s'.Base v ↔ s.Base v ∧ ∀ l ∈ s'.trail.literals, v.makesTrue l = true) ∧
        (s.trail.propagated = s.trail.size ∨ (∀ v, s.Base v → s.Fulfils v) → ∀ v, s'.Base v ↔ s.Base v))) := by
  have hlive : s.Live (false = false) := (Reached.stands h).live hm h0 hi
  obtain ⟨⟨⟩, s', hrun, hs'⟩ := (hlive.ends_simplify h0).exists_ok
  refine ⟨s', hrun, hs'.imp_right ?_⟩
  rintro ⟨hi', hsimp, href, hinv, hstill⟩
  have hfulfils : ∀ v, s.Fulfils v → s'.Fulfils v := fun v hv =>
    (href.holds v (hlive.inv.holds h0 hi hv)).fulfils
  have hlevel : ∀ l ∈ s'.trail.literals, s'.assignment.level l = 0 := by
    intro l hl
    have hle := hinv.trail.level_le_of_mem hl
    have := hsimp.level
    omega
  have hbase : ∀ v, s'.Base v ↔ s.Base v ∧ ∀ l ∈ s'.trail.literals, v.makesTrue l = true := fun v =>
    ⟨fun hv => ⟨href.base v hv, fun l hl => hv.root l hl (hlevel l hl)⟩, fun hv => hsimp.base hinv hv.1 hv.2⟩
  refine ⟨hi', hsimp, hfulfils, hbase, ?_⟩
  intro hknown v
  rw [hbase, and_iff_left_iff_imp]
  intro hv l hl
  rcases hknown with hfull | hfollow
  · rw [hstill hfull] at hl
    have hle := hlive.inv.trail.level_le_of_mem hl
    exact hv.root l hl (by omega)
  · exact (hfulfils v (hfollow v hv)).root l hl (hlevel l hl)

/-- A unit from outside is not propagated yet.  Of the first clause three literals are left, and it stays in the store;
the second one becomes a binary clause, and the third one is satisfied. -/
theorem simplify_exact_three : ∃ s s' : Solver Unit, Reached {} {} {} false () (.underway, s) ∧
    (∀ key, Moment.underway ≠ .conflicted key) ∧ s.trail.level = 0 ∧ s.inconsistent = false ∧
      simplify s = .ok () s' ∧ s'.inconsistent = false ∧ Simplified s s' ∧ (∀ v, s'.Base v ↔ s.Base v) ∧
      s.store.offsets = [0, 8, 15] ∧ s'.store.offsets = [0] ∧ s'.store.lits 0 = [⟨2⟩, ⟨4⟩, ⟨6⟩] ∧
      s'.watches.binaries = [⟨⟨2⟩, ⟨8⟩, false, false⟩] := by
  obtain ⟨s₀, s, ⟨⟩, s', h, hunit, hrun, htest⟩ := exists_called (fresh {} {} {} false ())
    [.clause [1, 2, 3, 4], .clause [1, 2, 5], .clause [-1, 3, 4]] (modify fun s => s.importUnit (-1)) simplify
    (fun s₀ s s' => s₀.trail.level = 0 ∧ s₀.inconsistent = false ∧ s.trail.level = 0 ∧ s.inconsistent = false ∧
      (∀ o ∈ s.store.offsets, (s.store.flagsAt o).redundant = false ∧ (s.store.flagsAt o).garbage = false) ∧
      (∀ c ∈ s.watches.binaries, c.redundant = false) ∧ s'.inconsistent = false ∧ s.store.offsets = [0, 8, 15] ∧
      s'.store.offsets = [0] ∧ s'.store.lits 0 = [⟨2⟩, ⟨4⟩, ⟨6⟩] ∧
      s'.watches.binaries = [⟨⟨2⟩, ⟨8⟩, false, false⟩]) (by decide +kernel)
  obtain ⟨h0, hi, h0', hi', hlarge, hbinary, hconsistent, hoffsets, hafter⟩ := of_decide_eq_true htest
  obtain rfl := (EStateM.Result.ok.inj hunit).2
  have hmoment : (s₀.importUnit (-1)).moment = .underway := by
    unfold moment
    rw [hi']
    rfl
  have hreached : Reached {} {} {} false () (.underway, s₀.importUnit (-1)) :=
    hmoment ▸ (h.tail (.settle hi)).tail (.importUnit (-1) h0)
  obtain ⟨p, hp⟩ := (Reached.stands hreached).intact
  obtain ⟨s₂, hrun₂, hs₂⟩ := simplify_exact hreached (by simp) h0' hi'
  obtain ⟨-, rfl⟩ := EStateM.Result.ok.inj (hrun.symm.trans hrun₂)
  rcases hs₂ with ⟨hn, -⟩ | ⟨-, hsimplified, -, -, hsame⟩
  · rw [hconsistent] at hn
    cases hn
  · exact ⟨_, s', hreached, by simp, h0', hi', hrun, hconsistent, hsimplified,
      hsame (.inr fun v hv => (hp.rooted h0').fulfils hlarge hbinary hv), hoffsets, hafter⟩

/-- A clause from outside does not follow from the others.  With a unit that is not propagated yet it forces another
literal, and a model of what is never dropped is lost. -/
theorem simplify_loses_model : ∃ (s s' : Solver Unit) (v : Valuation), Reached {} {} {} false () (.underway, s) ∧
    s.trail.level = 0 ∧ s.inconsistent = false ∧ simplify s = .ok () s' ∧ s'.inconsistent = false ∧ s.Base v ∧
      ¬ s'.Base v := by
  obtain ⟨s₀, s, ⟨⟩, s', h, hclause, hrun, htest⟩ := exists_called (fresh {} {} {} false ()) [.clause [1, 2, 3]]
    (importClause [-1, 2] 1) (do modify fun s => s.importUnit 1; simplify)
    (fun s₀ s s' => s₀.trail.level = 0 ∧ s₀.inconsistent = false ∧ s.trail.level = 0 ∧ s.inconsistent = false ∧
      (s.importUnit 1).trail.level = 0 ∧ (s.importUnit 1).inconsistent = false ∧ s'.inconsistent = false ∧
      (∀ l ∈ (s.importUnit 1).trail.literals.toList, Valuation.makesTrue (· != 1) l = true) ∧
      (∀ o ∈ (s.importUnit 1).store.offsets, Valuation.Satisfies (· != 1) ((s.importUnit 1).store.lits o)) ∧
      (∀ c ∈ (s.importUnit 1).watches.binaries, c.redundant = true) ∧
      .make 1 true ∈ s'.trail.literals.toList ∧ s'.assignment.level (.make 1 true) = 0) (by decide +kernel)
  obtain ⟨h0, hi, h1, hi1, h2, hi2, hi', hroot, hlarge, hbinary, hmem, hlevel⟩ := of_decide_eq_true htest
  have hmoment : s.moment = .underway ∧ (s.importUnit 1).moment = .underway := by
    unfold moment
    rw [hi1, hi2]
    exact ⟨rfl, rfl⟩
  have hreached₁ : Reached {} {} {} false () (.underway, s) :=
    hmoment.1 ▸ (h.tail (.settle hi)).tail (.importClause h0 hclause)
  have hreached : Reached {} {} {} false () (.underway, s.importUnit 1) :=
    hmoment.2 ▸ hreached₁.tail (.importUnit 1 h1)
  refine ⟨_, s', (· != 1), hreached, h2, hi2, hrun, hi', ⟨?_, ?_, ?_⟩, ?_⟩
  · intro l hl _
    exact hroot l (Array.mem_toList_iff.2 hl)
  · intro o ho _ _
    exact hlarge o ho
  · intro l o y hm
    have hpaired := hreached.stands.inv.paired
    rcases hpaired.mem_iff.1 hm with hc | hc
    · exact Bool.noConfusion (hbinary _ hc)
    · exact Bool.noConfusion (hbinary _ hc)
  · intro hv
    have htrue := hv.root (.make 1 true) (Array.mem_toList_iff.1 hmem) hlevel
    exact Bool.noConfusion htrue

end Solver

end ClauseLearning

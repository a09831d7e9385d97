import ClauseLearning.Proofs.Binaries
import ClauseLearning.Proofs.Reachability
import ClauseLearning.Proofs.Trial

/-!
# Clauses across a collection

A collection goes through the clauses of the store from some position on, drops some of them, writes what is left of
others closer together, and makes binary clauses where two literals are left.  Nothing is lost on the way and nothing
comes twice: the clauses which are stored afterwards match, one for one and in order, those of which three literals or
more are left, and so do the new binary clauses those of which two are.

* `Solver.survives`, `Solver.residue` — of which clauses something is left, and what.
* `Solver.keepsBinary` — which binary clauses stay.
* `Solver.Accounted` — what has become of every clause.
* `Solver.Tally` — the same while clauses are gone through, with `Collectable.tally`.
* `Solver.collect_accounts` — every clause is accounted for, wherever a collection may be made.
-/

namespace ClauseLearning

/-! ## One clause in two stores -/

namespace Store

variable {s s' s'' : Store} {o : Nat}

/-- A clause is the same in two stores, but for its pin and the order of its literals. -/
structure SameAt (o : Nat) (s s' : Store) : Prop where
  /-- The glue. -/
  glue : s'.glueAt o = s.glueAt o
  /-- The flags. -/
  flags : (s'.flagsAt o).unpinned = (s.flagsAt o).unpinned
  /-- The literals. -/
  perm : (s'.lits o).Perm (s.lits o)

theorem SameAt.trans (h : SameAt o s s') (h' : SameAt o s' s'') : SameAt o s s'' :=
  ⟨h'.glue.trans h.glue, h'.flags.trans h.flags, h'.perm.trans h.perm⟩

theorem Repinned.sameAt {pin : Bool} {target : Nat → Prop} (h : Repinned pin target s s') (ho : o ∈ s.offsets) :
    SameAt o s s' := by
  have hrecord := h.record o ho
  refine ⟨?_, ?_, .of_eq (h.lits o ho)⟩
  · exact congrArg Record.glue hrecord
  · exact congrArg Record.flags hrecord

theorem Appended.sameAt {ls : List Literal} {f : Flags} (h : Appended ls f s s') (hc : s.Chain 0)
    (ho : o ∈ s.offsets) : SameAt o s s' :=
  ⟨h.glueAt_old hc ho, by rw [h.flagsAt_old hc ho], .of_eq (h.lits_old hc ho)⟩

end Store

namespace Solver

variable {ε : Type} {lags : Prop} {s s' S : Solver ε} {start o o' : Nat} {mode : CollectMode} {t t' : Store}
  {w w' : Watches} {x : Assignment × Watches} {done : List Nat}

theorem Reordered.sameAt (h : Reordered t t') (ho : o ∈ t.offsets) : Store.SameAt o t t' :=
  ⟨h.glue o ho, by rw [h.flags o ho], h.perm o ho⟩

/-! ## What is to become of clauses -/

instance (s : Solver ε) : DecidablePred s.IsReason := fun o =>
  inferInstanceAs (Decidable (∃ l ∈ s.trail.literals, s.assignment.reason l = .large ⟨o, s.store.epoch⟩))

/-- The literals of a clause that a collection leaves: in a sparse one, those which are not false at the root. -/
def residue (mode : CollectMode) (s : Solver ε) (o : Nat) : List Literal :=
  match mode with
  | .sparse => (s.store.lits o).filter fun l => s.assignment.fixed l ≠ .ff
  | .dense => s.store.lits o

/-- Whether a collection leaves anything of a clause.  It does so if the clause is a reason.  Otherwise the clause must
not be garbage, and in a sparse collection must not be satisfied at the root. -/
def survives (mode : CollectMode) (s : Solver ε) (o : Nat) : Bool :=
  s.IsReason o || (!(s.store.flagsAt o).garbage && match mode with
    | .sparse => !(s.store.lits o).any fun l => s.assignment.fixed l = .tt
    | .dense => true)

/-- Of some clauses, those from a position on of which a collection leaves something. -/
def survivors (mode : CollectMode) (start : Nat) (s : Solver ε) (os : List Nat) : List Nat :=
  os.filter fun o => start ≤ o && s.survives mode o

/-- The binary clause that is made of a clause, if two literals are left. -/
def pairOf? (mode : CollectMode) (s : Solver ε) (o : Nat) : Option BinaryClause :=
  match s.residue mode o with
  | [a, b] => some (.ofPair a b (s.store.flagsAt o).redundant false)
  | _ => none

/-- Whether a binary clause stays.  A dense collection keeps them all.  In a sparse one neither literal may be assigned
at the root, and a clause that was derived during propagation must be a reason. -/
def keepsBinary (mode : CollectMode) (s : Solver ε) (c : BinaryClause) : Bool :=
  match mode with
  | .sparse => !(s.assignment.fixed c.a).isAssigned && !(s.assignment.fixed c.b).isAssigned &&
      (!c.hyper || s.assignment.isBinaryReason c.a c.b)
  | .dense => true

/-- In a store, the clause at the second offset is what a collection leaves of the one at the first offset. -/
structure Leaves (mode : CollectMode) (s : Solver ε) (t : Store) (o o' : Nat) : Prop where
  /-- The clause was stored. -/
  source : o ∈ s.store.offsets
  /-- What is left of it is stored. -/
  mem : o' ∈ t.offsets
  /-- The glue is the same. -/
  glue : t.glueAt o' = s.store.glueAt o
  /-- The flags are the same, except that the clause is not noted to have been shortened. -/
  flags : (t.flagsAt o').unpinned = { (s.store.flagsAt o).unpinned with shrunken := false }
  /-- The literals are those that are left. -/
  lits : (t.lits o').Perm (s.residue mode o)

/-- What has become of every clause in a collection. -/
structure Accounted (mode : CollectMode) (start : Nat) (s s' : Solver ε) : Prop where
  /-- No clause is stored twice. -/
  nodup : s'.store.offsets.Nodup
  /-- Clauses before the position are the same. -/
  early : ∀ o ∈ s.store.offsets, o < start → Store.SameAt o s.store s'.store
  /-- In a sparse collection not even the order of their literals has changed. -/
  untouched : mode = .sparse → ∀ o ∈ s.store.offsets, o < start →
    (s'.store.recordAt o).unpinned = (s.store.recordAt o).unpinned
  /-- Of a clause of which anything is left there are two literals or more. -/
  enough : ∀ o ∈ s.store.offsets, s.survives mode o = true → 2 ≤ (s.residue mode o).length
  /-- After the clauses before the position comes one for each of which three literals or more are left, in order. -/
  large : ∃ moved, s'.store.offsets = s.store.offsets.filter (· < start) ++ moved ∧
    List.Forall₂ (Leaves mode s s'.store)
      ((s.survivors mode start s.store.offsets).filter fun o => 3 ≤ (s.residue mode o).length) moved
  /-- The binary clauses are those that stay, and one for each clause of which two literals are left. -/
  binary : s'.watches.binaries.Perm (s.watches.binaries.filter (s.keepsBinary mode) ++
    (s.survivors mode start s.store.offsets).filterMap (s.pairOf? mode))

/-- A dense collection shortens no clause. -/
theorem three_le_residue (hc : s.store.Chain 0) (ho : o ∈ s.store.offsets) : 3 ≤ (s.residue .dense o).length := by
  rw [residue, Store.length_lits]
  exact (hc.mem ho).2.three

/-- No binary clause is made where three literals or more are left. -/
theorem pairOf?_of_long (h : 3 ≤ (s.residue mode o).length) : s.pairOf? mode o = none := by
  unfold pairOf?
  split
  · next a b heq =>
    rw [heq] at h
    simp at h
  · rfl

theorem filter_keepsBinary_dense (s : Solver ε) (cs : List BinaryClause) : cs.filter (s.keepsBinary .dense) = cs :=
  List.filter_eq_self.2 fun _ _ => rfl

/-! ## The rules -/

/-- What becomes of a clause, and of the watches. -/
inductive Treated (mode : CollectMode) (S : Solver ε) (o : Nat) (w : Watches) : Option Store.Record → Watches → Prop where
  /-- It is dropped. -/
  | dropped (hs : S.survives mode o = false) : Treated mode S o w none w
  /-- It becomes a binary clause. -/
  | paired {a b : Literal} (hs : S.survives mode o = true) (left : S.residue mode o = [a, b]) :
      Treated mode S o w none (w.addBinary a b (S.store.flagsAt o).redundant false)
  /-- It is written again. -/
  | kept {c : Store.Record} (hs : S.survives mode o = true) (left : c.literals.toList = S.residue mode o)
      (three : 3 ≤ c.literals.size) (glue : c.glue = S.store.glueAt o) (flags : c.flags = S.store.flagsAt o) :
      Treated mode S o w (some c) w

section Rules

variable (hS : S.Collectable lags start)
  (hpin : ∀ o ∈ S.store.offsets, (S.store.flagsAt o).reason = true ↔ S.IsReason o) (ho : o ∈ S.store.offsets)
include hS hpin ho

/-- What a collection leaves of a clause is fit to be watched, and has two literals or more. -/
theorem Collectable.fits_residue (hs : S.survives mode o = true) :
    Fits S.numbering.Usable S.assignment (lags ∧ (S.store.flagsAt o).redundant = true) (S.residue mode o) ∧
      2 ≤ (S.residue mode o).length := by
  simp only [survives, Bool.or_eq_true, Bool.and_eq_true, decide_eq_true_eq, Bool.not_eq_true'] at hs
  cases mode with
  | dense =>
    refine ⟨?_, Nat.le_of_succ_le (three_le_residue hS.chain ho)⟩
    rcases hs with hr | ⟨hg, -⟩
    · obtain ⟨i, hi, -, hforced, -⟩ := hr.exists_at hS.grounded
      have hle := hS.frame.trail.level_le hi
      have hlev := hforced.1
      exact hS.fits o ho (.inr (by omega))
    · exact hS.fits o ho (.inl hg)
  | sparse =>
    simp only [Bool.not_eq_true', List.any_eq_false, decide_eq_true_eq] at hs
    obtain ⟨hfit, hroot, -⟩ := hS.fits_of_kept hpin ho
      (fun hg => (hpin o ho).2 (hs.resolve_right fun hn => by
        rw [hg] at hn
        cases hn.1))
      (fun ⟨l, hl, ht⟩ => (hpin o ho).2 (hs.resolve_right fun hn => hn.2 l hl ht))
    have htrim : Trims S.assignment (S.store.lits o) (S.residue .sparse o) := .filter _ _
    exact ⟨htrim.fits hfit, (htrim.fits hfit).two_le fun l hl => hroot l (htrim.mem hl)⟩

/-- Two literals that are left are distinct and have lists of watches. -/
theorem Collectable.fits_pair (hs : S.survives mode o = true) {a b : Literal} (left : S.residue mode o = [a, b])
    (hlists : w.lists.size = S.watches.lists.size) : a.code < w.lists.size ∧ b.code < w.lists.size ∧ a ≠ b := by
  obtain ⟨hfit, -⟩ := hS.fits_residue hpin ho hs
  rw [left] at hfit
  have hlt : ∀ l ∈ [a, b], l.code < w.lists.size := by
    intro l hl
    rw [hlists]
    exact hS.frame.code_lt (hfit.usable l hl)
  refine ⟨hlt a (by simp), hlt b (by simp), ?_⟩
  rintro rfl
  have hnodup := hfit.nodup
  simp at hnodup

omit hS in
theorem survives_eq (mode : CollectMode) : S.survives mode o = ((S.store.flagsAt o).reason ||
    (!(S.store.flagsAt o).garbage && match mode with
      | .sparse => !(S.store.lits o).any fun l => S.assignment.fixed l = .tt
      | .dense => true)) := by
  have hreason : (S.IsReason o : Bool) = (S.store.flagsAt o).reason := by
    rw [Bool.eq_iff_iff, decide_eq_true_eq, hpin o ho]
  rw [← hreason]
  rfl

theorem Collectable.treated_dense (old new : Reference) : Treated .dense S o x.2
    (denseRule x old new (S.store.recordAt o)).1 (denseRule x old new (S.store.recordAt o)).2.2 := by
  have hat := (hS.chain.mem ho).2
  have hkept : S.survives .dense o = true → Treated .dense S o x.2 (some (S.store.recordAt o)) x.2 := fun hs =>
    .kept hs (Store.literalsAt_toList hat.fits)
      (Nat.le_trans hat.three (Nat.le_of_eq (Store.size_literalsAt hat.fits).symm)) rfl rfl
  have hsurvives := survives_eq hpin ho .dense
  have hflags : (S.store.recordAt o).flags = S.store.flagsAt o := rfl
  unfold denseRule
  simp only [hflags]
  cases hr : (S.store.flagsAt o).reason with
  | true =>
    rw [hr] at hsurvives
    simpa [rehome] using hkept (by simpa using hsurvives)
  | false =>
    cases hg : (S.store.flagsAt o).garbage with
    | true =>
      rw [hr, hg] at hsurvives
      simpa using Treated.dropped (w := x.2) (by simpa using hsurvives)
    | false =>
      rw [hr, hg] at hsurvives
      simpa using hkept (by simpa using hsurvives)

theorem Collectable.treated_sparse (hx : S.assignment.Rehomed x.1) (old new : Reference) : Treated .sparse S o x.2
    (sparseRule x old new (S.store.recordAt o)).1 (sparseRule x old new (S.store.recordAt o)).2.2 := by
  have hsurvives := survives_eq hpin ho .sparse
  rcases hS.sparse_cases hpin ho hx old new with ⟨hr, hdrop, he⟩ | ⟨⟨hgarbage, htrue⟩, rest, hrest, hleft⟩
  · rw [he]
    refine .dropped ?_
    rw [hsurvives, hr]
    rcases hdrop with hg | hd
    · simp [hg]
    · have hany : ((S.store.lits o).any fun l => S.assignment.fixed l = .tt) = true := by simpa using hd
      simp [hany]
  · have hs : S.survives .sparse o = true := by
      rw [hsurvives]
      cases hr : (S.store.flagsAt o).reason with
      | true => rfl
      | false =>
        rw [hr] at hgarbage htrue
        simpa using And.intro hgarbage htrue
    have hleft' : rest.toList = S.residue .sparse o := hrest
    rcases hleft with ⟨a, b, hab, he⟩ | ⟨h3, he⟩
    · rw [he]
      split
      · exact .paired hs (hleft'.symm.trans hab)
      · exact .paired hs (hleft'.symm.trans hab)
    · rw [he]
      split
      · exact .kept hs hleft' h3 rfl rfl
      · exact .kept hs hleft' h3 rfl rfl

theorem Collectable.treated (hx : S.assignment.Rehomed x.1) (mode : CollectMode) (old new : Reference) :
    Treated mode S o x.2 (ruleOf mode x old new (S.store.recordAt o)).1
      (ruleOf mode x old new (S.store.recordAt o)).2.2 := by
  cases mode with
  | dense => exact hS.treated_dense hpin ho old new
  | sparse => exact hS.treated_sparse hpin ho hx old new

end Rules

/-! ## While clauses are gone through -/

/-- What has become of clauses while they are gone through. -/
structure Tally (mode : CollectMode) (start : Nat) (S : Solver ε) (done : List Nat) (t : Store) (w : Watches) : Prop
    where
  /-- After the clauses before the position comes one for each of which three literals or more are left, in order. -/
  large : ∃ moved, t.offsets = S.store.offsets.filter (· < start) ++ moved ∧
    List.Forall₂ (Leaves mode S t)
      ((S.survivors mode start done).filter fun o => 3 ≤ (S.residue mode o).length) moved
  /-- There is a new binary clause for each clause of which two literals are left. -/
  binary : w.binaries.Perm (S.watches.binaries ++ (S.survivors mode start done).filterMap (S.pairOf? mode))

theorem Leaves.sameAt (h : Leaves mode S t o o') (ho : o' ∈ t'.offsets) (hs : Store.SameAt o' t t') :
    Leaves mode S t' o o' :=
  ⟨h.source, ho, hs.glue.trans h.glue, hs.flags.trans h.flags, hs.perm.trans h.lits⟩

/-- Before the first visit. -/
theorem tally_start (hc : S.store.Chain 0) (hq : S.store.Stop start) (mode : CollectMode) (e : Nat) :
    Tally mode start S (S.store.cut start e).offsets (S.store.cut start e) S.watches := by
  have hnone : S.survivors mode start (S.store.cut start e).offsets = [] := by
    refine List.filter_eq_nil_iff.2 fun o ho => ?_
    have hlt := ((hq.mem_cut hc).1 ho).2
    simp [Nat.not_le.2 hlt]
  refine ⟨⟨[], ?_, ?_⟩, ?_⟩
  · rw [List.append_nil, hq.offsets hc e, List.filter_append, List.filter_eq_self.2,
      List.filter_eq_nil_iff.2, List.append_nil]
    · intro o ho
      have hle := ((hq.mem_offsetsFrom hc).1 ho).2
      simpa using hle
    · intro o ho
      simpa using ((hq.mem_cut hc).1 ho).2
  · rw [hnone]
    exact .nil
  · rw [hnone, List.filterMap_nil, List.append_nil]

theorem survivors_append_dropped (hs : S.survives mode o = false) :
    S.survivors mode start (done ++ [o]) = S.survivors mode start done := by
  simp [survivors, List.filter_append, hs]

theorem survivors_append_kept (hq : start ≤ o) (hs : S.survives mode o = true) :
    S.survivors mode start (done ++ [o]) = S.survivors mode start done ++ [o] := by
  simp [survivors, List.filter_append, hs, hq]

/-- A clause is dropped. -/
theorem Tally.drop (h : Tally mode start S done t w) (hs : S.survives mode o = false) :
    Tally mode start S (done ++ [o]) t w := by
  have hsame : S.survivors mode start (done ++ [o]) = S.survivors mode start done := survivors_append_dropped hs
  exact ⟨by rw [hsame]; exact h.large, by rw [hsame]; exact h.binary⟩

/-- The binary clause that is made of one more clause. -/
theorem binaries_pair (h : w.binaries.Perm (S.watches.binaries ++
      (S.survivors mode start done).filterMap (S.pairOf? mode))) (hq : start ≤ o) (hs : S.survives mode o = true)
    {a b : Literal} (left : S.residue mode o = [a, b]) (ha : a.code < w.lists.size) (hb : b.code < w.lists.size)
    (hne : a ≠ b) : (w.addBinary a b (S.store.flagsAt o).redundant false).binaries.Perm (S.watches.binaries ++
      (S.survivors mode start (done ++ [o])).filterMap (S.pairOf? mode)) := by
  have hpair : S.pairOf? mode o = some (.ofPair a b (S.store.flagsAt o).redundant false) := by
    rw [pairOf?, left]
  have hadd := Watches.binaries_addBinary ha hb hne (S.store.flagsAt o).redundant false
  rw [survivors_append_kept hq hs, List.filterMap_append, ← List.append_assoc]
  simpa [hpair] using hadd.trans (h.append_right _)

/-- A clause becomes a binary clause. -/
theorem Tally.pair (h : Tally mode start S done t w) (hq : start ≤ o) (hs : S.survives mode o = true)
    {a b : Literal} (left : S.residue mode o = [a, b]) (ha : a.code < w.lists.size) (hb : b.code < w.lists.size)
    (hne : a ≠ b) :
    Tally mode start S (done ++ [o]) t (w.addBinary a b (S.store.flagsAt o).redundant false) := by
  refine ⟨?_, ?_⟩
  · obtain ⟨moved, hoffsets, hmoved⟩ := h.large
    refine ⟨moved, hoffsets, ?_⟩
    rw [survivors_append_kept hq hs, List.filter_append]
    simpa [left] using hmoved
  · exact binaries_pair h.binary hq hs left ha hb hne

/-- A clause is written again. -/
theorem Tally.keep (h : Tally mode start S done t w) (hc : t.Chain 0) (ho : o ∈ S.store.offsets) (hq : start ≤ o)
    (hs : S.survives mode o = true) {c : Store.Record} (left : c.literals.toList = S.residue mode o)
    (three : 3 ≤ c.literals.size) (glue : c.glue = S.store.glueAt o) (flags : c.flags = S.store.flagsAt o)
    (ha : Store.Appended c.literals.toList c.settled.flags t (t.append c.settled)) :
    Tally mode start S (done ++ [o]) (t.append c.settled) w := by
  have hlong : 3 ≤ (S.residue mode o).length := by rwa [← left, Array.length_toList]
  refine ⟨?_, ?_⟩
  · obtain ⟨moved, hoffsets, hmoved⟩ := h.large
    have hnew : Leaves mode S (t.append c.settled) o t.words.size := by
      refine ⟨ho, ha.mem_offsets.2 (.inr rfl), ?_, ?_, ?_⟩
      · rw [Store.glueAt_append]
        exact glue
      · rw [ha.flags, Store.flags_settled, flags]
        simp [Flags.unpinned]
      · rw [ha.lits, left]
    have hold := hmoved.imp fun _ _ hl =>
      hl.sameAt (ha.mem_offsets.2 (.inl hl.mem)) (ha.sameAt hc hl.mem)
    refine ⟨moved ++ [t.words.size], ?_, ?_⟩
    · rw [ha.offsets, hoffsets, List.append_assoc]
    · rw [survivors_append_kept hq hs, List.filter_append, List.filter_singleton]
      simp only [hlong, decide_true]
      exact List.rel_append hold (.cons hnew .nil)
  · have hnone := pairOf?_of_long hlong
    rw [survivors_append_kept hq hs, List.filterMap_append]
    simpa [hnone] using h.binary

/-- What becomes of clauses goes on when one more is visited. -/
theorem Tally.visit (hS : S.Collectable lags start)
    (hpin : ∀ o ∈ S.store.offsets, (S.store.flagsAt o).reason = true ↔ S.IsReason o) (ho : o ∈ S.store.offsets)
    (hq : start ≤ o) (hsw : Sweeping lags S start done t x) (h : Tally mode start S done t x.2) :
    S.store.Visits (ruleOf mode) (fun done t x => Tally mode start S done t x.2) done o t x := by
  have htreated := hS.treated hpin ho hsw.rehomes.rehomed mode ⟨o, S.store.epoch⟩
    ⟨t.words.size, Store.nextEpoch S.store.epoch⟩
  have hlists := hsw.gathers.lists
  unfold Store.Visits
  generalize ruleOf mode x ⟨o, S.store.epoch⟩ ⟨t.words.size, Store.nextEpoch S.store.epoch⟩
    (S.store.recordAt o) = result at htreated ⊢
  obtain ⟨new, a', w'⟩ := result
  simp only at htreated ⊢
  cases htreated with
  | dropped hs => exact h.drop hs
  | @paired a b hs left =>
    obtain ⟨ha, hb, hne⟩ := hS.fits_pair hpin ho hs left hlists
    exact h.pair hq hs left ha hb hne
  | @kept c hs left three glue flags =>
    obtain ⟨hfit, -⟩ := hS.fits_residue hpin ho hs
    have hlen := hS.frame.length_lt_padding hfit.nodup hfit.usable
    rw [← left, Array.length_toList] at hlen
    exact h.keep hsw.moves.chain ho hq hs left three glue flags
      (Store.appended_append (c := c.settled) hsw.moves.chain three (Nat.ne_of_lt hlen))

/-- The count of garbage is of no matter. -/
theorem Tally.garbage (h : Tally mode start S done t w) (hc : t.Chain 0) (garbage : Nat) :
    Tally mode start S done { t with garbage } w := by
  have hwords : ({ t with garbage } : Store).words = t.words := rfl
  have hoffsets : Store.offsets { t with garbage } = t.offsets := Store.offsetsFrom_of_words hwords hc
  obtain ⟨moved, hmoved, hleaves⟩ := h.large
  refine ⟨⟨moved, hoffsets.trans hmoved, hleaves.imp ?_⟩, h.binary⟩
  intro o o' hl
  exact ⟨hl.source, hoffsets.symm ▸ hl.mem, hl.glue, hl.flags, hl.lits⟩

/-- What has become of every clause in a whole sweep. -/
theorem Collectable.tally (hS : S.Collectable lags start)
    (hpin : ∀ o ∈ S.store.offsets, (S.store.flagsAt o).reason = true ↔ S.IsReason o) (mode : CollectMode) :
    ∃ t x, Sweeping lags S start S.store.offsets t x ∧ Tally mode start S S.store.offsets t x.2 ∧
      S.sweep start mode = (⟨start, S.store.epoch, Store.nextEpoch S.store.epoch⟩,
        { S with store := t, assignment := x.1, watches := x.2 }) := by
  obtain ⟨t, x, garbage, hsw, htally, he⟩ := hS.sweep_induct
    (P := fun done t x => Tally mode start S done t x.2) mode hpin
    (fun _ _ _ _ ho hq hsw h => h.visit hS hpin ho hq hsw) (tally_start hS.chain hS.stop mode _)
  exact ⟨_, x, hsw.garbage garbage, htally.garbage hsw.moves.chain garbage, he⟩

/-! ## Before and after the sweep -/

/-- The binary clauses which stay. -/
theorem binaries_unwatch (s : Solver ε) (start : Nat) (mode : CollectMode) :
    (s.unwatch start mode).watches.binaries = s.watches.binaries.filter (s.keepsBinary mode) := by
  cases mode with
  | sparse =>
    refine Watches.binaries_filter (by simp [Solver.unwatch, flushWatches]) (view_flushWatches start s)
      fun a b r y => ?_
    simp only [keepsWatch, keepsBinary]
    cases (s.assignment.fixed a).isAssigned <;> cases (s.assignment.fixed b).isAssigned <;> simp
  | dense =>
    rw [filter_keepsBinary_dense]
    refine Watches.binaries_congr (Watches.size_dropLarge _) fun l => ?_
    rw [show (s.unwatch start .dense).watches = s.watches.dropLarge from rfl, Watches.view_dropLarge,
      List.filter_filter]
    simp

section Repinned

variable {pin : Bool} {target : Nat → Prop} {st : Store} {counters : Counters}
  (hp : Store.Repinned pin target s.store st)
include hp

theorem residue_repinned (ho : o ∈ s.store.offsets) :
    residue mode { s with counters, store := st, watches := w } o = s.residue mode o := by
  cases mode with
  | sparse => simp only [residue, hp.lits o ho]
  | dense => exact hp.lits o ho

theorem survives_repinned (ho : o ∈ s.store.offsets) :
    survives mode { s with counters, store := st, watches := w } o = s.survives mode o := by
  have hreason : (IsReason { s with counters, store := st, watches := w } o : Bool) = (s.IsReason o : Bool) :=
    decide_eq_decide.2 (by simp only [IsReason, hp.epoch])
  unfold survives
  rw [hreason, hp.garbage ho, hp.lits o ho]

theorem survivors_repinned : survivors mode start { s with counters, store := st, watches := w } st.offsets =
    s.survivors mode start s.store.offsets := by
  unfold survivors
  rw [hp.offsets]
  refine List.filter_congr fun o ho => ?_
  rw [survives_repinned hp ho]

/-- What becomes of clauses is the same whether they are pinned or not. -/
theorem Tally.repinned (h : Tally mode start { s with counters, store := st, watches := w } st.offsets t w') :
    (∃ moved, t.offsets = s.store.offsets.filter (· < start) ++ moved ∧ List.Forall₂ (Leaves mode s t)
      ((s.survivors mode start s.store.offsets).filter fun o => 3 ≤ (s.residue mode o).length) moved) ∧
    w'.binaries.Perm (w.binaries ++ (s.survivors mode start s.store.offsets).filterMap (s.pairOf? mode)) := by
  have hmem : ∀ {o}, o ∈ s.survivors mode start s.store.offsets → o ∈ s.store.offsets := List.mem_of_mem_filter
  refine ⟨?_, ?_⟩
  · obtain ⟨moved, hoffsets, hleaves⟩ := h.large
    have hlong : ((s.survivors mode start s.store.offsets).filter fun o =>
        3 ≤ (residue mode { s with counters, store := st, watches := w } o).length) =
        (s.survivors mode start s.store.offsets).filter fun o => 3 ≤ (s.residue mode o).length :=
      List.filter_congr fun o ho => by rw [residue_repinned hp (hmem ho)]
    rw [survivors_repinned hp, hlong] at hleaves
    refine ⟨moved, by rw [hoffsets, hp.offsets], hleaves.imp fun o o' hl => ?_⟩
    have ho : o ∈ s.store.offsets := hp.offsets ▸ hl.source
    have hsame := hp.sameAt ho
    refine ⟨ho, hl.mem, hl.glue.trans hsame.glue, ?_, ?_⟩
    · rw [hl.flags, hsame.flags]
    · rw [← residue_repinned hp ho]
      exact hl.lits
  · have hpairs : (s.survivors mode start s.store.offsets).filterMap
        (pairOf? mode { s with counters, store := st, watches := w }) =
        (s.survivors mode start s.store.offsets).filterMap (s.pairOf? mode) := by
      refine List.filterMap_congr fun o ho => ?_
      unfold pairOf?
      rw [residue_repinned hp (hmem ho), hp.redundant (hmem ho)]
    have hbinary := h.binary
    rw [survivors_repinned hp, hpairs] at hbinary
    exact hbinary

end Repinned

/-- A clause before the position is as it was. -/
theorem Moves.recordAt_early (h : Moves lags S start t) (hc : S.store.Chain 0) (hq : S.store.Stop start)
    (ho : o ∈ S.store.offsets) (hlt : o < start) : t.recordAt o = S.store.recordAt o := by
  have hfits := hq.fits hc ((hq.mem_cut hc (e := 0)).2 ⟨ho, hlt⟩)
  refine Store.recordAt_congr (hc.mem ho).2 (h.chain.mem ((h.early o hlt).2 ho)).2 fun i _ hi => h.word i ?_
  omega

theorem Moves.sameAt_early (h : Moves lags S start t) (hc : S.store.Chain 0) (hq : S.store.Stop start)
    (ho : o ∈ S.store.offsets) (hlt : o < start) : Store.SameAt o S.store t := by
  have hrecord := h.recordAt_early hc hq ho hlt
  obtain ⟨-, hlits, hflags, -⟩ := h.early_same hc hq ho hlt
  exact ⟨congrArg Store.Record.glue hrecord, by rw [hflags], .of_eq hlits⟩

/-- What has become of clauses when some were watched afresh and pins were released. -/
structure Resettled (start : Nat) (s s' : Solver ε) : Prop where
  /-- They are stored where they were. -/
  offsets : s'.store.offsets = s.store.offsets
  /-- They are the same. -/
  same : ∀ o ∈ s.store.offsets, Store.SameAt o s.store s'.store
  /-- Those before the position are untouched. -/
  untouched : ∀ o ∈ s.store.offsets, o < start → (s'.store.recordAt o).unpinned = (s.store.recordAt o).unpinned
  /-- Binary clauses stay. -/
  binary : s'.watches.binaries = s.watches.binaries

/-- Watching the clauses from a position on afresh, and releasing pins. -/
theorem Rewiring.ends_settle (h : s.Rewiring lags (· < start)) (hq : s.store.Stop start) :
    Ends (do
        Solver.rewatch start
        pinReasons false
        modify fun s => { s with recent := s.recent.clear }) s
      (fun _ s' => Resettled start s s') fun _ _ => False := by
  simp only [ends_bind, ends_modify]
  refine (ends_rewatch h hq).imp (fun _ s₁ hs₁ => ?_) fun _ _ hf => hf
  obtain ⟨⟨⟨st₁, w, rfl⟩, hreordered, hothers, hlists, hbinary⟩, hw, -⟩ := hs₁
  refine (ends_pinReasons hw.frame hw.chain hw.grounded).imp (fun _ s₂ hs₂ => ?_) fun _ _ hf => hf
  obtain ⟨st₂, rfl, hp⟩ := hs₂
  have hmem : ∀ o ∈ s.store.offsets, o ∈ st₁.offsets := fun o ho => hreordered.offsets.symm ▸ ho
  refine ⟨hp.offsets.trans hreordered.offsets, fun o ho => ?_, fun o ho hlt => ?_,
    Watches.binaries_congr hlists hbinary⟩
  · exact (hreordered.sameAt ho).trans (hp.sameAt (hmem o ho))
  · have hnot : o ∉ s.store.offsetsFrom start := by
      rw [hq.mem_offsetsFrom h.chain]
      omega
    rw [hp.record o (hmem o ho), hothers o ho hnot]

/-- Every clause is accounted for after the whole, if it is after the sweep. -/
theorem Resettled.accounted {pin : Bool} {target : Nat → Prop} {st : Store} {counters : Counters} {a : Assignment}
    (hp : Store.Repinned pin target s.store st) (hS : Collectable lags { s with counters, store := st, watches := w } start)
    (hpin : ∀ o ∈ st.offsets, (st.flagsAt o).reason = true ↔ IsReason { s with counters, store := st, watches := w } o)
    (hsw : Sweeping lags { s with counters, store := st, watches := w } start st.offsets t x)
    (htally : Tally mode start { s with counters, store := st, watches := w } st.offsets t x.2)
    (hw : w.binaries = s.watches.binaries.filter (s.keepsBinary mode)) (hw' : w'.binaries = x.2.binaries)
    (h : Resettled (unwatchedFrom mode start) { s with counters, store := t, assignment := a, watches := w' } s') :
    Accounted mode start s s' := by
  obtain ⟨hlarge, hbinary⟩ := htally.repinned hp
  have hoffsets : s'.store.offsets = t.offsets := h.offsets
  have hmem : ∀ o ∈ s.store.offsets, o ∈ st.offsets := fun o ho => hp.offsets.symm ▸ ho
  have hearly : ∀ o ∈ s.store.offsets, o < start → o ∈ t.offsets := fun o ho hlt =>
    (hsw.moves.early o hlt).2 (hmem o ho)
  refine ⟨?_, fun o ho hlt => ?_, fun hmode o ho hlt => ?_, fun o ho hs => ?_, ?_, ?_⟩
  · rw [hoffsets]
    exact hsw.moves.chain.nodup
  · have hsweep := hsw.moves.sameAt_early hS.chain hS.stop (hmem o ho) hlt
    exact ((hp.sameAt ho).trans hsweep).trans (h.same o (hearly o ho hlt))
  · subst hmode
    have hrecord := hsw.moves.recordAt_early hS.chain hS.stop (hmem o ho) hlt
    exact (h.untouched o (hearly o ho hlt) hlt).trans ((congrArg Store.Record.unpinned hrecord).trans (hp.record o ho))
  · have hs' : survives mode { s with counters, store := st, watches := w } o = true := by rwa [survives_repinned hp ho]
    obtain ⟨-, htwo⟩ := hS.fits_residue hpin (hmem o ho) hs'
    rwa [residue_repinned hp ho] at htwo
  · obtain ⟨moved, hmoved, hleaves⟩ := hlarge
    refine ⟨moved, hoffsets.trans hmoved, hleaves.imp fun o o' hl => ?_⟩
    exact hl.sameAt (hoffsets.symm ▸ hl.mem) (h.same o' hl.mem)
  · rw [h.binary, hw', ← hw]
    exact hbinary

/-- Every clause is accounted for in a collection. -/
theorem Collectable.ends_accounted (h : s.Collectable lags start) (hw : start ≠ 0 → s.store.Watched s.watches.view)
    (hclean : s.Clean) (mode : CollectMode) :
    Ends (collect start mode) s (fun _ s' => Accounted mode start s s') fun _ _ => False := by
  rw [collect_eq, ends_bind, ends_modify, ends_bind]
  have h₀ : Collectable lags (s.count fun c => { c with collections := c.collections + 1 }) start :=
    { h with frame := { h.frame with } }
  refine (h₀.ends_pin hclean.unpinned).imp (fun _ s₁ hs₁ => ?_) fun _ _ hf => hf
  obtain ⟨st₁, rfl, hp₁, h₁, hpin₁⟩ := hs₁
  have hbin := binaries_unwatch { s.count (fun c => { c with collections := c.collections + 1 }) with store := st₁ }
    start mode
  obtain ⟨w, he, h₂, hon, -, hm⟩ := h₁.unwatch (fun h0 => (hw h0).alike h.chain hp₁.toAlike) mode
  rw [ends_bind, ends_modify]
  rw [he] at h₂ hbin ⊢
  obtain ⟨t, x, hsw, htally, hsweep⟩ := h₂.tally hpin₁ mode
  obtain ⟨a, w', hretag, ha, hr, hl, hview⟩ := retag_eq h₂ hsw hm
  rw [hsw.moves.epoch] at hretag
  have hfrom : unwatchedFrom mode start ≤ start ∧ t.Stop (unwatchedFrom mode start) := by
    cases mode with
    | sparse => exact ⟨Nat.le_refl _, hsw.moves.stop⟩
    | dense => exact ⟨Nat.zero_le _, .inl rfl⟩
  have hsettle := (rewiring_carried h₂ hsw ha hr hview hl hfrom.1 hon).ends_settle hfrom.2
  simp only [ends_bind, ends_modifyGet, ends_modify] at hsettle ⊢
  rw [hsweep]
  simp only [hretag]
  refine hsettle.imp (fun _ s₂ hs₂ => ?_) fun _ _ hf => hf
  refine hs₂.imp (fun _ s₃ hs₃ => ?_) fun _ _ hf => hf
  have hbinaries := Watches.binaries_congr hl (filter_isBinary_carried hview)
  exact hs₃.accounted hp₁ h₂ hpin₁ hsw htally hbin hbinaries

/-! ## Wherever a collection may be made -/

variable {C : Settings} {hooks : Hooks ε} {limits : Limits} {stopped : Bool} {outside : ε}

/-- After propagation came to its end, and as long as nothing was assigned since, a collection may be made.  Whatever
it starts from and in either mode, it succeeds, and every clause is accounted for: none is lost but those that a
collection of the mode is to drop, what is left of the others is there once, and nothing else is added. -/
theorem collect_accounts (h : Reached C hooks limits stopped outside (.quiet, s)) (hstart : s.store.Stop start) :
    ∃ s', collect start mode s = .ok () s' ∧ Accounted mode start s s' := by
  obtain ⟨hinv, hfull⟩ := h.stands
  obtain ⟨⟨⟩, s', he, haccounted⟩ := ((hinv.collectable hfull hstart).ends_accounted (fun _ => hinv.watched)
    hinv.toClean mode).exists_ok
  exact ⟨s', he, haccounted⟩

/-- A literal of two clauses is false at the root.  One clause is left with three literals and stays in the store, and
the other one becomes a binary clause. -/
theorem collect_accounts_shortened : ∃ s s' : Solver Unit, Reached {} {} {} false () (.quiet, s) ∧ s.store.Stop 0 ∧
    collect 0 .sparse s = .ok () s' ∧ Accounted .sparse 0 s s' ∧ s.store.offsets = [0, 8] ∧ s'.store.offsets = [0] ∧
      s'.store.lits 0 = [⟨2⟩, ⟨4⟩, ⟨6⟩] ∧ s'.watches.binaries = [⟨⟨2⟩, ⟨8⟩, false, false⟩] := by
  obtain ⟨s₀, place, s, hload, hrun, htest⟩ := exists_trial (fresh {} {} {} false ())
    [.clause [1, 2, 3, 4], .clause [1, 2, 5], .clause [-1]] 0
    (fun place s => place = .propagated ∧ s.store.offsets = [0, 8] ∧
      ∀ x ∈ result? (collect 0 .sparse) s, x.2.store.offsets = [0] ∧ x.2.store.lits 0 = [⟨2⟩, ⟨4⟩, ⟨6⟩] ∧
        x.2.watches.binaries = [⟨⟨2⟩, ⟨8⟩, false, false⟩]) (by decide +kernel)
  obtain ⟨rfl, hoffsets, hresult⟩ := of_decide_eq_true htest
  have hreached := Run.reached hload hrun
  have hstop : s.store.Stop 0 := .inl rfl
  obtain ⟨s', he, haccounted⟩ := collect_accounts hreached hstop
  have hafter := hresult _ (result?_eq_some.2 he)
  exact ⟨s, s', hreached, hstop, he, haccounted, hoffsets, hafter⟩

end Solver

end ClauseLearning

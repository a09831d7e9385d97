import ClauseLearning.Proofs.Collection
import ClauseLearning.Proofs.Propagation
import ClauseLearning.Proofs.Store.Shrink

/-!
# Simplification keeps the invariant

At the root, what is assigned is fixed.  So a clause that is simplified is left as a trimmed clause, be it in
the store or as a binary clause, or it is satisfied.  The store is not watched rightly while this goes on, but
it is fit to be collected.

* `Assignment.Simplifies` — what is to be done about a clause, and why.
* `Solver.Simplifying` — the store and the watches while clauses are simplified.
* `Solver.ends_simplify` — a simplification.
-/

namespace ClauseLearning

/-! ## What is to be done about a clause -/

namespace Assignment

/-- The literals of a stored clause that are not false. -/
def leftOf (a : Assignment) (c : Store.Record) : List Literal := c.literals.toList.filter fun l => a.value l ≠ .ff

/-- What is to be done about a clause, and why. -/
inductive Simplifies (a : Assignment) (c : Store.Record) : Simplification → Prop where
  /-- It is garbage. -/
  | garbage (hg : c.flags.garbage = true) : a.Simplifies c .unchanged
  /-- It has a true literal. -/
  | satisfied (hg : c.flags.garbage = false) (htrue : (c.literals.toList.any fun l => a.value l = .tt) = true) :
      a.Simplifies c .satisfied
  /-- All its literals are left, or too few. -/
  | same (hg : c.flags.garbage = false) (hnot : (c.literals.toList.any fun l => a.value l = .tt) = false)
      (hleft : (a.leftOf c).length = c.literals.size ∨ (a.leftOf c).length < 2) : a.Simplifies c .unchanged
  /-- Two literals are left. -/
  | binary {x y : Literal} (hg : c.flags.garbage = false)
      (hnot : (c.literals.toList.any fun l => a.value l = .tt) = false) (hleft : a.leftOf c = [x, y]) :
      a.Simplifies c (.binary x y)
  /-- More are left, but not all. -/
  | shrunk {ls : Array Literal} (hg : c.flags.garbage = false)
      (hnot : (c.literals.toList.any fun l => a.value l = .tt) = false) (hleft : ls.toList = a.leftOf c)
      (three : 3 ≤ ls.size) (fewer : ls.size < c.literals.size) : a.Simplifies c (.shrunk ls)

theorem simplifies (a : Assignment) (c : Store.Record) : a.Simplifies c (a.simplification c) := by
  unfold simplification
  split
  · next hg => exact .garbage hg
  · next hg =>
    have hg : c.flags.garbage = false := by simpa using hg
    rw [← Array.any_toList]
    split
    · next htrue => exact .satisfied hg htrue
    · next hnot =>
      have hnot := Bool.eq_false_iff.2 hnot
      have hleft : (c.literals.filter fun l => a.value l ≠ .ff).toList = a.leftOf c := Array.toList_filter
      have hsize : (c.literals.filter fun l => a.value l ≠ .ff).size = (a.leftOf c).length := by
        rw [← hleft, Array.length_toList]
      simp only [Array.getD_eq_getD_getElem?, ← Array.getElem?_toList, hleft, hsize]
      split
      · next hsame => exact .same hg hnot hsame
      · next hfewer =>
        split
        · next h2 =>
          obtain ⟨x, y, hxy⟩ := List.length_eq_two.1 h2
          rw [hxy]
          exact .binary hg hnot hxy
        · next h2 =>
          have hle : (a.leftOf c).length ≤ c.literals.size := List.length_filter_le _ _
          exact .shrunk hg hnot hleft (by omega) (by omega)

end Assignment

namespace Solver

variable {ε : Type} {lags : Prop} {s S : Solver ε} {t t' : Store} {w w' : Watches} {o : Nat}

/-- At the root every value is fixed. -/
theorem Frame.fixed_eq (hf : S.Frame) (h0 : S.trail.level = 0) (l : Literal) :
    S.assignment.fixed l = S.assignment.value l := by
  have hle : ∀ m ∈ S.trail.literals, S.assignment.level m = 0 := fun m hm => by
    have := hf.trail.level_le_of_mem hm
    omega
  cases hv : S.assignment.value l with
  | tt => exact Assignment.fixed_tt.2 ⟨hv, hle l (hf.val_tt.1 hv)⟩
  | ff =>
    refine Assignment.fixed_ff.2 ⟨hv, ?_⟩
    rw [← Assignment.level_negate]
    exact hle (-l) (hf.val_ff.1 hv)
  | unassigned => simp [Assignment.fixed, hv, Value.isAssigned]

/-- The store and the watches while clauses are simplified. -/
structure Simplifying (lags : Prop) (S : Solver ε) (t : Store) (w : Watches) : Prop where
  /-- The epoch is as it was. -/
  epoch : t.epoch = S.store.epoch
  /-- The walk is good. -/
  chain : t.Chain 0
  /-- The clauses are at the same places. -/
  offsets : t.offsets = S.store.offsets
  /-- What is redundant stays so. -/
  redundant : ∀ o ∈ S.store.offsets, (t.flagsAt o).redundant = (S.store.flagsAt o).redundant
  /-- What is pinned stays so. -/
  reason : ∀ o ∈ S.store.offsets, (t.flagsAt o).reason = (S.store.flagsAt o).reason
  /-- A clause that is not garbage was none before, and is left of what it was. -/
  live : ∀ o ∈ S.store.offsets, (t.flagsAt o).garbage = false → (S.store.flagsAt o).garbage = false ∧
    Trims S.assignment (S.store.lits o) (t.lits o)
  /-- Every clause follows from what was known. -/
  known : ∀ v, S.Holds v → ∀ o ∈ S.store.offsets, v.Satisfies (t.lits o)
  /-- The watches, and what has become of irredundant clauses. -/
  gathers : Gathers lags S S.store.offsets t w

/-- Before the first clause. -/
theorem Collectable.simplifying (h : S.Collectable lags 0) : Simplifying lags S S.store S.watches :=
  ⟨rfl, h.chain, rfl, fun _ _ => rfl, fun _ _ => rfl, fun _ _ hg => ⟨hg, .refl _ _⟩,
    fun _ hv o ho => hv.large o ho,
    ⟨rfl, h.paired, fun _ => rfl, fun _ _ hx => hx, fun _ _ _ _ hx => .inl hx,
      fun o ho hr hg => .inr (.inl ⟨o, ho, .refl _ _, hr, hg⟩)⟩⟩

namespace Simplifying

/-- One clause is replaced. -/
theorem replace (h : Simplifying lags S t w) (hg : Gathers lags S S.store.offsets t w')
    (hr : Store.Replaced o t t') (ho : o ∈ S.store.offsets)
    (hlive : (t'.flagsAt o).garbage = false →
      (t.flagsAt o).garbage = false ∧ Trims S.assignment (t.lits o) (t'.lits o))
    (hknown : ∀ v, S.Holds v → v.Satisfies (t.lits o) → v.Satisfies (t'.lits o))
    (hspared : ∀ o' ∈ S.store.offsets, (S.store.flagsAt o').redundant = false →
      (t.flagsAt o).redundant = false → (t.flagsAt o).garbage = false →
      Trims S.assignment (S.store.lits o') (t.lits o) → S.Spared o' t' w') :
    Simplifying lags S t' w' := by
  have hoff : ∀ {o'}, o' ∈ S.store.offsets → o' ∈ t.offsets := fun ho' => h.offsets.symm ▸ ho'
  refine ⟨hr.epoch.trans h.epoch, hr.chain, hr.offsets.trans h.offsets,
    fun o' ho' => (hr.redundant o' (hoff ho')).trans (h.redundant o' ho'),
    fun o' ho' => (hr.reason o' (hoff ho')).trans (h.reason o' ho'), fun o' ho' hg' => ?_,
    fun v hv o' ho' => ?_, { hg with spared := fun o' ho' hred hgar => ?_ }⟩
  · by_cases hne : o' = o
    · subst hne
      obtain ⟨h1, h2⟩ := hlive hg'
      obtain ⟨h3, h4⟩ := h.live o' ho' h1
      exact ⟨h3, h4.trans h2⟩
    · rw [hr.garbage o' (hoff ho') hne] at hg'
      rw [hr.lits o' (hoff ho') hne]
      exact h.live o' ho' hg'
  · by_cases hne : o' = o
    · subst hne
      exact hknown v hv (h.known v hv o' ho')
    · rw [hr.lits o' (hoff ho') hne]
      exact h.known v hv o' ho'
  · rcases hg.spared o' ho' hred hgar with hs | ⟨o₁, ho₁, ht, hr₁, hg₁⟩ | hb
    · exact .inl hs
    · by_cases hne : o₁ = o
      · subst hne
        exact hspared o' ho' hred hr₁ hg₁ ht
      · refine .inr (.inl ⟨o₁, hr.offsets.symm ▸ ho₁, ?_, ?_, ?_⟩)
        · rwa [hr.lits o₁ ho₁ hne]
        · rwa [hr.redundant o₁ ho₁]
        · rwa [hr.garbage o₁ ho₁ hne]
    · exact .inr (.inr hb)

section Steps

variable (hS : S.Collectable lags 0) (h : Simplifying lags S t w) (ho : o ∈ S.store.offsets)
include h ho

/-- A satisfied clause becomes garbage. -/
theorem trash (hr : Store.Trashed o t t') (hl : ∃ l ∈ t.lits o, S.assignment.fixed l = .tt) :
    Simplifying lags S t' w := by
  have hot : o ∈ t.offsets := h.offsets.symm ▸ ho
  refine h.replace h.gathers hr.replaced ho (fun hg => ?_) (fun v hv hsat => ?_) fun o' _ _ _ _ ht => ?_
  · obtain ⟨used, hf⟩ := hr.flags o hot
    rw [hf] at hg
    simp at hg
  · rwa [hr.lits o hot]
  · obtain ⟨l, hl, hfix⟩ := hl
    exact .inl ⟨l, ht.mem hl, hfix⟩

include hS

/-- A clause that is left with two literals becomes a binary clause. -/
theorem binary {t₁ : Store} {x y : Literal} (hg : (t.flagsAt o).garbage = false)
    (ht : Trims S.assignment (t.lits o) [x, y]) (hw : Store.Overwritten o [x, y] t t₁)
    (hr : Store.Trashed o t₁ t') :
    Simplifying lags S t' (w.addBinary x y (t.flagsAt o).redundant false) := by
  have hot : o ∈ t.offsets := h.offsets.symm ▸ ho
  obtain ⟨hg', htr⟩ := h.live o ho hg
  have htr' := htr.trans ht
  obtain ⟨hgather, -, hmem⟩ := h.gathers.addBinary hS.frame (t.flagsAt o).redundant
    (by rw [h.redundant o ho]; exact htr'.fits (hS.fits o ho (.inl hg'))) ho htr'
  have hr₁ := hw.replaced h.chain hot
  have hot₁ : o ∈ t₁.offsets := hr₁.offsets.symm ▸ hot
  refine h.replace hgather (hr₁.trans hr.replaced) ho (fun hgar => ?_) (fun v hv hsat => ?_)
    fun o' _ _ hred _ ht' => ?_
  · obtain ⟨used, hf⟩ := hr.flags o hot₁
    rw [hf] at hgar
    simp at hgar
  · obtain ⟨l, hl, hm⟩ := (ht.satisfies (hS.frame.makesTrue_of_fixed hv.root)).2 hsat
    refine ⟨l, ?_, hm⟩
    rw [hr.lits o hot₁, hw.lits]
    exact List.mem_append_left _ hl
  · rw [hred] at hmem ⊢
    exact .inr (.inr ⟨x, y, false, hmem, ht'.trans ht⟩)

/-- A clause is cut to what is left of it. -/
theorem cut {t₁ : Store} {ls : List Literal} (hg : (t.flagsAt o).garbage = false)
    (ht : Trims S.assignment (t.lits o) ls) (hw : Store.Overwritten o ls t t₁)
    (hr : Store.Shortened o ls.length t₁ t') : Simplifying lags S t' w := by
  have hot : o ∈ t.offsets := h.offsets.symm ▸ ho
  have hr₁ := hw.replaced h.chain hot
  have hot₁ : o ∈ t₁.offsets := hr₁.offsets.symm ▸ hot
  have hrep := hr₁.trans hr.replaced
  have hlits : t'.lits o = ls := by rw [hr.lits, hw.lits, List.take_left]
  obtain ⟨used, shrunken, hf⟩ := hr.flags o hot₁
  rw [hw.flags] at hf
  refine h.replace h.gathers hrep ho (fun _ => ⟨hg, by rwa [hlits]⟩) (fun v hv hsat => ?_)
    fun o' _ _ hred _ ht' => ?_
  · rw [hlits]
    exact (ht.satisfies (hS.frame.makesTrue_of_fixed hv.root)).2 hsat
  · refine .inr (.inl ⟨o, hrep.offsets.symm ▸ hot, ?_, ?_, ?_⟩)
    · rw [hlits]
      exact ht'.trans ht
    · rw [hf]
      exact hred
    · rw [hf]
      exact hg

end Steps

/-! ## After all clauses -/

/-- The store is fit to be collected. -/
theorem collectable (h : Simplifying lags S t w) (hS : S.Collectable lags 0) (h0 : S.trail.level = 0) :
    Collectable lags { S with store := t, watches := w } 0 where
  frame := { hS.frame with lists := h.gathers.lists.trans hS.frame.lists }
  full := hS.full
  chain := h.chain
  stop := .inl rfl
  paired := h.gathers.paired
  binary l m r y hm := by
    rcases h.gathers.binaries l m r y hm with hm | ⟨hf, -⟩
    · exact hS.binary l m r y hm
    · exact hf.watchable.guard_pair hS.frame.trail hS.frame.sized
  grounded i hi := by
    -- no clause of the store is the reason of a root literal
    refine (hS.grounded i hi).imp fun r rest hr _ _ => ?_
    have hunit := hS.frame.trail.reason_unit hS.grounded h0 (Trail.at'_mem hi)
    exact Reason.noConfusion (hunit.symm.trans hr)
  fits o ho hd := by
    have ho' : o ∈ S.store.offsets := h.offsets ▸ ho
    obtain ⟨hg, ht⟩ := h.live o ho' (hd.resolve_right fun hn => hn h0)
    simp only
    rw [h.redundant o ho']
    exact ht.fits (hS.fits o ho' (.inl hg))
  reasons l hl o hr := by
    obtain ⟨r, y, hm⟩ := hS.reasons l hl o hr
    exact ⟨r, y, h.gathers.more l _ hm⟩
  early o _ hlt := absurd hlt (Nat.not_lt_zero o)
  large r _ _ _ _ _ _ _ _ hlt := absurd hlt (Nat.not_lt_zero r.offset)

/-- What is known. -/
theorem refines (h : Simplifying lags S t w) (hS : S.Collectable lags 0) :
    Refines S { S with store := t, watches := w } := by
  have hf := hS.frame
  refine ⟨rfl, rfl, rfl, rfl, rfl, rfl, rfl, id, fun v hv => ?_, fun v hv => ?_⟩
  · exact
      { hv with
        large := fun o ho => h.known v hv o (h.offsets ▸ ho)
        binary := fun l m r y hm => h.gathers.satisfies hf hv hm }
  · exact h.gathers.base hf hv.root hv.large hv.binary

end Simplifying

/-! ## One clause -/

section One

variable (hS : S.Collectable lags 0) (h0 : S.trail.level = 0)
include hS h0

omit h0 hS in
/-- What is left of a clause has room where the clause is. -/
theorem Simplifying.overwritten {r : Reference} (h : Simplifying lags S t w) (hr : t.Current r) :
    Store.Overwritten r.offset (S.assignment.leftOf (t.recordAt r.offset)) t
        (t.setLiteralsAt r.offset 0 (S.assignment.leftOf (t.recordAt r.offset))) ∧
      (t.setLiteralsAt r.offset 0 (S.assignment.leftOf (t.recordAt r.offset))).Current r := by
  have hlits : (t.recordAt r.offset).literals.toList = t.lits r.offset :=
    Store.literalsAt_toList (h.chain.mem hr.2).2.fits
  have hle : (S.assignment.leftOf (t.recordAt r.offset)).length ≤ t.sizeAt r.offset := by
    rw [Assignment.leftOf, hlits, ← Store.length_lits]
    exact List.length_filter_le _ _
  have hw := Store.overwritten_setLiteralsAt h.chain hr.2 hle
  exact ⟨hw, hr.1.trans hw.epoch.symm, (hw.offsets h.chain hr.2).symm ▸ hr.2⟩

/-- Simplifying one clause meets no fault. -/
theorem Simplifying.ends_simplifyOne {r : Reference} (h : Simplifying lags S t w)
    (hr : S.store.Current r) :
    Ends (simplifyOne r) { S with store := t, watches := w }
      (fun _ s' => ∃ t' w', s' = { S with store := t', watches := w' } ∧ Simplifying lags S t' w')
      fun _ _ => False := by
  have ho := hr.2
  have hot : r.offset ∈ t.offsets := h.offsets.symm ▸ ho
  have hcur : t.Current r := ⟨hr.1.trans h.epoch.symm, hot⟩
  have hat := (h.chain.mem hot).2
  have hlits : (t.recordAt r.offset).literals.toList = t.lits r.offset := Store.literalsAt_toList hat.fits
  have hfix := hS.frame.fixed_eq h0
  have hleft : S.assignment.leftOf (t.recordAt r.offset) =
      (t.lits r.offset).filter fun l => S.assignment.fixed l ≠ .ff := by
    rw [Assignment.leftOf, hlits, funext hfix]
  have htrims : Trims S.assignment (t.lits r.offset) (S.assignment.leftOf (t.recordAt r.offset)) :=
    hleft ▸ .filter _ _
  obtain ⟨hw, hcur₁⟩ := h.overwritten hcur
  unfold simplifyOne
  simp only [ends_bind, ends_get, ends_ofExcept, Store.record?_of_current h.chain hcur]
  refine ⟨fun c hc => ?_, fun e he => by simp at he⟩
  obtain rfl := Except.ok.inj hc
  have haction := S.assignment.simplifies (t.recordAt r.offset)
  generalize S.assignment.simplification (t.recordAt r.offset) = action at haction ⊢
  cases haction with
  | garbage => exact ⟨t, w, rfl, h⟩
  | same => exact ⟨t, w, rfl, h⟩
  | satisfied hg htrue =>
    rw [hlits, List.any_eq_true] at htrue
    obtain ⟨l, hl, hv⟩ := htrue
    simp only [ends_bind, ends_onStore, ends_pure]
    refine (Store.ends_markGarbage h.chain hcur).imp (fun _ t' ht' => ?_) fun _ _ hf => hf
    exact ⟨t', w, rfl, h.trash ho ht' ⟨l, hl, (hfix l).trans (by simpa using hv)⟩⟩
  | @binary x y hg hnot hxy =>
    rw [hxy] at htrims hw hcur₁
    simp only [ends_bind, ends_modify, ends_onStore, ends_pure]
    refine (Store.ends_markGarbage (hw.chain h.chain hot) hcur₁).imp (fun _ t' ht' => ?_) fun _ _ hf => hf
    exact ⟨t', _, rfl, h.binary hS ho hg htrims hw ht'⟩
  | @shrunk ls hg hnot hls three fewer =>
    rw [← hls] at htrims hw hcur₁
    have hfit := ((h.live r.offset ho hg).2.trans htrims).fits (hS.fits r.offset ho (.inl (h.live r.offset ho hg).1))
    have hlen := hS.frame.length_lt_padding hfit.nodup hfit.usable
    rw [Array.length_toList] at hlen
    simp only [ends_bind, ends_modify, ends_onStore]
    refine (Store.ends_shrink (hw.chain h.chain hot) hcur₁ (by omega) (Nat.ne_of_lt hlen)).imp
      (fun _ t' ht' => ?_) fun _ _ hf => hf
    exact ⟨t', w, rfl, h.cut hS ho hg htrims hw (Array.length_toList ▸ ht')⟩

/-- Simplifying clauses one after another meets no fault. -/
theorem Simplifying.ends_simplifyAll {rs : List Reference} (h : Simplifying lags S t w)
    (hr : ∀ r ∈ rs, S.store.Current r) :
    Ends (simplifyAll rs) { S with store := t, watches := w }
      (fun _ s' => ∃ t' w', s' = { S with store := t', watches := w' } ∧ Simplifying lags S t' w')
      fun _ _ => False := by
  induction rs generalizing t w with
  | nil => exact ⟨t, w, rfl, h⟩
  | cons r rs ih =>
    rw [simplifyAll, ends_bind]
    refine (h.ends_simplifyOne hS h0 (hr r (List.mem_cons_self ..))).imp (fun _ s₁ h₁ => ?_)
      fun _ _ hf => hf
    obtain ⟨t', w', rfl, h'⟩ := h₁
    exact ih h' fun r' hr' => hr r' (List.mem_cons_of_mem _ hr')

/-- Simplifying every clause, and the collection after it. -/
theorem Collectable.ends_simplifyAll (hc : S.Clean) (hstored : S.derived = #[]) :
    Ends (do
        simplifyAll (← get).store.references
        collect 0 .sparse) S (fun _ s' => Collected lags S s') fun _ _ => False := by
  have h := hS.simplifying
  simp only [ends_bind, ends_get]
  refine (h.ends_simplifyAll hS h0 fun r hr => Store.mem_references.1 hr).imp (fun _ s₁ h₁ => ?_)
    fun _ _ hf => hf
  obtain ⟨t, w, rfl, h₁⟩ := h₁
  have hclean : Clean { S with store := t, watches := w } :=
    ⟨hc.marks, hc.records, fun o ho => by
      have ho' : o ∈ S.store.offsets := h₁.offsets ▸ ho
      rw [h₁.reason o ho']
      exact hc.unpinned o ho'⟩
  refine (ends_collect (h₁.collectable hS h0) (fun hn => absurd rfl hn) hclean hstored).imp
    (fun _ s' hs' => ?_) fun _ _ hf => hf
  refine hs'.of_refines (h₁.refines hS) ⟨S.counters, t, w, rfl⟩ (fun l hl r hr => ?_) h₁.epoch
  -- no clause is a reason at the root
  exact Reason.noConfusion ((hS.frame.trail.reason_unit hS.grounded h0 hl).symm.trans hr)

end One

/-- A simplification at the root, where everything was propagated. -/
theorem ends_simplify (h : s.Inv lags s.trail.size) (hfull : s.trail.propagated = s.trail.size)
    (h0 : s.trail.level = 0) (hi : s.inconsistent = false) :
    Ends simplify s (fun _ s' => Trimmed lags s s') fun _ _ => False := by
  have hroot : propagateRoot s = .ok true s := by
    simp only [propagateRoot, propagate_full hfull]
  unfold simplify
  simp only [ends_bind, ends_get, ends_ite, ends_throw, ends_pure, hi, Bool.false_eq_true, ends_of_ok hroot]
  refine ⟨fun hn => hn h0, fun _ => ⟨False.elim, fun _ => ⟨fun _ => ?_, fun hb => absurd trivial hb⟩⟩⟩
  -- what is counted and noted before the clauses are gone through
  have haside : Aside { s with iterating := false }
      { s with
        counters.simplifications := s.counters.simplifications + 1
        iterating := false } := ⟨_, _, _, _, _, _, _, _, rfl⟩
  have hinv : Inv lags { s with iterating := false } s.trail.size :=
    { h with
      toFrame := { h.toFrame with iterating := fun hi => by simp at hi }
      toWired := { h.toWired with }
      toClean := { h.toClean with } }
  have href : Refines s { s with iterating := false } :=
    { Refines.refl s with
      holds := fun v hv => { hv with }
      base := fun v hv => { hv with } }
  have hinv₁ := haside.inv hinv
  have hrun := (hinv₁.collectable hfull (.inl rfl)).ends_simplifyAll h0 hinv₁.toClean hinv₁.stored
  simp only [ends_bind, ends_get, ends_modify] at hrun ⊢
  refine hrun.imp (fun _ s₃ h₃ => h₃.imp (fun _ s₄ h₄ => ?_) fun _ _ hf => hf) fun _ _ hf => hf
  obtain ⟨c, st, w, a, q, rfl⟩ := h₄.eq
  have haside₄ : Aside _ { ({ s with
      counters := c, store := st, watches := w, assignment := a, recent := q, iterating := false } :
        Solver ε) with unflushed := 0 } := ⟨_, _, _, _, _, _, _, _, rfl⟩
  exact ⟨haside₄.inv h₄.inv,
    (href.trans haside.refines).trans (h₄.refines.trans haside₄.refines), rfl, rfl, rfl⟩

end Solver

end ClauseLearning

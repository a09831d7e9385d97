import ClauseLearning.Proofs.Reachability
import ClauseLearning.Proofs.Trial
import Mathlib.Algebra.Group.Nat.Defs

/-!
# References across a collection

A collection moves clauses, drops some, and makes binary clauses of others.  Whatever it does to a clause which is a
reason, that clause stays, but for literals that are false at the root, and remains the reason.  What else refers to
stored clauses is brought up to date or emptied, and references from before the collection are refused.

* `Solver.Upholds` — a clause is the reason of a literal.
* `Solver.Relocated` — what is so after a collection.
* `Solver.collect_relocates` — so it is, wherever one may be made, whatever it starts from and in either mode.
-/

namespace ClauseLearning

/-- A reference from another epoch is refused, whatever is asked. -/
theorem Store.refuses {s : Store} {r : Reference} (h : r.epoch ≠ s.epoch) :
    s.size? r = .error .staleReference ∧ s.record? r = .error .staleReference ∧
      s.literals? r = .error .staleReference ∧ locate r s = .error .staleReference s := by
  have hsize : s.size? r = .error .staleReference := by
    rw [size?, if_pos h]
  refine ⟨hsize, ?_, ?_, ?_⟩
  · rw [record?, hsize]
    rfl
  · rw [literals?, hsize]
    rfl
  · simp only [locate, hsize]

namespace Solver

variable {ε : Type} {s s' : Solver ε} {start : Nat} {mode : CollectMode} {l : Literal} {x : Moment × Solver ε}

/-- A clause is stored or watched as a binary one, and is the reason of a literal.  Its other literals are false. -/
def Upholds (s : Solver ε) (l : Literal) (c : List Literal) : Prop :=
  ∃ rest, c = l :: rest ∧ (∀ m ∈ rest, s.val m = .ff) ∧
    match s.assignment.reason l with
    | .large r => s.store.Current r ∧ s.store.lits r.offset = c
    | .binary o => rest = [o] ∧ ∃ redundant hyper, .binary o redundant hyper ∈ s.watches.view l
    | _ => False

/-- What is so of references after a collection. -/
structure Relocated (s s' : Solver ε) : Prop where
  /-- The trail stays. -/
  trail : s'.trail = s.trail
  /-- No value has changed. -/
  val : s'.val = s.val
  /-- A stored clause which was a reason is one, but for literals that are false at the root. -/
  large : ∀ l ∈ s.trail.literals, ∀ r, s.assignment.reason l = .large r →
    ∃ c, Trims s.assignment (s.store.lits r.offset) c ∧ s'.Upholds l c
  /-- A binary clause which was a reason is one. -/
  binary : ∀ l ∈ s.trail.literals, ∀ o, s.assignment.reason l = .binary o →
    s'.assignment.reason l = .binary o ∧ s'.Upholds l [l, o]
  /-- Watches are on stored clauses. -/
  watches : ∀ l b r, .large b r ∈ s'.watches.view l → s'.store.Current r
  /-- No clause is pinned. -/
  unpinned : ∀ o ∈ s'.store.offsets, (s'.store.flagsAt o).reason = false
  /-- Recent clauses are forgotten. -/
  forgotten : s'.recent.toList = []

/-- A stored clause which is a reason is the reason of its first literal. -/
theorem Inv.upholds_large {lags : Prop} {p : Nat} (h : s.Inv lags p) (hl : l ∈ s.trail.literals) {r : Reference}
    (hr : s.assignment.reason l = .large r) : s.Upholds l (s.store.lits r.offset) := by
  obtain ⟨i, hi, rfl⟩ := Trail.exists_at' hl
  obtain ⟨-, hcur, rest, hlits, hrest⟩ := (h.grounded i hi).large hr
  refine ⟨rest, hlits, fun m hm => (h.trail.ff_iff h.sized).2 (Trail.mem_of_mem_upTo (hrest m hm)), ?_⟩
  rw [hr]
  exact ⟨hcur, rfl⟩

theorem Inv.upholds_binary {lags : Prop} {p : Nat} (h : s.Inv lags p) (hl : l ∈ s.trail.literals) {o : Literal}
    (hr : s.assignment.reason l = .binary o) : s.Upholds l [l, o] := by
  obtain ⟨r, y, hm⟩ := h.exists_reason hl hr
  obtain ⟨i, hi, rfl⟩ := Trail.exists_at' hl
  obtain ⟨-, hfallen, -⟩ := (h.grounded i hi).binary hr
  refine ⟨[o], rfl, fun m hmem => ?_, ?_⟩
  · obtain rfl := List.mem_singleton.1 hmem
    exact (h.trail.ff_iff h.sized).2 (Trail.mem_of_mem_upTo hfallen)
  · rw [hr]
    exact ⟨rfl, r, y, hm⟩

theorem Collected.relocated {lags : Prop} (h : Collected lags s s') (hf : s.Frame) : Relocated s s' := by
  have htrail := h.trimmed.trail
  have hmem : ∀ l, l ∈ s'.trail.literals ↔ l ∈ s.trail.literals := fun l => by rw [htrail]
  refine ⟨htrail, ?_, fun l hl r hr => ?_, fun l hl o hr => ?_, fun l b r hm => h.inv.watched.current hm,
    h.inv.unpinned, h.forgotten⟩
  · funext l
    have htt : s'.val l = .tt ↔ s.val l = .tt := by
      rw [val, val, h.inv.trail.tt_iff, hf.trail.tt_iff, hmem]
    have hff : s'.val l = .ff ↔ s.val l = .ff := by
      rw [val, val, h.inv.trail.ff_iff h.inv.sized, hf.trail.ff_iff hf.sized, hmem]
    cases hv : s.val l <;> cases hv' : s'.val l <;> simp [hv, hv'] at htt hff ⊢
  · have hremains := h.remains l hl r hr
    cases hr' : s'.assignment.reason l with
    | large r' =>
      rw [hr'] at hremains
      exact ⟨_, hremains.2, h.inv.upholds_large ((hmem l).2 hl) hr'⟩
    | binary o =>
      rw [hr'] at hremains
      exact ⟨_, hremains, h.inv.upholds_binary ((hmem l).2 hl) hr'⟩
    | decision | unit =>
      rw [hr'] at hremains
      exact hremains.elim
  · have hr' : s'.assignment.reason l = .binary o :=
      (h.others l hl fun r he => by rw [hr] at he; cases he).trans hr
    exact ⟨hr', h.inv.upholds_binary ((hmem l).2 hl) hr'⟩

/-- As many epochs began as collections were made, or fewer. -/
theorem epoch_ne_of_collected {lags : Prop} (hx : Relation.ReflTransGen Move x (.quiet, s))
    (h : Collected lags s s') (hs : Lasting s s') (hfew : s'.counters.collections < 2 ^ 32) :
    x.2.store.epoch ≠ s'.store.epoch := by
  obtain ⟨⟨n, he, hn⟩, -⟩ := Reached.lasting hx
  obtain ⟨⟨m, hm, hcount⟩, -⟩ := hs
  have hpos : m ≠ 0 := by
    rintro rfl
    exact Store.nextEpoch_ne _ (h.epoch.symm.trans hm)
  simp only at he hn
  rw [h.epoch, he, ← Function.iterate_succ_apply' Store.nextEpoch]
  refine (Store.iterate_nextEpoch_ne _ (Nat.succ_ne_zero n) ?_).symm
  unfold greatestWord
  omega

variable {C : Settings} {hooks : Hooks ε} {limits : Limits} {stopped : Bool} {outside : ε}

/-- After propagation came to its end, and as long as nothing was assigned since, a collection may be made.  Whatever
it starts from and in either mode, it succeeds, and every reason remains one.  References to what was stored at any
time before are refused, if less than 2³² collections were made. -/
theorem collect_relocates (h : Reached C hooks limits stopped outside (.quiet, s)) (hstart : s.store.Stop start) :
    ∃ s', collect start mode s = .ok () s' ∧ Relocated s s' ∧ (s'.counters.collections < 2 ^ 32 →
      ∀ x r, Relation.ReflTransGen Move x (.quiet, s) → x.2.store.Current r →
        s'.store.size? r = .error .staleReference ∧ s'.store.record? r = .error .staleReference ∧
          s'.store.literals? r = .error .staleReference ∧
          Store.locate r s'.store = .error .staleReference s'.store) := by
  obtain ⟨hinv, hfull⟩ := h.stands
  obtain ⟨⟨⟩, s', he, hc⟩ := (ends_collect (hinv.collectable hfull hstart) (fun _ => hinv.watched) hinv.toClean
    hinv.stored).exists_ok
  have hlasting : Lasting s s' := (lasting_still (still_collect start mode)).of_ok he
  refine ⟨s', he, hc.relocated hinv.toFrame, fun hfew x r hx hr => Store.refuses ?_⟩
  rw [hr.1]
  exact epoch_ne_of_collected hx hc hlasting hfew

/-- A clause on three variables, two of which were decided.  It survives a collection as the reason of the third one,
and the reference to it from before is refused. -/
theorem collect_relocates_reason : ∃ s s' : Solver Unit, Reached {} {} {} false () (.quiet, s) ∧ s.store.Stop 0 ∧
    collect 0 .sparse s = .ok () s' ∧ Relocated s s' ∧ ⟨0⟩ ∈ s.trail.literals ∧
      s.assignment.reason ⟨0⟩ = .large ⟨0, 0⟩ ∧ s'.store.size? ⟨0, 0⟩ = .error .staleReference := by
  obtain ⟨s₀, place, s, hload, hrun, htest⟩ := exists_trial (fresh {} {} {} false ()) [.clause [1, -2, -3]] 2
    (fun place s => place = .propagated ∧ ⟨0⟩ ∈ s.trail.literals ∧ s.assignment.reason ⟨0⟩ = .large ⟨0, 0⟩ ∧
      ⟨0, 0⟩ ∈ s.store.references ∧
      ∀ x ∈ result? (collect 0 .sparse) s, x.2.counters.collections < 2 ^ 32) (by decide +kernel)
  obtain ⟨rfl, hmem, hreason, hcur, hfew⟩ := of_decide_eq_true htest
  have hreached := Run.reached hload hrun
  have hstop : s.store.Stop 0 := .inl rfl
  obtain ⟨s', he, hrel, hstale⟩ := collect_relocates hreached hstop
  have hcount := hfew _ (result?_eq_some.2 he)
  exact ⟨s, s', hreached, hstop, he, hrel, hmem, hreason,
    (hstale hcount _ _ .refl (Store.mem_references.1 hcur)).1⟩

end Solver

end ClauseLearning

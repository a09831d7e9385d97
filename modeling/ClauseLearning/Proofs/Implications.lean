import ClauseLearning.Proofs.Reachability
import ClauseLearning.Proofs.Trial

/-!
# The implication graph

Each literal of the trail is a unit, a decision, or follows from literals before it by a clause.  As the literals that
it follows from stand before it, the graph of these has no cycle.

* `Solver.Implications` — the graph is sound.
* `Solver.implications_sound` — so it is in every reachable state, whatever became of the clauses meanwhile.
-/

namespace ClauseLearning

namespace Solver

variable {ε : Type} {s : Solver ε} {moment : Moment}

/-- Every literal of the trail has a reason which fits to what stands before it. -/
structure Implications (s : Solver ε) : Prop where
  /-- At the root a literal is a unit. -/
  root : ∀ i < s.trail.size, s.assignment.level (s.trail.at' i) = 0 → s.assignment.reason (s.trail.at' i) = .unit
  /-- The first literal of any other level is the decision of that level. -/
  decision : ∀ k, 1 ≤ k → k ≤ s.trail.level → s.trail.levelStart k < s.trail.size ∧
    s.trail.at' (s.trail.levelStart k) = s.trail.decision k ∧ s.assignment.level (s.trail.decision k) = k ∧
    s.assignment.reason (s.trail.decision k) = .decision ∧
    ∀ i < s.trail.levelStart k, s.assignment.level (s.trail.at' i) < k
  /-- No other literal was decided. -/
  only : ∀ i < s.trail.size, s.assignment.reason (s.trail.at' i) = .decision →
    ∃ k, 1 ≤ k ∧ k ≤ s.trail.level ∧ s.trail.levelStart k = i
  /-- The other literal of a binary clause which is a reason became false before. -/
  binary : ∀ i < s.trail.size, ∀ o, s.assignment.reason (s.trail.at' i) = .binary o →
    s.val o = .ff ∧ ∃ j < i, s.trail.at' j = -o
  /-- A stored clause which is a reason is there, and its first literal is the one that it is the reason of.  The others
  became false before. -/
  large : ∀ i < s.trail.size, ∀ r, s.assignment.reason (s.trail.at' i) = .large r → s.store.Current r ∧
    ∃ rest, s.store.lits r.offset = s.trail.at' i :: rest ∧ ∀ m ∈ rest, s.val m = .ff ∧ ∃ j < i, s.trail.at' j = -m

/-- What stands on the trail before a position, negated, was false before. -/
theorem Frame.fallen (h : s.Frame) {i : Nat} {m : Literal} (hm : -m ∈ s.trail.upTo i) :
    s.val m = .ff ∧ ∃ j < i, s.trail.at' j = -m := by
  obtain ⟨j, hj, -, hat⟩ := Trail.mem_upTo.1 hm
  exact ⟨(h.trail.ff_iff h.sized).2 (Trail.mem_of_mem_upTo hm), j, hj, hat⟩

theorem Inv.implications {lags : Prop} {p : Nat} (h : s.Inv lags p) : s.Implications where
  root i hi h0 := (h.grounded i hi).unit_of_root h0
  decision k hk hk' := by
    obtain ⟨hlt, hat, hlev⟩ := h.trail.decision k hk hk'
    refine ⟨hlt, hat, hlev, ?_, fun i hi => ?_⟩
    · -- what is no decision stands behind the first literal of its level
      by_contra hr
      have hforced := (h.grounded _ hlt).forced (by rw [hat, hlev]; exact hk) (by rw [hat]; exact hr)
      have hbehind := hforced.2
      rw [hat, hlev] at hbehind
      exact Nat.lt_irrefl _ hbehind
    · by_contra hge
      have := (h.trail.level_iff i (Nat.lt_trans hi hlt) k (Nat.le_succ_of_le hk')).2 (Nat.le_of_not_lt hge)
      omega
  only i hi hr := by
    obtain ⟨h1, hstart⟩ := (h.grounded i hi).decision hr
    exact ⟨_, h1, h.trail.level_le hi, hstart⟩
  binary i hi o hr := h.toFrame.fallen ((h.grounded i hi).binary hr).2.1
  large i hi r hr := by
    obtain ⟨-, hcur, rest, hlits, hrest⟩ := (h.grounded i hi).large hr
    exact ⟨hcur, rest, hlits, fun m hm => h.toFrame.fallen (hrest m hm)⟩

variable {C : Settings} {hooks : Hooks ε} {limits : Limits} {stopped : Bool} {outside : ε}

/-- In every reachable state the implication graph is sound.  So it is wherever a run comes to (`Run.reached`), and
after every call that is made on the way. -/
theorem implications_sound (h : Reached C hooks limits stopped outside (moment, s)) : s.Implications :=
  let ⟨_, hp⟩ := h.stands.intact
  hp.implications

/-- Four clauses on five variables.  Once 6 and 5 are decided, 3 follows by a binary clause, and 2 by a stored one. -/
theorem implications_sound_conflict : ∃ (moment : Moment) (s : Solver Unit),
    Reached {} {} {} false () (moment, s) ∧
      (∃ l ∈ s.trail.literals, s.assignment.reason l = .binary ⟨11⟩) ∧
      (∃ l ∈ s.trail.literals, s.assignment.reason l = .large ⟨0, 0⟩) ∧ s.Implications := by
  obtain ⟨s₀, place, s, hload, hrun, htest⟩ := exists_trial (fresh {} {} {} false ())
    [.clause [-1, 6], .clause [-6, -5, 2], .clause [-6, 3], .clause [-2, -3, -5]] 2
    (fun _ s => (∃ l ∈ s.trail.literals, s.assignment.reason l = .binary ⟨11⟩) ∧
      ∃ l ∈ s.trail.literals, s.assignment.reason l = .large ⟨0, 0⟩) (by decide +kernel)
  obtain ⟨hbinary, hlarge⟩ := of_decide_eq_true htest
  have hreached := Run.reached hload hrun
  exact ⟨_, s, hreached, hbinary, hlarge, implications_sound hreached⟩

end Solver

end ClauseLearning

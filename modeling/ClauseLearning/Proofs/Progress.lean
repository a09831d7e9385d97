import ClauseLearning.Proofs.Keeping
import ClauseLearning.Proofs.Run
import Mathlib.Algebra.Group.Nat.Defs

/-!
# Progress

A search may take literals from the trail, but then there is one more on a lower level.  So it goes on in the
lexicographic order of how many literals there are on each level, where lower levels come first.  These counts are
read as the digits of one number, which is bounded.

* `Trail.weight` — the number.
* `Trail.weight_le_weight`, `Trail.weight_lt_weight` — how trails compare.
* `Solver.lack` — how much is left up to the bound.
* `Forward.lack_le`, `Frame.lack_pushDecision`, `Jumped.lack_lt` — propagation takes nothing back, and a decision and
  a learnt clause make progress.
-/

namespace ClauseLearning

namespace Trail

variable {t t' : Trail} {n m j k : Nat}

/-- The counts of literals up to each of the first `m` levels, read as the digits of a number.  The first digit is
that of the root. -/
def weight (t : Trail) (n : Nat) : Nat → Nat
  | 0 => 0
  | k + 1 => t.weight n k * (n + 1) + t.levelStart (k + 1)

/-- Where up to each level there are as many literals or more, the number is not less. -/
theorem weight_le_weight (h : ∀ k < m, t.levelStart (k + 1) ≤ t'.levelStart (k + 1)) :
    t.weight n m ≤ t'.weight n m := by
  induction m with
  | zero => exact Nat.le_refl _
  | succ m ih =>
    have hrest := ih fun k hk => h k (Nat.lt_succ_of_lt hk)
    exact Nat.add_le_add (Nat.mul_le_mul_right _ hrest) (h m (Nat.lt_succ_self m))

/-- Where there are more literals up to some level, and as many up to each level below, the number is greater. -/
theorem weight_lt_weight (hj : j < m) (h : ∀ k < j, t.levelStart (k + 1) ≤ t'.levelStart (k + 1))
    (hlt : t.levelStart (j + 1) < t'.levelStart (j + 1)) (hn : ∀ k, t.levelStart k ≤ n) :
    t.weight n m < t'.weight n m := by
  induction m with
  | zero => exact absurd hj (Nat.not_lt_zero j)
  | succ m ih =>
    rcases Nat.lt_succ_iff_lt_or_eq.1 hj with hjm | rfl
    · -- a digit is less than the base, so that the digits before it decide
      have hlow := hn (m + 1)
      calc t.weight n m * (n + 1) + t.levelStart (m + 1)
          < (t.weight n m + 1) * (n + 1) := by rw [Nat.add_mul, Nat.one_mul]; omega
        _ ≤ t'.weight n m * (n + 1) := Nat.mul_le_mul_right _ (ih hjm)
        _ ≤ t'.weight n m * (n + 1) + t'.levelStart (m + 1) := Nat.le_add_right _ _
    · exact Nat.add_lt_add_of_le_of_lt (Nat.mul_le_mul_right _ (weight_le_weight h)) hlt

/-- The number has its bound. -/
theorem weight_lt_pow (hn : ∀ k, t.levelStart k ≤ n) : t.weight n m < (n + 1) ^ m := by
  induction m with
  | zero => exact Nat.one_pos
  | succ m ih =>
    have hlow := hn (m + 1)
    calc t.weight n m * (n + 1) + t.levelStart (m + 1)
        < (t.weight n m + 1) * (n + 1) := by rw [Nat.add_mul, Nat.one_mul]; omega
      _ ≤ (n + 1) ^ m * (n + 1) := Nat.mul_le_mul_right _ ih
      _ = (n + 1) ^ (m + 1) := (Nat.pow_succ ..).symm

/-- Where no level begins or ends, the levels above the current one are those that grow. -/
theorem levelStart_le_of_frames (hf : t'.frames = t.frames) (hs : t.size ≤ t'.size) (k : Nat) :
    t.levelStart k ≤ t'.levelStart k := by
  unfold levelStart
  rw [hf]
  split
  · exact Nat.le_refl _
  · exact hs

end Trail

namespace Solver

variable {ε : Type} {s s' : Solver ε} {l : Literal}

/-- How much a search may still go on in the order of its trails. -/
def lack (s : Solver ε) : Nat :=
  (s.numbering.size + 1) ^ (s.numbering.size + 1) - s.trail.weight s.numbering.size (s.numbering.size + 1)

theorem Frame.levelStart_le (h : s.Frame) (k : Nat) : s.trail.levelStart k ≤ s.numbering.size :=
  Nat.le_trans (h.trail.levelStart_le k) h.size_le

theorem Frame.lack_lt {j : Nat} (h : s.Frame) (h' : s'.Frame) (hn : s'.numbering.size = s.numbering.size)
    (hj : j ≤ s.numbering.size) (hle : ∀ k < j, s.trail.levelStart (k + 1) ≤ s'.trail.levelStart (k + 1))
    (hlt : s.trail.levelStart (j + 1) < s'.trail.levelStart (j + 1)) : s'.lack < s.lack := by
  have hj' : j < s.numbering.size + 1 := Nat.lt_succ_of_le hj
  have hweight := Trail.weight_lt_weight hj' hle hlt h.levelStart_le
  have hbound := Trail.weight_lt_pow (m := s'.numbering.size + 1) h'.levelStart_le
  unfold lack
  rw [hn] at hbound ⊢
  omega

/-- Propagation takes nothing back. -/
theorem Forward.lack_le (h : Forward s s') (hn : s'.numbering.size = s.numbering.size) : s'.lack ≤ s.lack := by
  unfold lack
  rw [hn]
  exact Nat.sub_le_sub_left (Trail.weight_le_weight fun k _ => Trail.levelStart_le_of_frames h.frames h.size _) _

/-- A decision is one more literal, on a level of its own. -/
theorem Frame.lack_pushDecision (h : s.Frame) (h' : s'.Frame) (hn : s'.numbering.size = s.numbering.size)
    (ht : s'.trail = s.trail.pushDecision l) : s'.lack < s.lack := by
  have hsize : s'.trail.size = s.trail.size + 1 := by rw [ht, Trail.size_pushDecision]
  have hf := h.trail.frames
  have hlevel : s.trail.level + 1 ≤ s.numbering.size := by
    have := h'.trail.level_le_size
    have hle := h'.levelStart_le (s'.trail.level + 1)
    rw [Trail.levelStart_above (Nat.lt_succ_self _)] at hle
    rw [ht, Trail.level_pushDecision hf] at this
    rw [← ht] at this
    omega
  refine h.lack_lt h' hn hlevel (fun k hk => ?_) ?_
  · rw [ht, Trail.levelStart_pushDecision hf l (by omega)]
    split
    · exact h.trail.levelStart_le _
    · exact Nat.le_refl _
  · have hlevel' : s'.trail.level = s.trail.level + 1 := by rw [ht, Trail.level_pushDecision hf]
    rw [Trail.levelStart_above (by omega), Trail.levelStart_above (by omega), hsize]
    exact Nat.lt_succ_self _

/-- A learnt clause is one more literal, on a level below the one of the conflict. -/
theorem Jumped.lack_lt {a : Literal} (hj : Jumped a s s') (h : s.Frame) (h' : s'.Frame)
    (hn : s'.numbering.size = s.numbering.size) : s'.lack < s.lack := by
  obtain ⟨k, hk, ht⟩ := hj.trail
  have hlevel := h.trail.level_le_size
  have hsize := h.levelStart_le (s.trail.level + 1)
  rw [Trail.levelStart_above (Nat.lt_succ_self _)] at hsize
  have htrunc : (s.trail.truncate k).level = k := Trail.level_truncate hk
  refine h.lack_lt (j := k) h' hn (by omega) (fun i hi => ?_) ?_
  · have hi' : i + 1 ≤ (s.trail.truncate k).level := by omega
    rw [ht, Trail.levelStart_push hi' (h.trail.truncate h.sized (fun _ hu => hu.1) hk).frames,
      Trail.levelStart_truncate hk hi]
  · have hpush : ((s.trail.truncate k).push a).level < k + 1 := by
      rw [Trail.level_push, htrunc]
      exact Nat.lt_succ_self k
    rw [ht, Trail.levelStart_above hpush, Trail.size_push, Trail.size_truncate (h.trail.levelStart_le _)]
    exact Nat.lt_succ_self _

end Solver

end ClauseLearning

import ClauseLearning.Proofs.Agreement

/-!
# Snapshots of the assignment

Before levels are taken back, the assignment may be noted as the target phases or as the best ones.  Whether it is
depends on the part of the trail below the current level, which is free of conflicts, and the count that is noted is the
length of this part.  The phases that are noted are those of the whole assignment: the current level is in the snapshot,
with its decision, and is not in its count.

* `Solver.below`, `Solver.Targeting` — what decides whether something is noted.
* `Solver.assignedOn`, `Solver.Frame.length_assignedOn` — the variables on the first levels, and how many there are.
* `Solver.Snapshot`, `Solver.Snaps` — phases noted from an assignment, and what going back does to one kind of phases.
* `Solver.backtrack_snaps` — going back does this to the best and to the target phases.
-/

namespace ClauseLearning

namespace Phases

/-- Taking literals back writes saved phases only. -/
theorem saveAll_eq (p : Phases) (ls : List Literal) :
    ∃ saved, ls.foldl save p = { p with saved } ∧ saved.size = p.saved.size := by
  induction ls generalizing p with
  | nil => exact ⟨p.saved, rfl, rfl⟩
  | cons l ls ih =>
    obtain ⟨saved, he, hsize⟩ := ih (p.save l)
    exact ⟨saved, he, hsize.trans Array.size_setIfInBounds⟩

end Phases

namespace Solver

variable {ε : Type} {C : Settings} {hooks : Hooks ε} {limits : Limits} {stopped : Bool} {outside : ε}
variable {s : Solver ε} {k : Nat} {moment : Moment}

/-- The count of literals below the current level. -/
def below (s : Solver ε) : Nat := s.trail.levelStart s.trail.level

/-- Whether target phases are noted at all. -/
def Targeting (s : Solver ε) : Prop := s.orders.stable = true ∧ s.settings.phase.target.value = true

instance : Decidable s.Targeting := inferInstanceAs (Decidable (_ ∧ _))

/-- The variables that are assigned on the first `j` levels. -/
def assignedOn (s : Solver ε) (j : Nat) : List Nat :=
  (List.range s.assignment.size).filter fun v =>
    (s.assignment.valueOf v).isAssigned && (s.assignment.record v).level < j

/-! ## Counts -/

/-- The variables on the first levels are those of the first part of the trail. -/
theorem Frame.assignedOn_perm (h : s.Frame) {j : Nat} (hj : j ≤ s.trail.level + 1) :
    (s.assignedOn j).Perm ((s.trail.upTo (s.trail.levelStart j)).map Literal.var) := by
  have hassigned : ∀ v, (s.assignment.valueOf v).isAssigned = true ↔ ∃ l ∈ s.trail.literals, l.var = v := by
    intro v
    have hu := h.trail.unassigned_iff h.sized (l := Literal.make v true)
    rw [Literal.var_make, List.mem_map] at hu
    rw [← not_iff_not, Assignment.valueOf]
    simp only [Array.mem_toList_iff] at hu
    rw [← hu]
    cases s.assignment.value (.make v true) <;> simp [Value.isAssigned]
  have hnodup : ((s.trail.upTo (s.trail.levelStart j)).map Literal.var).Nodup :=
    h.trail.nodup.sublist ((List.take_sublist ..).map _)
  refine (List.perm_ext_iff_of_nodup (List.nodup_range.filter _) hnodup).2 ?_
  intro v
  simp only [List.mem_filter, List.mem_range, Bool.and_eq_true, hassigned, decide_eq_true_eq, List.mem_map,
    h.trail.mem_upTo_levelStart hj]
  constructor
  · rintro ⟨-, ⟨l, hl, rfl⟩, hlev⟩
    exact ⟨l, ⟨hl, hlev⟩, rfl⟩
  · rintro ⟨l, ⟨hl, hlev⟩, rfl⟩
    exact ⟨Nat.lt_of_lt_of_eq (h.trail.usable l hl).1 h.sized.records.symm, ⟨l, hl, rfl⟩, hlev⟩

/-- As many variables are assigned on the first levels as there are literals before the next one. -/
theorem Frame.length_assignedOn (h : s.Frame) {j : Nat} (hj : j ≤ s.trail.level + 1) :
    (s.assignedOn j).length = s.trail.levelStart j := by
  rw [(h.assignedOn_perm hj).length_eq, List.length_map, Trail.upTo, List.length_take, Array.length_toList]
  exact Nat.min_eq_left (h.trail.levelStart_le j)

/-- On all levels together, that is all that is assigned. -/
theorem Frame.assignedOn_all (h : s.Frame) :
    s.assignedOn (s.trail.level + 1) = (List.range s.assignment.size).filter fun v =>
      (s.assignment.valueOf v).isAssigned := by
  refine List.filter_congr ?_
  intro v _
  by_cases hv : (s.assignment.valueOf v).isAssigned = true
  · have hne : s.assignment.valueOf v ≠ .unassigned := by
      intro hun
      simp [hun, Value.isAssigned] at hv
    obtain ⟨l, hl, rfl⟩ : ∃ l ∈ s.trail.literals, l.var = v := by
      by_contra hnone
      refine hne ((h.trail.unassigned_iff h.sized).2 ?_)
      rw [Literal.var_make, List.mem_map]
      rintro ⟨l, hl, he⟩
      exact hnone ⟨l, Array.mem_toList_iff.1 hl, he⟩
    have hle : (s.assignment.record l.var).level ≤ s.trail.level := h.trail.level_le_of_mem hl
    simp [hv, Nat.lt_succ_of_le hle]
  · simp [hv]

/-! ## What is noted -/

/-- Phases and a count that were noted from the assignment of a solver. -/
structure Snapshot (s : Solver ε) (phases : Array Value) (counted : Nat) : Prop where
  /-- Each variable has its value, on whatever level that was assigned. -/
  value : ∀ v, phases.getD v .unassigned = s.assignment.valueOf v
  /-- The decision of the current level is among them. -/
  decision : phases.getD (s.trail.decision s.trail.level).var .unassigned =
    .ofBool (s.trail.decision s.trail.level).positive
  /-- There are as many phases as there are assigned variables. -/
  size : phases.countP Value.isAssigned = (s.assignedOn (s.trail.level + 1)).length
  /-- Only variables on levels below the current one are counted. -/
  below : counted = (s.assignedOn s.trail.level).length
  /-- So there are more phases than the count says. -/
  lt : counted < phases.countP Value.isAssigned

/-- What going back does to one kind of phases and its count.  They are noted from the assignment before, if the part of
the trail below the current level is larger than what was noted last.  Otherwise they stay. -/
structure Snaps (s : Solver ε) (due : Prop) (old new : Array Value) (count count' : Nat) : Prop where
  /-- They are noted. -/
  noted : due → count < s.below → s.Snapshot new count'
  /-- They stay. -/
  kept : ¬ (due ∧ count < s.below) → new = old ∧ count' = count

/-- The current values are those of all variables. -/
theorem Frame.currentValues_getD (h : s.Frame) (hsaved : s.phases.saved.size = s.assignment.size) (v : Nat) :
    s.currentValues.getD v .unassigned = s.assignment.valueOf v := by
  rw [currentValues, hsaved, Array.getD_eq_getD_getElem?, Array.getElem?_map, Array.getElem?_range]
  split
  · rfl
  · next hge =>
    -- beyond the known variables nothing is assigned
    have hval := (h.trail.unassigned_iff h.sized (l := Literal.make v true)).2
    rw [Literal.var_make] at hval
    refine (hval ?_).symm
    intro hmem
    obtain ⟨l, hl, rfl⟩ := List.mem_map.1 hmem
    exact hge (Nat.lt_of_lt_of_eq (h.trail.usable l (Array.mem_toList_iff.1 hl)).1 h.sized.records.symm)

/-- The values of an assignment above the root are a snapshot. -/
theorem Frame.snapshot (h : s.Frame) (hsaved : s.phases.saved.size = s.assignment.size) (hlev : 1 ≤ s.trail.level) :
    s.Snapshot s.currentValues s.below := by
  have hvalue := h.currentValues_getD hsaved
  have hsize : s.currentValues.countP Value.isAssigned = (s.assignedOn (s.trail.level + 1)).length := by
    rw [h.assignedOn_all, currentValues, hsaved, ← Array.countP_toList, Array.toList_map, Array.toList_range,
      List.countP_map, List.countP_eq_length_filter]
    exact rfl
  have hcount : s.below = (s.assignedOn s.trail.level).length := (h.length_assignedOn (Nat.le_succ _)).symm
  obtain ⟨hlt, -, -⟩ := h.trail.decision s.trail.level hlev (Nat.le_refl _)
  refine ⟨hvalue, ?_, hsize, hcount, ?_⟩
  · have htrue := (h.trail.tt_iff _).2 (h.trail.decision_mem hlev (Nat.le_refl _))
    rw [hvalue, Assignment.valueOf]
    generalize s.trail.decision s.trail.level = d at htrue
    cases hp : d.positive with
    | true =>
      rw [← hp, Literal.make_var_positive, htrue, hp]
      rfl
    | false =>
      have hneg : Literal.make d.var true = -d := by
        rw [← Literal.make_var_positive (-d), Literal.var_negate, Literal.positive_negate, hp]
        rfl
      rw [hneg, h.sized.opposite, htrue]
      rfl
  · rw [hsize, h.length_assignedOn (Nat.le_refl _), Trail.levelStart_above (Nat.lt_succ_self _)]
    exact hlt

/-- What the condition on a part of the trail comes to. -/
theorem Frame.snaps (h : s.Frame) (hsaved : s.phases.saved.size = s.assignment.size) (hlev : 1 ≤ s.trail.level)
    (due : Prop) [Decidable due] (old : Array Value) (count : Nat) :
    s.Snaps due old (if due ∧ count < s.below then s.currentValues else old) count
      (if due ∧ count < s.below then s.below else count) := by
  constructor
  · intro hdue hlt
    rw [if_pos ⟨hdue, hlt⟩, if_pos ⟨hdue, hlt⟩]
    exact h.snapshot hsaved hlev
  · intro hn
    rw [if_neg hn, if_neg hn]
    exact ⟨rfl, rfl⟩

/-- What is noted before levels are taken back. -/
theorem updatePhases_phases (s : Solver ε) : s.updatePhases.phases =
    { s.phases with
      target := if s.Targeting ∧ s.phases.targetAssigned < s.below then s.currentValues else s.phases.target
      targetAssigned := if s.Targeting ∧ s.phases.targetAssigned < s.below then s.below else s.phases.targetAssigned
      best := if s.phases.bestAssigned < s.below then s.currentValues else s.phases.best
      bestAssigned := if s.phases.bestAssigned < s.below then s.below else s.phases.bestAssigned } := by
  have hbelow : s.below = s.trail.levelStart s.trail.level := rfl
  have htarget : (s.orders.stable && s.settings.phase.target.value &&
      Decidable.decide (s.phases.targetAssigned < s.trail.levelStart s.trail.level)) = true ↔
        s.Targeting ∧ s.phases.targetAssigned < s.trail.levelStart s.trail.level := by
    rw [Bool.and_eq_true, Bool.and_eq_true, decide_eq_true_eq]
    exact Iff.rfl
  rw [hbelow]
  unfold updatePhases
  simp only [htarget]
  by_cases ht : s.Targeting ∧ s.phases.targetAssigned < s.trail.levelStart s.trail.level
  · by_cases hb : s.phases.bestAssigned < s.trail.levelStart s.trail.level
    · simp only [if_pos ht, if_pos hb]
      rfl
    · simp only [if_pos ht, if_neg hb]
  · by_cases hb : s.phases.bestAssigned < s.trail.levelStart s.trail.level
    · simp only [if_neg ht, if_pos hb]
    · simp only [if_neg ht, if_neg hb]

/-- Going back notes phases first, and changes no more than saved ones after that. -/
theorem backtrack_phases (hk : k < s.trail.level) :
    ∃ saved, (s.backtrack k).phases = { s.updatePhases.phases with saved } := by
  unfold backtrack
  rw [if_neg (Nat.not_le.2 hk)]
  simp only [unassignAll_eq]
  obtain ⟨saved, he, -⟩ := s.updatePhases.phases.saveAll_eq (s.updatePhases.trail.above k)
  exact ⟨saved, he⟩

/-- What going back does to the best and to the target phases. -/
theorem Frame.snaps_backtrack (h : s.Frame) (hsaved : s.phases.saved.size = s.assignment.size)
    (hk : k < s.trail.level) :
    s.Snaps True s.phases.best (s.backtrack k).phases.best s.phases.bestAssigned (s.backtrack k).phases.bestAssigned ∧
    s.Snaps s.Targeting s.phases.target (s.backtrack k).phases.target s.phases.targetAssigned
      (s.backtrack k).phases.targetAssigned := by
  obtain ⟨saved, he⟩ := backtrack_phases hk
  have hlev : 1 ≤ s.trail.level := Nat.lt_of_le_of_lt (Nat.zero_le k) hk
  rw [he, updatePhases_phases]
  have hbest := h.snaps hsaved hlev True s.phases.best s.phases.bestAssigned
  simp only [true_and] at hbest
  exact ⟨hbest, h.snaps hsaved hlev s.Targeting s.phases.target s.phases.targetAssigned⟩

/-- **Snapshots hold the whole assignment.**  Whenever levels are taken back, the assignment is noted as the best phases
if the part of the trail below the current level is larger than the best count, and as the target phases if it is larger
than the target count and they are noted at all.  What is noted are the values of all assigned variables, those of the
current level included, and the count is the number of variables assigned on the levels below it. -/
theorem backtrack_snaps (h : Reached C hooks limits stopped outside (moment, s)) (hk : k < s.trail.level) :
    s.Snaps True s.phases.best (s.backtrack k).phases.best s.phases.bestAssigned (s.backtrack k).phases.bestAssigned ∧
    s.Snaps s.Targeting s.phases.target (s.backtrack k).phases.target s.phases.targetAssigned
      (s.backtrack k).phases.targetAssigned := by
  obtain ⟨p, hp⟩ := h.stands.intact
  exact hp.toFrame.snaps_backtrack h.saved hk

/-- After two decisions. -/
theorem backtrack_snaps_two : ∃ s : Solver Unit, Reached {} {} {} false () (.quiet, s) ∧ 0 < s.trail.level ∧
    s.Snaps True s.phases.best (s.backtrack 0).phases.best s.phases.bestAssigned (s.backtrack 0).phases.bestAssigned ∧
    s.Snaps s.Targeting s.phases.target (s.backtrack 0).phases.target s.phases.targetAssigned
      (s.backtrack 0).phases.targetAssigned := by
  obtain ⟨s₀, place, s, hload, hrun, htest⟩ := exists_trial (fresh {} {} {} false ()) [.clause [1, 2, 3]] 2
    (fun place s => place == .propagated && Nat.blt 0 s.trail.level) (by decide +kernel)
  simp only [Bool.and_eq_true, beq_iff_eq, Nat.blt_eq] at htest
  obtain ⟨rfl, hlev⟩ := htest
  have h := Run.reached hload hrun
  exact ⟨s, h, hlev, backtrack_snaps h hlev⟩

/-- The value of the last decision may be among the best phases, and they are more than their count. -/
theorem backtrack_notes_decision : ∃ (s : Solver Unit) (v : Nat), Reached {} {} {} false () (.quiet, s) ∧
    0 < s.trail.level ∧ s.phases.bestAssigned < s.below ∧ (s.assignment.record v).level = s.trail.level ∧
      (s.backtrack 0).phases.best.getD v .unassigned ≠ .unassigned ∧
      (s.backtrack 0).phases.bestAssigned ≠ (s.backtrack 0).phases.best.countP Value.isAssigned := by
  obtain ⟨s₀, place, s, hload, hrun, htest⟩ := exists_trial (fresh {} {} {} false ()) [.clause [1, 2, 3]] 2
    (fun place s => place == .propagated && Nat.blt 0 s.trail.level && Nat.blt s.phases.bestAssigned s.below &&
      Decidable.decide ((s.assignment.record 1).level = s.trail.level ∧
        (s.backtrack 0).phases.best.getD 1 .unassigned ≠ .unassigned ∧
        (s.backtrack 0).phases.bestAssigned ≠ (s.backtrack 0).phases.best.countP Value.isAssigned))
    (by decide +kernel)
  simp only [Bool.and_eq_true, beq_iff_eq, Nat.blt_eq, decide_eq_true_eq] at htest
  obtain ⟨⟨⟨rfl, hlev⟩, hlt⟩, hlevel, hnoted, hcount⟩ := htest
  exact ⟨s, 1, Run.reached hload hrun, hlev, hlt, hlevel, hnoted, hcount⟩

end Solver

end ClauseLearning

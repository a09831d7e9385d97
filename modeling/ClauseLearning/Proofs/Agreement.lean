import ClauseLearning.Proofs.Reachability
import ClauseLearning.Proofs.Trial

/-!
# The trail and the assignment

The values, the records of variables, the trail and its frames are written one by one, and each call writes some of
them.  In every reachable state they tell the same story, and going back leaves that part of it which is about the
levels that remain.

* `Solver.Agreement` — what is on the trail is what is assigned, level by level.
* `Solver.Rewound` — what is so after levels were taken back.
* `Solver.trail_agrees` — both hold in every reachable state.
-/

namespace ClauseLearning

namespace Phases

theorem savedOf_save {p : Phases} {l : Literal} (hl : l.var < p.saved.size) (v : Nat) :
    (p.save l).savedOf v = if l.var = v then some l.positive else p.savedOf v := by
  unfold save setSaved savedOf
  simp only [Array.getD_eq_getD_getElem?, Array.getElem?_setIfInBounds]
  split
  · exact Value.toBool?_ofBool _
  · rfl

/-- After true literals on different variables were taken back, the saved phase of each is its value, and those of
other variables stay. -/
theorem savedOf_saveAll {p : Phases} {ls : List Literal} (hn : (ls.map Literal.var).Nodup)
    (hls : ∀ l ∈ ls, l.var < p.saved.size) :
    (∀ l ∈ ls, (ls.foldl save p).savedOf l.var = some l.positive) ∧
      ∀ v, v ∉ ls.map Literal.var → (ls.foldl save p).savedOf v = p.savedOf v := by
  induction ls generalizing p with
  | nil => exact ⟨by simp, fun _ _ => rfl⟩
  | cons a ls ih =>
    rw [List.map_cons, List.nodup_cons] at hn
    have ha := savedOf_save (hls a (List.mem_cons_self ..))
    obtain ⟨hmem, hother⟩ := ih (p := p.save a) hn.2 fun l hl =>
      Nat.lt_of_lt_of_eq (hls l (List.mem_cons_of_mem _ hl)) Array.size_setIfInBounds.symm
    refine ⟨fun l hl => ?_, fun v hv => ?_⟩
    · rcases List.mem_cons.1 hl with rfl | hl
      · rw [List.foldl_cons, hother _ hn.1, ha, if_pos rfl]
      · exact hmem l hl
    · rw [List.map_cons, List.mem_cons, not_or] at hv
      rw [List.foldl_cons, hother v hv.2, ha, if_neg (Ne.symm hv.1)]

end Phases

namespace Solver

variable {ε : Type} {s s' : Solver ε} {k : Nat} {moment : Moment}

/-! ## Agreement -/

/-- What is on the trail is what is assigned, level by level. -/
structure Agreement (s : Solver ε) : Prop where
  /-- No variable is on the trail twice. -/
  nodup : (s.trail.literals.toList.map Literal.var).Nodup
  /-- The true literals are those on the trail. -/
  tt_iff : ∀ l, s.val l = .tt ↔ l ∈ s.trail.literals
  /-- The false literals are those whose negation is on the trail. -/
  ff_iff : ∀ l, s.val l = .ff ↔ -l ∈ s.trail.literals
  /-- The level of a literal is the one that it stands in. -/
  level : ∀ i < s.trail.size, s.assignment.level (s.trail.at' i) ≤ s.trail.level ∧
    s.trail.levelStart (s.assignment.level (s.trail.at' i)) ≤ i ∧
    i < s.trail.levelStart (s.assignment.level (s.trail.at' i) + 1)
  /-- Levels but the root begin one behind the other. -/
  frames : ∀ j k, 1 ≤ j → j < k → k ≤ s.trail.level → s.trail.levelStart j < s.trail.levelStart k
  /-- No more was propagated than is there. -/
  propagated : s.trail.propagated ≤ s.trail.size
  /-- The count of variables that may be decided. -/
  unassigned : s.unassigned = ((List.range s.assignment.size).filter fun v =>
    !s.numbering.isEliminated v && !(s.assignment.valueOf v).isAssigned).length

/-- The variables which are not eliminated are those on the trail and those that may be decided. -/
theorem Frame.unassigned_eq (h : s.Frame) : s.unassigned = s.free.length := by
  have hsize : s.assignment.size = s.numbering.size := h.sized.records
  have hassigned : ∀ v, (s.assignment.valueOf v).isAssigned = true ↔ v ∈ s.trail.literals.toList.map Literal.var :=
    fun v => by
      have hu := h.trail.unassigned_iff h.sized (l := Literal.make v true)
      rw [Literal.var_make] at hu
      rw [← not_iff_not, ← hu, Assignment.valueOf]
      cases s.assignment.value (.make v true) <;> simp [Value.isAssigned]
  -- the variables on the trail are all among those that are not eliminated
  have hperm : (((List.range s.numbering.size).filter fun v => !s.numbering.isEliminated v).filter fun v =>
      (s.assignment.valueOf v).isAssigned).Perm (s.trail.literals.toList.map Literal.var) := by
    refine (List.perm_ext_iff_of_nodup ((List.nodup_range.filter _).filter _) h.trail.nodup).2 fun v => ?_
    rw [List.mem_filter, List.mem_filter, List.mem_range, hassigned]
    refine ⟨fun hv => hv.2, fun hv => ⟨?_, hv⟩⟩
    obtain ⟨l, hl, rfl⟩ := List.mem_map.1 hv
    obtain ⟨hlt, hkept⟩ := h.trail.usable l (Array.mem_toList_iff.1 hl)
    exact ⟨hlt, by simp [hkept]⟩
  have hfree : s.free = ((List.range s.numbering.size).filter fun v => !s.numbering.isEliminated v).filter
      fun v => !(s.assignment.valueOf v).isAssigned := by
    simp only [free, hsize, List.filter_filter, Bool.and_comm]
  have hsplit := List.length_eq_length_filter_add (l := (List.range s.numbering.size).filter fun v =>
    !s.numbering.isEliminated v) fun v => (s.assignment.valueOf v).isAssigned
  rw [hperm.length_eq, List.length_map, ← h.active, ← hfree] at hsplit
  rw [Solver.unassigned, hsplit, Array.length_toList, Trail.size, Nat.add_sub_cancel_left]

theorem Frame.agreement (h : s.Frame) : s.Agreement where
  nodup := h.trail.nodup
  tt_iff := h.trail.tt_iff
  ff_iff _ := h.trail.ff_iff h.sized
  level i hi := by
    have hle := h.trail.level_le hi
    refine ⟨hle, (h.trail.level_iff i hi _ (Nat.le_succ_of_le hle)).2 (Nat.le_refl _), ?_⟩
    by_contra hge
    have := (h.trail.level_iff i hi _ (Nat.succ_le_succ hle)).1 (Nat.le_of_not_lt hge)
    omega
  frames j k hj hjk hk := by
    obtain ⟨hlt, hat, hlev⟩ := h.trail.decision j hj (Nat.le_trans (Nat.le_of_lt hjk) hk)
    by_contra hge
    have := (h.trail.level_iff _ hlt k (Nat.le_succ_of_le hk)).1 (Nat.le_of_not_lt hge)
    rw [hat, hlev] at this
    omega
  propagated := h.trail.propagated
  unassigned := h.unassigned_eq

/-! ## Going back -/

/-- The levels above `k` were taken back. -/
structure Rewound (k : Nat) (s s' : Solver ε) : Prop where
  /-- Neither clauses nor watches have changed, nor has much else. -/
  eq : ∃ assignment phases orders trail, s' = { s with assignment, phases, orders, trail }
  /-- The first part of the trail is left. -/
  literals : s'.trail.literals.toList = s.trail.literals.toList.take (s.trail.levelStart (k + 1))
  /-- The first frames are left. -/
  frames : s'.trail.frames.toList = s.trail.frames.toList.take (k + 1)
  /-- The literals that are left are those of the first levels. -/
  mem_iff : ∀ l, l ∈ s'.trail.literals ↔ l ∈ s.trail.literals ∧ s.assignment.level l ≤ k
  /-- Up to `k` values stay. -/
  kept : ∀ l, s.assignment.level l ≤ k → s'.val l = s.val l
  /-- Levels and reasons stay. -/
  record : ∀ v, s'.assignment.record v = s.assignment.record v
  /-- Above `k` every variable is unassigned. -/
  gone : ∀ l, k < s.assignment.level l → s'.val l = .unassigned
  /-- Its saved phase is the value it had. -/
  saved : ∀ l ∈ s.trail.literals, k < s.assignment.level l → s'.phases.savedOf l.var = some l.positive
  /-- Other saved phases stay. -/
  unsaved : ∀ v, (∀ l ∈ s.trail.literals, l.var = v → s.assignment.level l ≤ k) →
    s'.phases.savedOf v = s.phases.savedOf v
  /-- What was propagated and is left counts as propagated. -/
  propagated : s'.trail.propagated = min s.trail.propagated s'.trail.size

theorem Frame.rewound (h : s.Frame) (hsaved : s.phases.saved.size = s.assignment.size) (hk : k < s.trail.level) :
    Rewound k s (s.backtrack k) := by
  have husable : ∀ v, s.numbering.Usable v → v < s.numbering.size := fun v hv => hv.1
  have hsize := Trail.size_truncate (h.trail.levelStart_le (k + 1))
  have habove : ∀ {l}, l ∈ s.trail.above k ↔ l ∈ s.trail.literals ∧ k < s.assignment.level l := h.trail.mem_above
  have hnodup : ((s.trail.above k).map Literal.var).Nodup := by
    refine h.trail.nodup.sublist (List.Sublist.map _ ?_)
    simp only [Trail.above, Array.toList_extract, List.extract_eq_take_drop]
    exact (List.take_sublist _ _).trans (List.drop_sublist _ _)
  obtain ⟨phases, hphases, he⟩ := backtrack_eq s hk
  have hroom : ∀ l ∈ s.trail.above k, l.var < phases.saved.size := fun l hl => by
    rw [hphases, hsaved]
    exact Nat.lt_of_lt_of_eq (h.trail.usable l (habove.1 hl).1).1 h.sized.records.symm
  obtain ⟨hsave, hother⟩ := Phases.savedOf_saveAll hnodup hroom
  have hphase : phases.savedOf = s.phases.savedOf := by
    funext v
    rw [Phases.savedOf, hphases, Phases.savedOf]
  rw [he]
  exact
    { eq := ⟨_, _, _, _, rfl⟩
      literals := by simp only [Trail.truncate, Array.toList_shrink]
      frames := by simp only [Trail.truncate, Array.toList_shrink]
      mem_iff := h.trail.mem_truncate hk
      kept := fun l hl => (h.trail.value_back h.sized husable l).trans (if_neg (Nat.not_lt_of_le hl))
      record := h.trail.record_back h.sized husable
      gone := fun l hl => (h.trail.value_back h.sized husable l).trans (if_pos hl)
      saved := fun l hl hlev => hsave l (habove.2 ⟨hl, hlev⟩)
      unsaved := fun v hv => by
        refine (hother v fun hmem => ?_).trans (congrFun hphase v)
        obtain ⟨l, hl, rfl⟩ := List.mem_map.1 hmem
        exact Nat.not_lt_of_le (hv l (habove.1 hl).1 rfl) (habove.1 hl).2
      propagated := by rw [hsize]; rfl }

variable {C : Settings} {hooks : Hooks ε} {limits : Limits} {stopped : Bool} {outside : ε}

/-- In every reachable state the trail and the assignment agree.  Going back below the current level leaves the levels
that remain, and going back to where one is, or above, does nothing. -/
theorem trail_agrees (h : Reached C hooks limits stopped outside (moment, s)) : s.Agreement ∧
    ∀ k, (k < s.trail.level → Rewound k s (s.backtrack k)) ∧ (s.trail.level ≤ k → s.backtrack k = s) :=
  have hf := h.stands.intact.frame
  ⟨hf.agreement, fun _ => ⟨hf.rewound h.saved, backtrack_of_le s⟩⟩

/-- Two clauses on three variables, with one level begun.  It can be taken back. -/
theorem trail_agrees_root : ∃ (moment : Moment) (s : Solver Unit), Reached {} {} {} false () (moment, s) ∧
    0 < s.trail.level ∧ s.Agreement ∧ Rewound 0 s (s.backtrack 0) ∧ s.backtrack s.trail.level = s := by
  obtain ⟨s₀, place, s, hload, hrun, htest⟩ := exists_trial (fresh {} {} {} false ())
    [.clause [1, 2, 3], .clause [-1, -2]] 1 (fun _ s => 0 < s.trail.level) (by decide +kernel)
  have hlevel := of_decide_eq_true htest
  have hreached := Run.reached hload hrun
  obtain ⟨hagree, hback⟩ := trail_agrees hreached
  exact ⟨_, s, hreached, hlevel, hagree, (hback 0).1 hlevel, (hback s.trail.level).2 (Nat.le_refl _)⟩

end Solver

end ClauseLearning

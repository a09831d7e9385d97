import ClauseLearning.Proofs.Fixpoint

/-!
# Levels that are taken back can be made again

In a prompt run, the literals up to each level are the closure of its decisions under the clauses, whichever clauses
were stored or dropped since that level was made.  So if levels are taken back, and the same decisions are made again,
each of them followed by propagation, then the same literals come to be on the same levels.

* `Solver.Replay` — decisions, each of them followed by propagation.
* `Solver.Mirrors` — a state is as another one was, up to a level.
* `Solver.Inv.mirrors` — so it is after going back.
* `Solver.Inv.upToLevel_subset` — a level is contained in every set that heeds the clauses and has its decisions.
* `Solver.Mirrors.next` — what propagation leaves behind after a decision was made again.
* `Solver.Mirrors.step`, `Solver.Mirrors.replay` — one level more, and all of them.
* `Solver.replay_restores` — so it is during a search.
-/

namespace ClauseLearning

namespace Solver

variable {ε : Type} {lags : Prop} {s s' r r' : Solver ε} {p i k : Nat} {l d : Literal} {T : Literal → Prop}

/-- Decisions are made one after another, none of them on a literal that is assigned, and each of them is followed by
propagation that ends without a conflict. -/
inductive Replay : List Literal → Solver ε → Solver ε → Prop
  /-- No decision is left. -/
  | nil {s : Solver ε} : Replay [] s s
  /-- A decision, propagation, and the other decisions. -/
  | cons {d : Literal} {ds : List Literal} {s s' s'' : Solver ε} : s.val d = .unassigned →
      propagate (s.decideLiteral d) = .ok () s' → Replay ds s' s'' → Replay (d :: ds) s s''

/-- Everything was propagated in the state `r`, and its trail is that of `s` up to the level `i`, which is its own
level.  Its clauses are heeded on all levels of `s` from there on, and where they are heeded, so are those of `s`. -/
structure Mirrors (lags : Prop) (s : Solver ε) (i : Nat) (r : Solver ε) : Prop where
  /-- The invariant. -/
  inv : r.Inv lags r.trail.size
  /-- Everything was propagated. -/
  full : r.trail.propagated = r.trail.size
  /-- No unit waits to be noticed. -/
  iterating : r.iterating = false
  /-- The level. -/
  level : r.trail.level = i
  /-- The trail. -/
  mem_iff : ∀ l, l ∈ r.trail.literals ↔ s.UpToLevel i l
  /-- The levels of all variables. -/
  levels : ∀ l, r.assignment.level l = s.assignment.level l
  /-- The variables. -/
  numbering : r.numbering = s.numbering
  /-- The clauses of `r` on the levels of `s`. -/
  heeds : ∀ j, i ≤ j → j ≤ s.trail.level → ∀ c, r.Known c → Heeds (s.UpToLevel j) c
  /-- The clauses of `s`. -/
  known : ∀ T, (∀ c, r.Known c → Heeds T c) → ∀ c, s.Known c → Heeds T c

/-- Above the root no unit waits to be noticed. -/
theorem Frame.iterating_eq_false (h : s.Frame) (hlev : 0 < s.trail.level) : s.iterating = false := by
  by_contra hit
  have := h.iterating (Bool.eq_true_of_not_eq_false hit)
  omega

/-- Going back leaves a state as it was up to the level that was gone back to. -/
theorem Inv.mirrors (h : s.Inv lags s.trail.size) (hlags : ¬ lags) (hk : k < s.trail.level) :
    Mirrors lags s k (s.backtrack k) := by
  obtain ⟨hlevel, -, hfull, hmem, hlev, -⟩ := h.toFrame.backtrack_trail hk
  have hinv := h.backtrack hk (h.trail.levelStart_le _)
  obtain ⟨phases, -, he⟩ := backtrack_eq s hk
  have hknown : ∀ c, (s.backtrack k).Known c ↔ s.Known c := by
    intro c
    rw [he]
    exact Iff.rfl
  have hiterating : (s.backtrack k).iterating = false := by
    rw [he]
    exact h.toFrame.iterating_eq_false (Nat.zero_lt_of_lt hk)
  exact ⟨hinv, hfull, hiterating, hlevel, hmem, hlev, by rw [he],
    fun j _ hj c hc => h.heeds hlags hj (h.trail.levelStart_le _) ((hknown c).1 hc),
    fun T hT c hc => hT c ((hknown c).2 hc)⟩

/-- A clause that is false is one of those that are known. -/
theorem Conflict.known {key : Key} (h : s.Conflict key) : s.Known (s.clauseOf key) := by
  cases key with
  | binary a b =>
    obtain ⟨r, y, hm⟩ := h.watched a b rfl
    exact .inr (.inl ⟨a, b, r, y, hm, rfl⟩)
  | large r => exact .inl ⟨_, (h.current r rfl).2, rfl⟩

/-- Propagation within a consistent set that heeds all clauses meets no conflict. -/
theorem Within.no_conflict {key : Key} (h : s.Within T) (hT : Consistent T) (hc : s.Conflict key) : False := by
  obtain ⟨l, hl, -⟩ := hc.level
  obtain ⟨m, hm, hn⟩ := (h.2 _ hc.known).exists_not hT hl
  exact hn (h.1 _ (hc.falsified m hm))

/-- A set that has the decisions up to a level, what is at the root, and every literal that a clause forces, has all
literals up to that level. -/
theorem Inv.upToLevel_subset (h : s.Inv lags p) {j : Nat} (hT : ∀ c, s.Known c → Heeds T c)
    (hroot : ∀ l ∈ s.trail.literals, s.assignment.level l = 0 → T l)
    (hdec : ∀ k, 1 ≤ k → k ≤ j → k ≤ s.trail.level → T (s.trail.decision k)) : ∀ l, s.UpToLevel j l → T l := by
  have hall : ∀ i < s.trail.size, s.assignment.level (s.trail.at' i) ≤ j → T (s.trail.at' i) := by
    intro i
    induction i using Nat.strongRecOn with
    | ind i ih =>
      intro hi hle
      have hg := h.grounded i hi
      -- what stands before is on the same level or below
      have hbefore : ∀ m, -m ∈ s.trail.upTo i → T (-m) := by
        intro m hm
        obtain ⟨n, hn, hns, he⟩ := Trail.mem_upTo.1 hm
        exact he ▸ ih n hn hns (Nat.le_trans (h.trail.level_mono (Nat.le_of_lt hn) hi) hle)
      cases hr : s.assignment.reason (s.trail.at' i) with
      | decision =>
        obtain ⟨h1, hstart⟩ := hg.decision hr
        obtain ⟨-, hat, -⟩ := h.trail.decision _ h1 (h.trail.level_le hi)
        rw [hstart] at hat
        rw [hat]
        exact hdec _ h1 hle (h.trail.level_le hi)
      | unit => exact hroot _ (Trail.at'_mem hi) (hg.unit hr)
      | binary o =>
        obtain ⟨r, y, hm⟩ := h.exists_reason (Trail.at'_mem hi) hr
        exact hT _ (.inr (.inl ⟨_, _, r, y, hm, rfl⟩)) _ (by simp) fun m hm hne => by
          obtain rfl : m = o := by simpa [hne] using hm
          exact hbefore m (hg.binary hr).2.1
      | large r =>
        obtain ⟨-, hcur, rest, hlits, hrest⟩ := hg.large hr
        exact hT _ (.inl ⟨_, hcur.2, hlits.symm⟩) _ (by simp) fun m hm hne =>
          hbefore m (hrest m ((List.mem_cons.1 hm).resolve_left hne))
  rintro l ⟨hl, hle⟩
  obtain ⟨i, hi, rfl⟩ := Trail.exists_at' hl
  exact hall i hi hle

/-- A decision and what propagation adds to it come last on the trail. -/
theorem Leads.exists_new (h : Leads (r.decideLiteral d) r') :
    ∃ ls, r'.trail.literals.toList = r.trail.literals.toList ++ (d :: ls) ∧
      ∀ v, v ∉ ls.map Literal.var → r'.assignment.record v = (r.decideLiteral d).assignment.record v := by
  obtain ⟨ls, hls, hrec⟩ := h.grown
  refine ⟨ls, ?_, hrec⟩
  rw [hls]
  simp [decideLiteral, Trail.pushDecision]

/-- What is on the trail after a decision and after propagation, but was not on it before, is on the new level. -/
theorem Leads.level_new (h : Leads (r.decideLiteral d) r') (hr : r.Frame) (hr' : r'.Frame)
    (hl : l ∈ r'.trail.literals) (hn : l ∉ r.trail.literals) : r'.assignment.level l = r.trail.level + 1 := by
  have hframes : r'.trail.frames = (r.trail.pushDecision d).frames := h.frames
  have hlevel : r'.trail.level = r.trail.level + 1 := by
    rw [← Trail.level_pushDecision hr.trail.frames d, Trail.level, hframes, Trail.level]
  have hstart : r'.trail.levelStart (r.trail.level + 1) = r.trail.size := by
    have hlt : r.trail.level + 1 < (r.trail.pushDecision d).frames.size := by
      rw [← Trail.level_pushDecision hr.trail.frames d, Trail.level]
      have := hr.trail.frames
      simp only [Trail.pushDecision, Array.size_push]
      omega
    have hpush := Trail.levelStart_pushDecision hr.trail.frames d (Nat.le_refl (r.trail.level + 1))
    rw [if_pos rfl] at hpush
    rw [← hpush]
    simp only [Trail.levelStart, hframes, Array.getElem?_eq_getElem hlt]
  refine Nat.le_antisymm (hlevel ▸ hr'.trail.level_le_of_mem hl) (Nat.le_of_not_lt fun hlt => hn ?_)
  have hup := (hr'.trail.mem_upTo_levelStart (by omega)).2 ⟨hl, hlt⟩
  obtain ⟨ls, hlits, -⟩ := h.exists_new
  rw [hstart, Trail.upTo, hlits, Trail.size, ← Array.length_toList, List.take_left] at hup
  exact Array.mem_toList_iff.1 hup

/-- The record of a variable changes only if the variable comes to be assigned. -/
theorem Leads.record_old (h : Leads (r.decideLiteral d) r') (hr : r.Frame) (hr' : r'.Frame)
    (hu : r.numbering.Usable d.var) {v : Nat}
    (hv : ∀ m ∈ r'.trail.literals, m ∉ r.trail.literals → m.var ≠ v) :
    r'.assignment.record v = r.assignment.record v := by
  obtain ⟨ls, hlits, hrec⟩ := h.exists_new
  have hnew : ∀ m ∈ d :: ls, m.var ≠ v := by
    intro m hm
    have hnodup := hr'.trail.nodup
    rw [hlits, List.map_append, List.nodup_append] at hnodup
    refine hv m (Array.mem_toList_iff.1 (hlits ▸ List.mem_append_right _ hm)) fun hold => ?_
    exact hnodup.2.2 _ (List.mem_map_of_mem (Array.mem_toList_iff.2 hold)) _ (List.mem_map_of_mem hm) rfl
  rw [hrec v fun hm => ?_]
  · exact (Assignment.record_set hr.sized hu.1 _ _ v).trans (if_neg (hnew d (by simp)).symm)
  · obtain ⟨m, hls, hm⟩ := List.mem_map.1 hm
    exact hnew m (List.mem_cons_of_mem _ hls) hm

/-- The variables of decisions are usable. -/
theorem Inv.usable_decision (h : s.Inv lags p) (hi : i < s.trail.level) :
    s.numbering.Usable (s.trail.decision (i + 1)).var := by
  obtain ⟨hlt, hat, -⟩ := h.trail.decision (i + 1) (Nat.le_add_left ..) hi
  exact h.toFrame.usable_of_mem (hat ▸ Trail.at'_mem hlt)

namespace Mirrors

/-- The decision of the next level is not assigned. -/
theorem unassigned (h : Mirrors lags s i r) (hs : s.Frame) (hi : i < s.trail.level) :
    r.val (s.trail.decision (i + 1)) = .unassigned := by
  obtain ⟨-, -, hlev⟩ := hs.trail.decision (i + 1) (Nat.le_add_left ..) hi
  cases hv : r.val (s.trail.decision (i + 1)) with
  | unassigned => rfl
  | tt =>
    have := ((h.mem_iff _).1 (h.inv.toFrame.val_tt.1 hv)).2
    omega
  | ff =>
    have := ((h.mem_iff _).1 (h.inv.toFrame.val_ff.1 hv)).2
    rw [Assignment.level_negate] at this
    omega

/-- A decision is made again. -/
theorem within_decideLiteral (h : Mirrors lags s i r) (hs : s.Frame) {j : Nat} (hij : i < j) (hj : j ≤ s.trail.level) :
    (r.decideLiteral (s.trail.decision (i + 1))).Within (s.UpToLevel j) := by
  obtain ⟨hlt, hat, hlev⟩ := hs.trail.decision (i + 1) (Nat.le_add_left ..) (Nat.lt_of_lt_of_le hij hj)
  refine ⟨fun l hl => ?_, fun c hc => h.heeds j (Nat.le_of_lt hij) hj c (hc.congr rfl rfl rfl)⟩
  rcases Array.mem_push.1 hl with hl | rfl
  · obtain ⟨hm, hle⟩ := (h.mem_iff l).1 hl
    exact ⟨hm, Nat.le_trans hle (Nat.le_of_lt hij)⟩
  · exact ⟨hat ▸ Trail.at'_mem hlt, by rw [hlev]; exact hij⟩

section Next

variable (h : Mirrors lags s i r) (hs : s.Inv lags p) (hi : i < s.trail.level)
  (hk : Kept (r.decideLiteral (s.trail.decision (i + 1))) r')
include h hs hk

/-- Propagation comes to nothing that was not there. -/
theorem next_within {j : Nat} (hij : i < j) (hj : j ≤ s.trail.level) : r'.Within (s.UpToLevel j) :=
  hk.leads.within _ (hs.toFrame.consistent_upToLevel j) (h.within_decideLiteral hs.toFrame hij hj)

omit hs in
/-- What heeds the clauses of the new state heeds those of the old one. -/
theorem next_known (hT : ∀ c, r'.Known c → Heeds T c) : ∀ c, s.Known c → Heeds T c :=
  h.known T fun c hc => hk.leads.known T hT c (hc.congr rfl rfl rfl)

include hi

/-- Propagation comes to everything that was there. -/
theorem next_mem_iff (hlags : ¬ lags) (hinv : r'.Inv lags r'.trail.propagated)
    (hfull : r'.trail.propagated = r'.trail.size) (l : Literal) : l ∈ r'.trail.literals ↔ s.UpToLevel (i + 1) l := by
  have hf' := hinv.toFrame
  -- the new trail heeds all clauses, so it has all that they force
  have hheeds : ∀ c, r'.Known c → Heeds (· ∈ r'.trail.literals) c := by
    intro c hc
    rw [← hf'.upToLevel_level]
    exact hinv.heeds hlags (Nat.le_refl _) (hfull ▸ hf'.trail.levelStart_le _) hc
  have hold : ∀ l, s.UpToLevel i l → l ∈ r'.trail.literals := fun l hl =>
    hk.leads.mem (Array.mem_push.2 (.inl ((h.mem_iff l).2 hl)))
  refine ⟨(h.next_within hs hk (Nat.lt_succ_self i) hi).1 l, ?_⟩
  have hroot : ∀ l ∈ s.trail.literals, s.assignment.level l = 0 → l ∈ r'.trail.literals := fun l hl h0 =>
    hold l ⟨hl, h0 ▸ Nat.zero_le i⟩
  refine hs.upToLevel_subset (h.next_known hk hheeds) hroot ?_ l
  intro k h1 hle hkl
  obtain ⟨hlt, hat, hlev⟩ := hs.toFrame.trail.decision k h1 hkl
  rcases Nat.lt_or_eq_of_le hle with hki | rfl
  · exact hold _ ⟨hat ▸ Trail.at'_mem hlt, by omega⟩
  · exact hk.leads.mem (Array.mem_push.2 (.inr rfl))

/-- What is new has its old level, and all else keeps it. -/
theorem next_levels (hf' : r'.Frame) (hmem : ∀ l, l ∈ r'.trail.literals ↔ s.UpToLevel (i + 1) l) (l : Literal) :
    r'.assignment.level l = s.assignment.level l := by
  have hf := h.inv.toFrame
  by_cases hnew : ∃ m ∈ r'.trail.literals, m ∉ r.trail.literals ∧ m.var = l.var
  · obtain ⟨m, hm, hn, hv⟩ := hnew
    have hlev := hk.leads.level_new hf hf' hm hn
    obtain ⟨hms, hle⟩ := (hmem m).1 hm
    have hgt : i < s.assignment.level m := Nat.lt_of_not_le fun hle => hn ((h.mem_iff m).2 ⟨hms, hle⟩)
    simp only [Assignment.level, ← hv] at hlev hle hgt ⊢
    rw [h.level] at hlev
    omega
  · have hu := h.numbering ▸ hs.usable_decision hi
    have hrec := hk.leads.record_old hf hf' hu fun m hm hn hv => hnew ⟨m, hm, hn, hv⟩
    rw [Assignment.level, hrec]
    exact h.levels l

/-- What propagation leaves behind after a decision was made again. -/
theorem next (hlags : ¬ lags) (hinv : r'.Inv lags r'.trail.propagated) (hfull : r'.trail.propagated = r'.trail.size) :
    Mirrors lags s (i + 1) r' := by
  have hf' := hinv.toFrame
  have hlevel : r'.trail.level = i + 1 := by
    rw [hk.level, ← h.level]
    exact Trail.level_pushDecision h.inv.trail.frames _
  have hmem := h.next_mem_iff hs hi hk hlags hinv hfull
  exact ⟨hfull ▸ hinv, hfull, hf'.iterating_eq_false (hlevel ▸ Nat.succ_pos i), hlevel, hmem,
    h.next_levels hs hi hk hf' hmem, hk.refines.numbering.trans h.numbering,
    fun j hij hj => (h.next_within hs hk hij hj).2, fun T hT => h.next_known hk hT⟩

end Next

/-- One level more. -/
theorem step (h : Mirrors lags s i r) (hs : s.Inv lags p) (hlags : ¬ lags) (hi : i < s.trail.level) :
    ∃ r', propagate (r.decideLiteral (s.trail.decision (i + 1))) = .ok () r' ∧ Mirrors lags s (i + 1) r' := by
  have hu : r.numbering.Usable (s.trail.decision (i + 1)).var := h.numbering ▸ hs.usable_decision hi
  have hinv : (r.decideLiteral (s.trail.decision (i + 1))).Inv lags r.trail.propagated :=
    h.full ▸ h.inv.decideLiteral hu (h.unassigned hs.toFrame hi) (Nat.le_refl _) h.full h.iterating
  have hends := ends_propagate hinv
  cases he : propagate (r.decideLiteral (s.trail.decision (i + 1))) with
  | ok _ r' =>
    obtain ⟨hinv', hfull, hk⟩ := hends.of_ok he
    exact ⟨r', rfl, h.next hs hi hk hlags hinv' hfull⟩
  | error e r' =>
    obtain ⟨key, -, hc, hk⟩ := hends.of_error he
    have hwithin := h.next_within hs hk (Nat.lt_succ_self i) hi
    exact (hwithin.no_conflict (hs.toFrame.consistent_upToLevel (i + 1)) hc.conflict).elim

/-- All levels that are left. -/
theorem replay (hs : s.Inv lags p) (hlags : ¬ lags) (n : Nat) : ∀ {i : Nat} {r : Solver ε}, Mirrors lags s i r →
    i + n ≤ s.trail.level →
    ∃ r', Replay ((List.range' (i + 1) n).map s.trail.decision) r r' ∧ Mirrors lags s (i + n) r' := by
  induction n with
  | zero =>
    intro i r h _
    exact ⟨r, .nil, h⟩
  | succ n ih =>
    intro i r h hn
    obtain ⟨r', hprop, h'⟩ := h.step hs hlags (by omega)
    obtain ⟨r'', hreplay, h''⟩ := ih h' (by omega)
    rw [Nat.add_right_comm, Nat.add_assoc] at h''
    exact ⟨r'', .cons (h.unassigned hs.toFrame (by omega)) hprop hreplay, h''⟩

/-- At the current level, all values are the same. -/
theorem val (h : Mirrors lags s s.trail.level r) (hs : s.Frame) (l : Literal) : r.val l = s.val l := by
  have hmem : ∀ l, l ∈ r.trail.literals ↔ l ∈ s.trail.literals := by
    intro l
    rw [h.mem_iff, hs.upToLevel_level]
  have hr := h.inv.toFrame
  cases hv : s.val l with
  | tt => exact hr.val_tt.2 ((hmem l).2 (hs.val_tt.1 hv))
  | ff => exact hr.val_ff.2 ((hmem (-l)).2 (hs.val_ff.1 hv))
  | unassigned =>
    cases hv' : r.val l with
    | unassigned => rfl
    | tt =>
      rw [hs.val_tt.2 ((hmem l).1 (hr.val_tt.1 hv'))] at hv
      simp at hv
    | ff =>
      rw [hs.val_ff.2 ((hmem (-l)).1 (hr.val_ff.1 hv'))] at hv
      simp at hv

end Mirrors

variable {C : Settings} {hooks : Hooks ε} {limits : Limits} {stopped : Bool} {outside : ε} {calls : List Call}
  {s₀ : Solver ε}

/-- After propagation in a prompt run, levels may be taken back and their decisions be made again, each of them followed
by propagation.  No decision is assigned when its turn comes, there is no conflict, and every variable gets back its
value and its level. -/
theorem replay_restores (hload : calls.forM Call.run (fresh C hooks limits stopped outside) = .ok () s₀)
    (hrun : Run true (.loaded, s₀) (.propagated, s)) (hk : k ≤ s.trail.level) :
    ∃ s', Replay ((List.range' (k + 1) (s.trail.level - k)).map s.trail.decision) (s.backtrack k) s' ∧
      s'.trail.level = s.trail.level ∧ (∀ l, s'.val l = s.val l) ∧
      ∀ l, s'.assignment.level l = s.assignment.level l := by
  have hq : s.Quiet (true = false) := (hrun.at (loaded_run hload)).1
  have hlags : ¬ (true = false) := by simp
  rcases Nat.lt_or_eq_of_le hk with hk | rfl
  · obtain ⟨s', hreplay, h⟩ := (hq.inv.mirrors hlags hk).replay hq.inv hlags (s.trail.level - k) (by omega)
    rw [Nat.add_sub_cancel' (Nat.le_of_lt hk)] at h
    exact ⟨s', hreplay, h.level, h.val hq.inv.toFrame, h.levels⟩
  · rw [backtrack_of_le s (Nat.le_refl _), Nat.sub_self]
    exact ⟨s, .nil, rfl, fun _ => rfl, fun _ => rfl⟩

/-- Three levels are taken back after a clause was learnt. -/
theorem replay_restores_learnt : ∃ s₀ s : Solver Unit,
    lateCalls.forM Call.run (fresh {} {} {} false ()) = .ok () s₀ ∧ Run true (.loaded, s₀) (.propagated, s) ∧
      s.Stored [⟨5⟩, ⟨9⟩] true ∧ 3 ≤ s.trail.level ∧
      ∃ s', Replay ((List.range' (0 + 1) (s.trail.level - 0)).map s.trail.decision) (s.backtrack 0) s' ∧
        s'.trail.level = s.trail.level ∧ (∀ l, s'.val l = s.val l) ∧
        ∀ l, s'.assignment.level l = s.assignment.level l := by
  obtain ⟨s₀, place, s, hload, hrun, htest⟩ := exists_prompt (fresh {} {} {} false ()) lateCalls 32
    (fun place s => match place with
      | .propagated => Nat.ble 3 s.trail.level && Decidable.decide (.binary ⟨9⟩ true false ∈ s.watches.view ⟨5⟩)
      | _ => false) (by decide +kernel)
  cases place with
  | propagated =>
    obtain ⟨hlev, hm⟩ := Bool.and_eq_true_iff.1 htest
    exact ⟨s₀, s, hload, hrun, .binary (of_decide_eq_true hm), Nat.le_of_ble_eq_true hlev,
      replay_restores hload hrun (Nat.zero_le _)⟩
  | _ => simp at htest

end Solver

end ClauseLearning

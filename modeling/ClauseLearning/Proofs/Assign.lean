import ClauseLearning.Proofs.Invariant
import ClauseLearning.Solver.Assign

/-!
# Assigning and unassigning keep the invariant

One more literal on the trail leaves everything below it as it is, and so do levels that are taken back
for what is on the levels that remain.

* `Extends` — a trail and an assignment with more literals than others.
* `Solver.Inv.assign`, `Solver.Inv.decide`, `Solver.Inv.backtrack` — the invariant after each procedure.
* `Solver.refines_assign`, `Solver.refines_backtrack` — what is known after each procedure.
-/

namespace ClauseLearning

variable {n : Nat} {usable : Nat → Prop} {t t' : Trail} {a a' : Assignment} {st : Store} {p : Nat}

/-! ## More literals -/

/-- A trail and an assignment with more literals than others. -/
structure Extends (t : Trail) (a : Assignment) (t' : Trail) (a' : Assignment) : Prop where
  /-- The first literals are the same. -/
  upTo : ∀ p ≤ t.size, t'.upTo p = t.upTo p
  /-- They are at the same positions. -/
  at_eq : ∀ i < t.size, t'.at' i = t.at' i
  /-- What was assigned keeps its value. -/
  value : ∀ m, a.value m ≠ .unassigned → a'.value m = a.value m
  /-- The records of assigned variables stay. -/
  record : ∀ m ∈ t.literals, a'.record m.var = a.record m.var
  /-- Levels begin where they began. -/
  start : ∀ k ≤ t.level, t'.levelStart k = t.levelStart k

namespace Extends

theorem level (h : Extends t a t' a') {m : Literal} (hm : m ∈ t.literals) :
    a'.level m = a.level m := by
  rw [Assignment.level, h.record m hm, Assignment.level]

theorem level_neg (h : Extends t a t' a') {m : Literal} (hm : -m ∈ t.literals) :
    a'.level m = a.level m := by
  rw [← Assignment.level_negate, h.level hm, Assignment.level_negate]

theorem fallen (h : Extends t a t' a') (hp : p ≤ t.size) {l : Literal} :
    Fallen t' p l ↔ Fallen t p l := by
  rw [Fallen, h.upTo p hp, Fallen]

theorem guard (h : Extends t a t' a') (ht : t.Matches usable a) (hs : a.Sized n) (hp : p ≤ t.size)
    {late : Prop} {x b y d : Literal} {c : List Literal} (hg : Guard t a p late x b y d c) :
    Guard t' a' p late x b y d c := by
  refine hg.imp (fun l _ hf => ?_) (fun l _ _ m hm _ => ⟨h.value m hm, ?_⟩) id fun _ hm => hm
  · have hf' := (h.fallen hp).1 hf
    exact ⟨hf', h.level_neg (Trail.mem_of_mem_upTo hf')⟩
  · cases hv : a.value m with
    | tt => exact h.level ((ht.tt_iff m).1 hv)
    | ff => exact h.level_neg ((ht.ff_iff hs).1 hv)
    | unassigned => exact absurd hv hm

theorem guarded (h : Extends t a t' a') (ht : t.Matches usable a) (hs : a.Sized n) (hp : p ≤ t.size)
    {lags : Prop} {view : Literal → List Watch} (hg : Guarded lags t a st view p) :
    Guarded lags t' a' st view p :=
  ⟨fun l o r y hw => h.guard ht hs hp (hg.binary l o r y hw),
    fun r x b y d hx hy hne => h.guard ht hs hp (hg.large r x b y d hx hy hne)⟩

theorem grounded (h : Extends t a t' a') (ht : t.Matches usable a) {i : Nat} (hi : i < t.size)
    (hg : Grounded t a st i) : Grounded t' a' st i := by
  have hrec := h.record _ (Trail.at'_mem hi)
  have hlev := h.level (Trail.at'_mem hi)
  unfold Grounded Forced at *
  rw [h.at_eq i hi, Assignment.reason, hrec, hlev, h.upTo i (Nat.le_of_lt hi), h.start _ (ht.level_le hi)]
  unfold Assignment.reason at hg
  split
  · next he => rwa [he] at hg
  · next he => rwa [he] at hg
  · next he =>
    rw [he] at hg
    exact ⟨hg.1, hg.2.1, by rw [h.level_neg (Trail.mem_of_mem_upTo hg.2.1)]; exact hg.2.2⟩
  · next he => rwa [he] at hg

end Extends

namespace Trail.Matches

/-- The trail with one more literal extends the trail. -/
theorem extends_push (h : t.Matches usable a) (hs : a.Sized n) {l : Literal} (hl : l.var < n)
    (hv : a.value l = .unassigned) (level : Nat) (reason : Reason) :
    Extends t a (t.push l) (a.set l level reason) where
  upTo p hp := upTo_push hp l
  at_eq i hi := by rw [at'_push, if_neg (Nat.ne_of_lt hi)]
  value m hm := by
    rw [Assignment.value_set hs hl, if_neg, if_neg]
    · rintro rfl
      rw [hs.opposite, hv] at hm
      exact hm rfl
    · rintro rfl
      exact hm hv
  record m hm := by
    rw [Assignment.record_set hs hl, if_neg]
    intro he
    exact (h.unassigned_iff hs).1 hv (he ▸ List.mem_map_of_mem (Array.mem_toList_iff.2 hm))
  start k hk := levelStart_push hk h.frames l

/-- The trail with a decision extends the trail. -/
theorem extends_pushDecision (h : t.Matches usable a) (hs : a.Sized n) {l : Literal}
    (hl : l.var < n) (hv : a.value l = .unassigned) :
    Extends t a (t.pushDecision l) (a.set l (t.level + 1) .decision) :=
  { h.extends_push hs hl hv (t.level + 1) .decision with
    start := fun k hk => by
      rw [levelStart_pushDecision h.frames l (Nat.le_succ_of_le hk), if_neg (by omega)] }

end Trail.Matches

namespace Solver

variable {ε : Type} {lags : Prop} {s : Solver ε} {l : Literal} {reason : Reason}

/-- The trail and the assignment of a solver were extended, and each new literal has a reason. -/
theorem Wired.extend (h : s.Wired lags p) (hf : s.Frame) (hp : p ≤ s.trail.size)
    (he : Extends s.trail s.assignment t' a')
    (hg : ∀ i, s.trail.size ≤ i → i < t'.size → Grounded t' a' s.store i)
    (hr : ∀ m ∈ t'.literals, m ∉ s.trail.literals → ∀ o, a'.reason m = .binary o →
      (∃ r h, .binary o r h ∈ s.watches.view m) ∨ (o, m) ∈ s.derived) :
    Wired lags { s with trail := t', assignment := a' } p where
  store := h.store
  paired := h.paired
  watched := h.watched
  grounded i hi := by
    by_cases hlt : i < s.trail.size
    · exact he.grounded hf.trail hlt (h.grounded i hlt)
    · exact hg i (by omega) hi
  reasons m hm o ho := by
    by_cases hold : m ∈ s.trail.literals
    · refine h.reasons m hold o ?_
      rwa [Assignment.reason, he.record m hold] at ho
    · exact hr m hm hold o ho
  guarded := he.guarded hf.trail hf.sized hp h.guarded
  recent := h.recent

/-- A reason may be given to a literal that is not assigned yet.  At the root none is needed. -/
def Justifies (s : Solver ε) (l : Literal) : Reason → Prop
  | .decision | .unit => s.trail.level = 0
  | .binary o => (-o ∈ s.trail.literals ∧ (s.trail.level ≠ 0 → s.assignment.level o ≠ 0)) ∧
      ((∃ r h, .binary o r h ∈ s.watches.view l) ∨ (o, l) ∈ s.derived)
  | .large r => s.store.Current r ∧
      ∃ rest, s.store.lits r.offset = l :: rest ∧ ∀ m ∈ rest, -m ∈ s.trail.literals

/-- The record that assigning a literal gives it. -/
theorem assign_eq (s : Solver ε) (l : Literal) (reason : Reason) :
    ∃ unflushed, s.assign l reason =
      { s with
        unflushed
        assignment := s.assignment.set l s.trail.level (if s.trail.level = 0 then .unit else reason)
        trail := s.trail.push l } := by
  unfold assign
  by_cases h : s.trail.level = 0
  · exact ⟨s.unflushed + 1, by simp only [h, if_true]⟩
  · exact ⟨s.unflushed, by simp only [h, if_false]⟩

variable (hu : s.numbering.Usable l.var) (hv : s.val l = .unassigned)
include hu hv

theorem Frame.assign (h : s.Frame) (reason : Reason) : (s.assign l reason).Frame := by
  obtain ⟨u, he⟩ := assign_eq s l reason
  rw [he]
  exact
    { h with
      sized := h.sized.set hu.1 _ _
      trail := h.trail.push h.sized hu.1 hu hv _
      covers := by
        refine h.covers.mono fun v hw => ⟨hw.1, ?_⟩
        have := hw.2
        simp only [Assignment.valueOf] at this ⊢
        rw [Assignment.value_set h.sized hu.1] at this
        split at this
        · simp at this
        · split at this
          · simp at this
          · exact this }

theorem Wired.assign (h : s.Wired lags p) (hf : s.Frame) (hp : p ≤ s.trail.size)
    (hj : s.Justifies l reason) : (s.assign l reason).Wired lags p := by
  obtain ⟨u, he⟩ := assign_eq s l reason
  rw [he]
  have hrec : (s.assignment.set l s.trail.level
      (if s.trail.level = 0 then .unit else reason)).record l.var =
        { level := s.trail.level, reason := if s.trail.level = 0 then .unit else reason } := by
    rw [Assignment.record_set hf.sized hu.1, if_pos rfl]
  refine Wired.extend (s := { s with unflushed := u }) { h with } { hf with } hp
    (hf.trail.extends_push hf.sized hu.1 hv _ _) (fun i hi hi' => ?_) fun m hm hnew o ho => ?_
  swap
  · obtain rfl : m = l := (Array.mem_push.1 hm).resolve_left hnew
    simp only [Assignment.reason, hrec] at ho
    split at ho
    · simp at ho
    · subst ho
      exact hj.2
  have hi : i = s.trail.size := by
    rw [Trail.size_push] at hi'
    exact Nat.le_antisymm (Nat.le_of_lt_succ hi') hi
  subst hi
  have hat : (s.trail.push l).at' s.trail.size = l := by rw [Trail.at'_push, if_pos rfl]
  have hup : ∀ m, m ∈ (s.trail.push l).upTo s.trail.size ↔ m ∈ s.trail.literals := fun m => by
    rw [Trail.upTo_push (Nat.le_refl _), Trail.mem_upTo_size]
  unfold Grounded
  simp only [hat, Assignment.level, Assignment.reason, hrec]
  by_cases h0 : s.trail.level = 0
  · simp only [h0, if_true]
  · have h1 : 1 ≤ s.trail.level := Nat.one_le_iff_ne_zero.2 h0
    -- the decision of the level is on the trail
    have hforced : Forced (s.trail.push l) (s.assignment.set l s.trail.level
        (if s.trail.level = 0 then .unit else reason)) s.trail.size := by
      rw [Forced, hat, Assignment.level, hrec, Trail.levelStart_push (Nat.le_refl _) hf.trail.frames]
      exact ⟨h1, (hf.trail.decision _ h1 (Nat.le_refl _)).1⟩
    simp only [if_neg h0] at hforced ⊢
    cases reason with
    | decision => exact absurd hj h0
    | unit => exact absurd hj h0
    | binary o =>
      refine ⟨hforced, (hup _).2 hj.1.1, Nat.one_le_iff_ne_zero.2 ?_⟩
      have hne : o.var ≠ l.var := fun he => by
        have := (hf.trail.unassigned_iff hf.sized).1 hv
        rw [← he, ← Literal.var_negate o] at this
        exact this (List.mem_map_of_mem (Array.mem_toList_iff.2 hj.1.1))
      rw [Assignment.record_set hf.sized hu.1, if_neg hne]
      exact hj.1.2 h0
    | large r =>
      obtain ⟨hr, rest, hrest, hm⟩ := hj
      exact ⟨hforced, hr, rest, hrest, fun m hm' => (hup _).2 (hm m hm')⟩

omit hv in
theorem Clean.assign (h : s.Clean) (hf : s.Frame) (reason : Reason) :
    (s.assign l reason).Clean := by
  obtain ⟨u, he⟩ := assign_eq s l reason
  rw [he]
  refine ⟨h.marks, fun v => ?_, h.unpinned⟩
  simp only [Assignment.record_set hf.sized hu.1]
  split
  · exact ⟨rfl, rfl, rfl⟩
  · exact h.records v

theorem Inv.assign (h : s.Inv lags p) (hp : p ≤ s.trail.size) (hj : s.Justifies l reason) :
    (s.assign l reason).Inv lags p where
  toFrame := h.toFrame.assign hu hv reason
  toWired := h.toWired.assign hu hv h.toFrame hp hj
  toClean := h.toClean.assign hu h.toFrame reason
  stored := by
    obtain ⟨u, he⟩ := assign_eq s l reason
    rw [he]
    exact h.stored

/-- What is known after a literal is assigned, if it follows from its reason. -/
theorem Holds.assign {v : Valuation} (h : s.Holds v) (hf : s.Frame)
    (h0 : s.trail.level = 0 → v.makesTrue l = true)
    (hb : ∀ o, reason = .binary o → v.Satisfies [l, o]) : (s.assign l reason).Holds v := by
  obtain ⟨u, he⟩ := assign_eq s l reason
  rw [he]
  have hext := hf.trail.extends_push hf.sized hu.1 hv s.trail.level
    (if s.trail.level = 0 then .unit else reason)
  have hrec : (s.assignment.set l s.trail.level
      (if s.trail.level = 0 then .unit else reason)).record l.var =
        { level := s.trail.level, reason := if s.trail.level = 0 then .unit else reason } := by
    rw [Assignment.record_set hf.sized hu.1, if_pos rfl]
  refine ⟨h.consistent, fun m hm hlev => ?_, h.large, h.binary, fun m hm o ho => ?_, h.derived⟩
  · rcases Array.mem_push.1 hm with hm | rfl
    · exact h.root m hm (by rwa [hext.level hm] at hlev)
    · simp only [Assignment.level, hrec] at hlev
      exact h0 hlev
  · rcases Array.mem_push.1 hm with hm | rfl
    · exact h.reasons m hm o (by rwa [Assignment.reason, hext.record m hm] at ho)
    · simp only [Assignment.reason, hrec] at ho
      split at ho
      · simp at ho
      · exact hb o ho

/-- Nothing is lost when a literal is assigned. -/
theorem Base.of_assign {v : Valuation} (h : (s.assign l reason).Base v) (hf : s.Frame) :
    s.Base v := by
  obtain ⟨u, he⟩ := assign_eq s l reason
  rw [he] at h
  have hext := hf.trail.extends_push hf.sized hu.1 hv s.trail.level
    (if s.trail.level = 0 then .unit else reason)
  refine ⟨fun m hm hlev => ?_, h.large, h.binary⟩
  exact h.root m (Array.mem_push.2 (.inl hm)) (by rwa [hext.level hm])

/-- A literal is assigned that follows from its reason. -/
theorem refines_assign (hf : s.Frame)
    (h0 : s.trail.level = 0 → ∀ v : Valuation, s.Holds v → v.makesTrue l = true)
    (hb : ∀ o, reason = .binary o → ∀ v, s.Holds v → v.Satisfies [l, o]) :
    Refines s (s.assign l reason) := by
  have hholds : ∀ v, s.Holds v → (s.assign l reason).Holds v := fun v h =>
    h.assign hu hv hf (fun hl => h0 hl v h) fun o ho => hb o ho v h
  have hbase : ∀ v, (s.assign l reason).Base v → s.Base v := fun v h => h.of_assign hu hv hf
  obtain ⟨u, he⟩ := assign_eq s l reason
  rw [he] at hholds hbase ⊢
  exact ⟨rfl, rfl, rfl, rfl, rfl, rfl, rfl, id, hholds, hbase⟩

/-- A literal is assigned at the root because of a clause of its own. -/
theorem stores_assign (hf : s.Frame) : Stores [l] s (s.assign l .unit) := by
  have hholds : ∀ v : Valuation, v.Satisfies [l] → s.Holds v → (s.assign l .unit).Holds v :=
    fun v hs h => h.assign hu hv hf (fun _ => by
      obtain ⟨m, hm, ht⟩ := hs
      exact List.mem_singleton.1 hm ▸ ht) fun o ho => by simp at ho
  have hbase : ∀ v, (s.assign l .unit).Base v → s.Base v := fun v h => h.of_assign hu hv hf
  obtain ⟨u, he⟩ := assign_eq s l .unit
  rw [he] at hholds hbase ⊢
  exact ⟨rfl, rfl, rfl, rfl, rfl, rfl, rfl, id, hholds, hbase⟩

/-- The tables fit together after a decision where everything was propagated. -/
theorem Frame.decideLiteral (h : s.Frame) (hfull : s.trail.propagated = s.trail.size) (hi : s.iterating = false) :
    (s.decideLiteral l).Frame :=
  { h with
    sized := h.sized.set hu.1 _ _
    trail := h.trail.pushDecision h.sized hu.1 hu hv hfull
    covers := by
      refine h.covers.mono fun v hw => ⟨hw.1, ?_⟩
      have := hw.2
      simp only [Solver.decideLiteral, Assignment.valueOf] at this ⊢
      rw [Assignment.value_set h.sized hu.1] at this
      split at this
      · simp at this
      · split at this
        · simp at this
        · exact this
    iterating := fun hit => by
      have : s.iterating = true := hit
      rw [hi] at this
      simp at this }

omit hv in
/-- A literal is decided where everything was propagated. -/
theorem Inv.decideLiteral (h : s.Inv lags p) (hv : s.val l = .unassigned) (hp : p ≤ s.trail.size)
    (hfull : s.trail.propagated = s.trail.size) (hi : s.iterating = false) :
    (s.decideLiteral l).Inv lags p := by
  have hext := h.trail.extends_pushDecision h.sized hu.1 hv
  have hrec : (s.assignment.set l (s.trail.level + 1) .decision).record l.var =
      { level := s.trail.level + 1, reason := .decision } := by
    rw [Assignment.record_set h.sized hu.1, if_pos rfl]
  exact
    { h with
      toFrame := h.toFrame.decideLiteral hu hv hfull hi
      toWired := by
        refine Wired.extend h.toWired h.toFrame hp hext (fun i hi hi' => ?_) fun m hm hnew o ho => ?_
        swap
        · obtain rfl : m = l := (Array.mem_push.1 hm).resolve_left hnew
          rw [Assignment.reason, hrec] at ho
          simp at ho
        rw [Trail.size_pushDecision] at hi'
        obtain rfl : i = s.trail.size := Nat.le_antisymm (Nat.le_of_lt_succ hi') hi
        unfold Grounded
        simp only [Trail.at'_pushDecision, if_true, Assignment.reason, Assignment.level, hrec]
        exact ⟨Nat.le_add_left .., by
          rw [Trail.levelStart_pushDecision h.trail.frames l (Nat.le_refl _), if_pos rfl]⟩
      toClean := by
        refine ⟨h.marks, fun v => ?_, h.unpinned⟩
        simp only [Solver.decideLiteral, Assignment.record_set h.sized hu.1]
        split
        · exact ⟨rfl, rfl, rfl⟩
        · exact h.records v }

end Solver

/-! ## Levels taken back -/

namespace Trail.Matches

variable {k i : Nat} (h : t.Matches usable a) (hs : a.Sized n) (hu : ∀ v, usable v → v < n)
include h hs hu

theorem level_back (m : Literal) :
    ((t.above k).foldl Assignment.unset a).level m = a.level m := by
  rw [Assignment.level, h.record_back hs hu, Assignment.level]

/-- A guard survives when levels are taken back. -/
theorem guard_back (hk : k < t.level) {p' : Nat} (hp : p' ≤ p) {late : Prop} {x b y d : Literal}
    {c : List Literal} (hg : Guard t a p late x b y d c) :
    Guard (t.truncate k) ((t.above k).foldl Assignment.unset a) p' late x b y d c := by
  have hfall : ∀ l, Fallen (t.truncate k) p' l → Fallen t p l ∧ a.level l ≤ k := by
    intro l hm
    have hmem := (h.mem_truncate hk _).1 (Trail.mem_of_mem_upTo hm)
    rw [Assignment.level_negate] at hmem
    refine ⟨?_, hmem.2⟩
    obtain ⟨i, hi, his, he⟩ := Trail.mem_upTo.1 hm
    rw [Trail.size_truncate (h.levelStart_le (k + 1))] at his
    rw [Trail.at'_truncate his] at he
    have := h.levelStart_le (k + 1)
    exact Trail.mem_upTo.2 ⟨i, by omega, by omega, he⟩
  refine hg.imp (fun l _ hf => ⟨(hfall l hf).1, h.level_back hs hu l⟩) (fun l _ hf m _ hle => ?_) id
    fun _ hm => hm
  have := (hfall l hf).2
  exact ⟨by rw [h.value_back hs hu, if_neg (by omega)], h.level_back hs hu m⟩

/-- A reason survives when levels above it are taken back. -/
theorem grounded_back (hk : k < t.level) (hi : i < t.levelStart (k + 1))
    (hg : Grounded t a st i) :
    Grounded (t.truncate k) ((t.above k).foldl Assignment.unset a) st i := by
  have hsize := h.levelStart_le (k + 1)
  have hlev : a.level (t.at' i) ≤ k := by
    by_contra hc
    have := (h.level_iff i (by omega) (k + 1) (by omega)).2 (by omega)
    omega
  unfold Grounded Forced at *
  rw [Trail.at'_truncate hi, Assignment.reason, h.record_back hs hu, h.level_back hs hu,
    Trail.levelStart_truncate hk hlev, Trail.upTo_truncate (Nat.le_of_lt hi)]
  simp only [h.level_back hs hu]
  exact hg

end Trail.Matches

namespace Orders

variable {o : Orders} {free : Nat → Prop}

/-- Several variables have become unassigned. -/
theorem Valid.reinsertAll (h : Valid n usable o) {ls : List Literal}
    (hls : ∀ l ∈ ls, usable l.var) (hc : o.Covers free) :
    Valid n usable (ls.foldl (fun o l => o.reinsert l.var) o) ∧
      (ls.foldl (fun o l => o.reinsert l.var) o).Covers
        fun v => v ∈ ls.map Literal.var ∨ free v := by
  induction ls generalizing o free with
  | nil => exact ⟨h, hc.mono fun v hv => by simpa using hv⟩
  | cons l ls ih =>
    obtain ⟨h₁, hc₁, -⟩ := h.reinsert (hls l (List.mem_cons_self ..)) hc
    obtain ⟨h₂, hc₂⟩ := ih h₁ (fun m hm => hls m (List.mem_cons_of_mem _ hm)) hc₁
    refine ⟨h₂, hc₂.mono fun v hv => ?_⟩
    simp only [List.map_cons, List.mem_cons] at hv
    rcases hv with (hv | hv) | hv
    · exact .inr (.inl hv)
    · exact .inl hv
    · exact .inr (.inr hv)

end Orders

/-- Phases after a true literal is taken back. -/
def Phases.save (p : Phases) (l : Literal) : Phases := p.setSaved l.var (.ofBool l.positive)

theorem Phases.size_saveAll (p : Phases) (ls : List Literal) : (ls.foldl save p).saved.size = p.saved.size := by
  induction ls generalizing p with
  | nil => rfl
  | cons l ls ih => exact (ih _).trans Array.size_setIfInBounds

namespace Solver

variable {ε : Type} {lags : Prop} {s : Solver ε} {k : Nat}

/-- Noting phases leaves the saved ones. -/
theorem updatePhases_eq (s : Solver ε) :
    ∃ phases, s.updatePhases = { s with phases } ∧ phases.saved = s.phases.saved := by
  unfold updatePhases
  simp only
  split
  · split <;> exact ⟨_, rfl, rfl⟩
  · split
    · exact ⟨_, rfl, rfl⟩
    · exact ⟨s.phases, rfl, rfl⟩

theorem unassignAll_eq (ls : List Literal) (s : Solver ε) :
    ls.foldl unassign s =
      { s with
        assignment := ls.foldl Assignment.unset s.assignment
        phases := ls.foldl Phases.save s.phases
        orders := ls.foldl (fun o l => o.reinsert l.var) s.orders } := by
  induction ls generalizing s with
  | nil => rfl
  | cons l ls ih => exact ih (s.unassign l)

theorem backtrack_eq (s : Solver ε) (hk : k < s.trail.level) :
    ∃ phases : Phases, phases.saved = s.phases.saved ∧ s.backtrack k =
      { s with
        assignment := (s.trail.above k).foldl Assignment.unset s.assignment
        phases := (s.trail.above k).foldl Phases.save phases
        orders := (s.trail.above k).foldl (fun o l => o.reinsert l.var) s.orders
        trail := s.trail.truncate k } := by
  obtain ⟨ph, he, hsaved⟩ := updatePhases_eq s
  refine ⟨ph, hsaved, ?_⟩
  unfold backtrack
  rw [if_neg (by omega)]
  simp only [he]
  rw [unassignAll_eq]

theorem backtrack_of_le (s : Solver ε) (hk : s.trail.level ≤ k) : s.backtrack k = s := by
  unfold backtrack
  rw [if_pos hk]

/-- What the trail is after levels are taken back: nothing is left to be propagated. -/
theorem Frame.backtrack_trail (h : s.Frame) (hk : k < s.trail.level) :
    (s.backtrack k).trail.level = k ∧
      (s.backtrack k).trail.size = s.trail.levelStart (k + 1) ∧
      (s.backtrack k).trail.propagated = (s.backtrack k).trail.size ∧
      (∀ m, m ∈ (s.backtrack k).trail.literals ↔
        m ∈ s.trail.literals ∧ s.assignment.level m ≤ k) ∧
      (∀ m, (s.backtrack k).assignment.level m = s.assignment.level m) ∧
      (∀ m, (s.backtrack k).assignment.value m =
        if k < s.assignment.level m then .unassigned else s.assignment.value m) := by
  obtain ⟨ph, -, he⟩ := backtrack_eq s hk
  rw [he]
  have hsize := Trail.size_truncate (h.trail.levelStart_le (k + 1))
  refine ⟨Trail.level_truncate hk, hsize, ?_, h.trail.mem_truncate hk,
    h.trail.level_back h.sized fun v hv => hv.1, h.trail.value_back h.sized fun v hv => hv.1⟩
  have h1 := h.trail.below
  have h2 := h.trail.levelStart_mono (k := k + 1) (m := s.trail.level) hk (Nat.le_refl _)
  rw [hsize]
  exact Nat.min_eq_right (Nat.le_trans h2 h1)

theorem Frame.backtrack (h : s.Frame) (k : Nat) : (s.backtrack k).Frame := by
  by_cases hk : k < s.trail.level
  · obtain ⟨ph, -, he⟩ := backtrack_eq s hk
    have hu : ∀ v, s.numbering.Usable v → v < s.numbering.size := fun v hv => hv.1
    have habove : ∀ l ∈ s.trail.above k, s.numbering.Usable l.var := fun l hl =>
      h.trail.usable l (h.trail.mem_above.1 hl).1
    obtain ⟨ho, hc⟩ := h.orders.reinsertAll habove h.covers
    rw [he]
    exact
      { h with
        sized := (Assignment.foldl_unset (s.trail.above k)
          (fun l hl => hu _ (h.trail.usable l (h.trail.mem_above.1 hl).1)) h.sized).1
        trail := h.trail.truncate h.sized hu hk
        orders := ho
        covers := by
          refine hc.mono fun v hv => ?_
          obtain ⟨hv1, hv2⟩ := hv
          simp only [Assignment.valueOf] at hv2
          rw [(Assignment.foldl_unset (s.trail.above k)
            (fun l hl => hu _ (h.trail.usable l (h.trail.mem_above.1 hl).1)) h.sized).2.2] at hv2
          rw [Literal.var_make] at hv2
          by_cases hm : v ∈ (s.trail.above k).map Literal.var
          · exact .inl hm
          · rw [if_neg hm] at hv2
            exact .inr ⟨hv1, hv2⟩
        iterating := fun hit => by
          have := h.iterating hit
          omega }
  · rw [backtrack_of_le s (by omega)]
    exact h

theorem Wired.backtrack (h : s.Wired lags p) (hf : s.Frame) (hk : k < s.trail.level) {p' : Nat}
    (hp : p' ≤ p) : (s.backtrack k).Wired lags p' := by
  obtain ⟨ph, -, he⟩ := backtrack_eq s hk
  have hu : ∀ v, s.numbering.Usable v → v < s.numbering.size := fun v hv => hv.1
  have hsize := hf.trail.levelStart_le (k + 1)
  rw [he]
  exact
    { h with
      grounded := fun i hi => by
        rw [Trail.size_truncate hsize] at hi
        exact hf.trail.grounded_back hf.sized hu hk hi (h.grounded i (by omega))
      reasons := fun m hm o ho => by
        refine h.reasons m ((hf.trail.mem_truncate hk m).1 hm).1 o ?_
        rwa [Assignment.reason, hf.trail.record_back hf.sized hu] at ho
      guarded :=
        ⟨fun l o r y hw => hf.trail.guard_back hf.sized hu hk hp (h.guarded.binary l o r y hw),
          fun r x b y d hx hy hne =>
            hf.trail.guard_back hf.sized hu hk hp (h.guarded.large r x b y d hx hy hne)⟩ }

theorem Clean.backtrack (h : s.Clean) (hf : s.Frame) (k : Nat) : (s.backtrack k).Clean := by
  by_cases hk : k < s.trail.level
  · obtain ⟨ph, -, he⟩ := backtrack_eq s hk
    rw [he]
    refine ⟨h.marks, fun v => ?_, h.unpinned⟩
    rw [hf.trail.record_back hf.sized fun v hv => hv.1]
    exact h.records v
  · rw [backtrack_of_le s (by omega)]
    exact h

/-- Where the levels below the current one were gone through, taking levels back leaves a state in which
everything was. -/
theorem Inv.backtrack (h : s.Inv lags p) (hk : k < s.trail.level)
    (hp : s.trail.levelStart s.trail.level ≤ p) :
    (s.backtrack k).Inv lags (s.backtrack k).trail.size where
  toFrame := h.toFrame.backtrack k
  toWired := h.toWired.backtrack h.toFrame hk (by
    rw [(h.toFrame.backtrack_trail hk).2.1]
    exact Nat.le_trans (h.trail.levelStart_mono (k := k + 1) hk (Nat.le_refl _)) hp)
  toClean := h.toClean.backtrack h.toFrame k
  stored := by
    obtain ⟨ph, -, he⟩ := backtrack_eq s hk
    rw [he]
    exact h.stored

/-- Levels that are taken back are forgotten, and nothing else is. -/
theorem refines_backtrack (hf : s.Frame) (k : Nat) : Refines s (s.backtrack k) := by
  by_cases hk : k < s.trail.level
  · obtain ⟨ph, -, he⟩ := backtrack_eq s hk
    have hmem := hf.trail.mem_truncate hk
    have hrec := hf.trail.record_back (k := k) hf.sized fun v hv => hv.1
    rw [he]
    refine ⟨rfl, rfl, rfl, rfl, rfl, rfl, rfl, id, fun v h => ?_, fun v h => ?_⟩
    · refine ⟨h.consistent, fun m hm hlev => ?_, h.large, h.binary, fun m hm o ho => ?_, h.derived⟩
      · exact h.root m ((hmem m).1 hm).1 (by rwa [Assignment.level, hrec] at hlev)
      · exact h.reasons m ((hmem m).1 hm).1 o (by rwa [Assignment.reason, hrec] at ho)
    · refine ⟨fun m hm hlev => ?_, h.large, h.binary⟩
      exact h.root m ((hmem m).2 ⟨hm, by omega⟩) (by rwa [Assignment.level, hrec])
  · rw [backtrack_of_le s (by omega)]
    exact .refl s

/-! ## Decisions -/

/-- A decision says nothing about the formula. -/
theorem refines_decideLiteral (hf : s.Frame) {l : Literal} (hu : s.numbering.Usable l.var)
    (hv : s.val l = .unassigned) : Refines s (s.decideLiteral l) := by
  have hext := hf.trail.extends_pushDecision hf.sized hu.1 hv
  have hrec : (s.assignment.set l (s.trail.level + 1) .decision).record l.var =
      { level := s.trail.level + 1, reason := .decision } := by
    rw [Assignment.record_set hf.sized hu.1, if_pos rfl]
  refine ⟨rfl, rfl, rfl, rfl, rfl, rfl, rfl, id, fun v h => ?_, fun v h => ?_⟩
  · refine ⟨h.consistent, fun m hm hlev => ?_, h.large, h.binary, fun m hm o ho => ?_, h.derived⟩
    · simp only [decideLiteral] at hlev
      rcases Array.mem_push.1 hm with hm | rfl
      · exact h.root m hm (by rwa [hext.level hm] at hlev)
      · simp [Assignment.level, hrec] at hlev
    · simp only [decideLiteral] at ho
      rcases Array.mem_push.1 hm with hm | rfl
      · exact h.reasons m hm o (by rwa [Assignment.reason, hext.record m hm] at ho)
      · simp [Assignment.reason, hrec] at ho
  · refine ⟨fun m hm hlev => ?_, h.large, h.binary⟩
    exact h.root m (Array.mem_push.2 (.inl hm)) (by
      simp only [decideLiteral]
      rwa [hext.level hm])

theorem Frame.exists_free (h : s.Frame) (hu : s.unassigned ≠ 0) : ∃ v, s.Free v := by
  by_contra hc
  have hall : ∀ v, s.numbering.Usable v → v ∈ s.trail.literals.toList.map Literal.var := by
    intro v hv
    by_contra hm
    refine hc ⟨v, hv, ?_⟩
    rw [Assignment.valueOf, h.trail.unassigned_iff h.sized, Literal.var_make]
    exact hm
  have hn : ((List.range s.numbering.size).filter fun v => !s.numbering.isEliminated v).Nodup :=
    List.nodup_range.filter _
  have hsub := (hn.subperm fun v hv => hall v (by
    rw [List.mem_filter, List.mem_range] at hv
    exact ⟨hv.1, by simpa using hv.2⟩)).length_le
  rw [← h.active, List.length_map, Array.length_toList] at hsub
  exact hu (Nat.sub_eq_zero_of_le hsub)

/-- Both literals of a variable are unassigned if the variable is. -/
theorem Frame.val_make (h : s.Frame) (v : Nat) (b : Bool) :
    s.val (.make v b) = .unassigned ↔ s.assignment.valueOf v = .unassigned := by
  rw [val, Assignment.valueOf, h.trail.unassigned_iff h.sized, h.trail.unassigned_iff h.sized, Literal.var_make,
    Literal.var_make]

/-- The variables on the trail are among those that are not eliminated. -/
theorem Frame.trail_subperm (h : s.Frame) : (s.trail.literals.toList.map Literal.var).Subperm
    ((List.range s.numbering.size).filter fun v => !s.numbering.isEliminated v) := by
  refine h.trail.nodup.subperm ?_
  intro v hv
  obtain ⟨l, hl, rfl⟩ := List.mem_map.1 hv
  obtain ⟨h1, h2⟩ := h.trail.usable l (Array.mem_toList_iff.1 hl)
  rw [List.mem_filter, List.mem_range]
  exact ⟨h1, by simp [h2]⟩

/-- No more literals are on the trail than there are variables that are not eliminated. -/
theorem Frame.size_le_active (h : s.Frame) : s.trail.size ≤ s.active := by
  have hlen := h.trail_subperm.length_le
  rwa [← h.active, List.length_map, Array.length_toList] at hlen

theorem Frame.active_le (h : s.Frame) : s.active ≤ s.numbering.size := by
  rw [h.active]
  exact Nat.le_trans (List.length_filter_le ..) (Nat.le_of_eq List.length_range)

/-- No more literals are on the trail than there are variables. -/
theorem Frame.size_le (h : s.Frame) : s.trail.size ≤ s.numbering.size := Nat.le_trans h.size_le_active h.active_le

/-- A decision of the next variable of the active order, step by step. -/
theorem decide_of_next {v : Nat} {orders : Orders}
    (h : s.orders.next? s.assignment = (some v, orders)) :
    ∃ b, s.decide = (some (.make v b), decideLiteral
      { s with orders, counters.decisions := s.counters.decisions + 1 } (.make v b)) := by
  unfold decide onOrders
  simp only [h, count]
  exact ⟨_, rfl⟩

/-- A decision: where some variable may be decided, one is, and a level is added. -/
theorem Inv.decide (h : s.Inv lags p) (hp : p ≤ s.trail.size)
    (hfull : s.trail.propagated = s.trail.size) (hi : s.iterating = false)
    (hu : s.unassigned ≠ 0) :
    ∃ l orders counters, s.decide = (some l, Solver.decideLiteral { s with orders, counters } l) ∧
      s.numbering.Usable l.var ∧ s.val l = .unassigned ∧
      (Solver.decideLiteral { s with orders, counters } l).Inv lags p ∧
      Refines s (Solver.decideLiteral { s with orders, counters } l) := by
  obtain ⟨v, hv⟩ := h.toFrame.exists_free hu
  have hfree : ∀ v, s.Free v ↔ s.numbering.Usable v ∧ s.assignment.valueOf v = .unassigned :=
    fun _ => Iff.rfl
  have hnext := h.orders.next hfree h.covers
  cases he : s.orders.next? s.assignment with
  | mk found orders =>
    rw [he] at hnext
    obtain ⟨ho, hc, -, hfound, hnone⟩ := hnext
    cases found with
    | none => exact absurd hv (hnone rfl v)
    | some w =>
      have hw := hfound w rfl
      obtain ⟨b, hd⟩ := decide_of_next he
      have hwu : s.numbering.Usable (Literal.make w b).var := by
        rw [Literal.var_make]
        exact hw.1
      have hval : s.val (.make w b) = .unassigned := (h.toFrame.val_make w b).2 hw.2
      have h' : Inv lags { s with orders, counters.decisions := s.counters.decisions + 1 } p :=
        { h with orders := ho, covers := hc }
      have hr : Refines s { s with orders, counters.decisions := s.counters.decisions + 1 } :=
        ⟨rfl, rfl, rfl, rfl, rfl, rfl, rfl, id, fun v hv => { hv with }, fun v hv => { hv with }⟩
      exact ⟨_, _, _, hd, hwu, hval, Inv.decideLiteral hwu h' hval hp hfull hi,
        hr.trans (refines_decideLiteral h'.toFrame hwu hval)⟩

end Solver

end ClauseLearning

import ClauseLearning.Proofs.RootCollection

/-!
# Rounds of the elimination of pure literals

A round at the root needs no more than `Solver.Rooted` says, and keeps that, so that any number of rounds may follow one
another.  A round that eliminates nothing has found no pure literal.

* `Solver.Respects` — a valuation satisfies every clause that is not garbage.
* `Solver.Strips` — what a round does, and so what several do.
* `Solver.Rooted.ends_eliminatePure` — one round.
* `Solver.Mixed` — no literal is pure.
* `Solver.Rounds`, `Solver.Rooted.ends_eliminateRounds` — rounds until no literal is pure, or it is asked to stop.
-/

namespace ClauseLearning

/-- A binary clause is watched if it is among all of them. -/
theorem Watches.Paired.mem_iff {usable : Nat → Prop} {w : Watches} {l o : Literal} {r y : Bool}
    (h : Watches.Paired usable w.view) :
    .binary o r y ∈ w.view l ↔ ⟨l, o, r, y⟩ ∈ w.binaries ∨ ⟨o, l, r, y⟩ ∈ w.binaries := by
  rw [Watches.mem_binaries, Watches.mem_binaries]
  constructor
  · intro hm
    rcases Literal.before_of_ne (h.ne hm) with hlt | hlt
    · exact .inl ⟨hlt, hm⟩
    · exact .inr ⟨hlt, h.mem_symm.1 hm⟩
  · rintro (⟨-, hm⟩ | ⟨-, hm⟩)
    · exact hm
    · exact h.mem_symm.1 hm

namespace Solver

variable {ε : Type} {s s' s'' S T : Solver ε} {v : Valuation} {l o : Literal} {ls : List Literal} {ws : List Witnessed}
  {r y : Bool} {n : Nat}

/-- A valuation satisfies the literals assigned at the root, and every clause that is not garbage. -/
structure Respects (s : Solver ε) (v : Valuation) : Prop where
  /-- Literals assigned at the root. -/
  root : ∀ l ∈ s.trail.literals, s.assignment.level l = 0 → v.makesTrue l = true
  /-- Clauses of the store. -/
  large : ∀ o ∈ s.store.offsets, (s.store.flagsAt o).garbage = false → v.Satisfies (s.store.lits o)
  /-- Binary clauses. -/
  binary : ∀ l o r h, .binary o r h ∈ s.watches.view l → v.Satisfies [l, o]

theorem Respects.base (h : s.Respects v) : s.Base v where
  root := h.root
  large o ho _ hg := h.large o ho hg
  binary l o y hm := h.binary l o false y hm

/-- What one or more rounds do. -/
structure Strips (s s' : Solver ε) : Prop extends Grows s s' where
  /-- Another round may follow. -/
  rooted : s'.Rooted
  /-- No clause is added. -/
  respects : ∀ v, s.Respects v → s'.Respects v

theorem Strips.trans (h : Strips s s') (h' : Strips s' s'') : Strips s s'' :=
  ⟨h.toGrows.trans h'.toGrows, h'.rooted, fun v hv => h'.respects v (h.respects v hv)⟩

/-- Nothing is done. -/
theorem Rooted.strips (h : s.Rooted) : Strips s s :=
  ⟨(Advances.refl s).evolves.toGrows, h, fun _ hv => hv⟩

/-! ## One round -/

/-- Clauses with a pure literal are removed. -/
theorem Purged.strips (hP : Purged S ls ws T) (h : S.Rooted) (hp : S.Pure ls) : Strips S T := by
  have hst := hP.purging.store
  refine ⟨(hP.evolves h hp).toGrows, hP.rooted h hp, ?_⟩
  intro v hv
  refine ⟨?_, ?_, ?_⟩
  · rw [hP.trail, hP.assignment]
    exact hv.root
  · intro o ho hg
    have hoS : o ∈ S.store.offsets := hst.offsets ▸ ho
    rw [hst.lits o hoS]
    exact hv.large o hoS (hP.purging.live o hoS hg).1
  · intro l o r y hm
    exact hv.binary l o r y ((hP.sublist l).subset hm)

namespace Repacked

variable (h : Repacked s s') (hs : s.Rooted)
include h hs

/-- A dense collection at the root makes no binary clause of another one, and drops none. -/
theorem binaries : s'.watches.binaries.Perm s.watches.binaries := by
  have hnone : (s.survivors .dense 0 s.store.offsets).filterMap (s.pairOf? .dense) = [] := by
    rw [List.filterMap_eq_nil_iff]
    intro o ho
    exact pairOf?_of_long (three_le_residue hs.chain (List.mem_of_mem_filter ho))
  have hperm := h.accounted.binary
  rwa [filter_keepsBinary_dense, hnone, List.append_nil] at hperm

theorem mem_view : .binary o r y ∈ s'.watches.view l ↔ .binary o r y ∈ s.watches.view l := by
  have hperm := h.binaries hs
  rw [h.rooted.paired.mem_iff, hs.paired.mem_iff, hperm.mem_iff, hperm.mem_iff]

/-- A dense collection neither adds a clause nor drops one that is not garbage. -/
theorem strips : Strips s s' := by
  obtain ⟨hleft, hcame⟩ := h.accounted.matched hs
  have hrooted := h.rooted
  have hview : ∀ l o r y, .binary o r y ∈ s'.watches.view l ↔ .binary o r y ∈ s.watches.view l :=
    fun _ _ _ _ => h.mem_view hs
  obtain ⟨counters, store, watches, recent, rfl⟩ := h.eq
  refine ⟨⟨rfl, rfl, rfl, fun _ hv => hv, rfl, id, [], rfl, by simp, ?_⟩, hrooted, ?_⟩
  · intro v hv
    refine ⟨hv.root, ?_, ?_⟩
    · intro o ho hr hg
      obtain ⟨o', hl⟩ := hleft o ho hg
      obtain ⟨m, hm, ht⟩ := hv.large o' hl.mem (hl.redundant.trans hr) (hl.garbage.trans hg)
      exact ⟨m, hl.lits.mem_iff.1 hm, ht⟩
    · intro l o y hm
      exact hv.binary l o y ((hview l o false y).2 hm)
  · intro v hv
    refine ⟨hv.root, ?_, ?_⟩
    · intro o' ho' _
      obtain ⟨o, hl, hg⟩ := hcame o' ho'
      obtain ⟨m, hm, ht⟩ := hv.large o hl.source hg
      exact ⟨m, hl.lits.mem_iff.2 hm, ht⟩
    · intro l o r y hm
      exact hv.binary l o r y ((hview l o r y).1 hm)

end Repacked

/-- A round at the root meets no fault.  It says how many variables were eliminated, and if none was, no literal is
pure. -/
theorem Rooted.ends_eliminatePure (h : s.Rooted) :
    Ends eliminatePure s
      (fun n s' => Strips s s' ∧ s'.active + n = s.active ∧ (n = 0 → s'.pureLiterals = [])) fun _ _ => False := by
  have hp := pure_pureLiterals h
  have hpurge := ends_purge h hp
  generalize hls : s.pureLiterals = ls at hp hpurge
  unfold eliminatePure
  rw [ends_bind, ends_get]
  simp only [hls]
  rw [ends_ite, ends_pure]
  refine ⟨?_, ?_⟩
  · intro hnil
    exact ⟨h.strips, rfl, fun _ => hls.trans (List.isEmpty_iff.1 hnil)⟩
  · intro hne
    simp only [ends_bind, ends_get, ends_modify, ends_pure] at hpurge ⊢
    refine hpurge.imp ?_ fun _ _ hf => hf
    intro _ T hT
    obtain ⟨ws, hP⟩ := hT
    have hstrips := hP.strips h hp
    refine hstrips.rooted.ends_collect.imp ?_ fun _ _ hf => hf
    intro _ s' hs'
    refine ⟨hstrips.trans (hs'.strips hstrips.rooted), ?_, ?_⟩
    · obtain ⟨_, _, _, _, rfl⟩ := hs'.eq
      exact hP.active
    · intro hn
      exact absurd (List.isEmpty_iff.2 (List.length_eq_zero_iff.1 hn)) hne

/-! ## All rounds -/

/-- A literal occurs in a clause that is not garbage. -/
def Occurs (s : Solver ε) (l : Literal) : Prop :=
  (∃ o ∈ s.store.offsets, (s.store.flagsAt o).garbage = false ∧ l ∈ s.store.lits o) ∨
    ∃ o r h, .binary o r h ∈ s.watches.view l

/-- No variable that is neither assigned nor eliminated occurs with one polarity only. -/
def Mixed (s : Solver ε) : Prop :=
  ∀ l, s.Occurs l → s.val l = .unassigned → s.numbering.isEliminated l.var = false → s.Occurs (-l)

/-- Where no literal is pure, all that occur do so with both polarities. -/
theorem Rooted.mixed (h : s.Rooted) (hnone : s.pureLiterals = []) : s.Mixed := by
  intro l hl hval helim
  by_contra hneg
  have hpure : l ∈ s.pureLiterals :=
    mem_pureLiterals.2 ⟨⟨(mem_liveLiterals h).2 hl, fun hm => hneg ((mem_liveLiterals h).1 hm)⟩, hval, helim⟩
  rw [hnone] at hpure
  simp at hpure

/-- Rounds one after another, and whether they were cut short since it was asked to stop. -/
inductive Rounds : Solver ε → Bool → Solver ε → Prop
  /-- It is asked to stop. -/
  | stop {s s' : Solver ε} : s.isTerminated = (true, s') → Rounds s true s'
  /-- A round eliminates no variable. -/
  | done {s s₁ s' : Solver ε} : s.isTerminated = (false, s₁) → eliminatePure s₁ = .ok 0 s' → Rounds s false s'
  /-- A round eliminates some variables. -/
  | more {s s₁ s₂ s' : Solver ε} {n : Nat} {cut : Bool} : s.isTerminated = (false, s₁) →
      eliminatePure s₁ = .ok (n + 1) s₂ → Rounds s₂ cut s' → Rounds s cut s'

/-- It does not matter whether it is asked to stop. -/
theorem Rooted.isTerminated (h : s.Rooted) : Strips s s.isTerminated.2 ∧ s.isTerminated.2.active = s.active := by
  have hadv := (advances_isTerminated s).evolves.toGrows
  obtain ⟨e, he⟩ := isTerminated_eq s
  rw [he] at hadv ⊢
  exact ⟨⟨hadv, { h with frame := { h.frame with }, clean := { h.clean with } }, fun _ hv => { hv with }⟩, rfl⟩

/-- The rounds come to an end, since each but the last eliminates a variable.  In the end no literal is pure, unless they
were cut short. -/
theorem Rooted.ends_eliminateRounds (h : s.Rooted) (hn : s.active < n) :
    Ends (eliminateRounds n) s
      (fun _ s' => Strips s s' ∧ ∃ cut, Rounds s cut s' ∧ (cut = false → s'.Mixed)) fun _ _ => False := by
  induction n generalizing s with
  | zero => exact absurd hn (Nat.not_lt_zero _)
  | succ n ih =>
    obtain ⟨hask, hactive⟩ := h.isTerminated
    unfold eliminateRounds
    simp only [ends_bind, ends_modifyGet, ends_ite, ends_pure]
    generalize hterm : s.isTerminated = x at hask hactive
    obtain ⟨stopped, s₁⟩ := x
    refine ⟨?_, ?_⟩
    · intro hstop
      obtain rfl : stopped = true := hstop
      exact ⟨hask, true, .stop hterm, by simp⟩
    · intro hgo
      obtain rfl : stopped = false := Bool.not_eq_true _ ▸ hgo
      obtain ⟨count, s₂, hround, hstrips, hfewer, hnone⟩ := hask.rooted.ends_eliminatePure.exists_ok
      have hsame : Ends eliminatePure s₁ (fun k s' => k = count ∧ s' = s₂) fun _ _ => False :=
        (ends_of_ok hround).2 ⟨rfl, rfl⟩
      refine (ends_tryCatch hsame).imp ?_ fun _ _ hf => hf
      rintro _ _ ⟨rfl, rfl⟩
      have hsofar := hask.trans hstrips
      refine ⟨?_, ?_⟩
      · rintro rfl
        exact ⟨hsofar, false, .done hterm hround, fun _ => hstrips.rooted.mixed (hnone rfl)⟩
      · intro hne
        obtain ⟨k, rfl⟩ := Nat.exists_eq_succ_of_ne_zero hne
        have hactive : s₁.active = s.active := hactive
        refine (ih hstrips.rooted (by omega)).imp ?_ fun _ _ hf => hf
        rintro _ s' ⟨hrest, cut, hrounds, hmixed⟩
        exact ⟨hsofar.trans hrest, cut, .more hterm hround hrounds, hmixed⟩

end Solver

end ClauseLearning

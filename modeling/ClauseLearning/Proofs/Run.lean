import ClauseLearning.Proofs.Search
import Mathlib.Logic.Relation

/-!
# Runs

A solve, taken apart at the places where one may want to look at its state.  Each step from one place to the next is
a procedure of the solver, or how it ends.  A run is *prompt* if going back never stopped above the jump level of a
learnt clause that is no unit.

* `Place`, `Solver.Step`, `Solver.Run` — places, steps, and runs.
* `Solver.run_pass`, `Solver.run_solve` — a pass is a run, and so is a solve.
* `Solver.At`, `Solver.At.intact` — what holds at a place, and at each of them.
* `Solver.Run.at` — and at every place that a run comes to.
-/

namespace ClauseLearning

/-- A place in a run at which its state is looked at. -/
inductive Place where
  /-- Clauses were added. -/
  | loaded
  /-- A pass is to begin. -/
  | ready
  /-- What is outside was taken over. -/
  | imported
  /-- Everything was propagated. -/
  | propagated
  /-- Propagation ended in a conflict. -/
  | conflicted (key : Key)
  /-- A conflict was analyzed. -/
  | analyzed (jump glue : Nat)
  /-- The solve ended with a report. -/
  | ended (report : Report)
  /-- The solve ended with a fault. -/
  | failed (fault : Fault)
deriving DecidableEq, Repr

namespace Solver

variable {ε : Type}

/-- Begins a pass. -/
def beginPass (s : Solver ε) : Solver ε := s.count fun c => { c with iterations := c.iterations + 1 }

/-- Takes note of a conflict. -/
def noteConflict (s : Solver ε) : Solver ε := s.count fun c => { c with conflicts := c.conflicts + 1 }

/-- Ends a solve after a fault. -/
def fail (s : Solver ε) : Solver ε := { s with status := .unknown }

/-- Whether learning the clause of the last analysis goes back to its jump level. -/
def Prompt (s : Solver ε) (jump : Nat) : Prop := s.learned.size ≤ 1 ∨ s.backtrackLevel jump = jump

/-- One step of a run. -/
inductive Step (prompt : Bool) : Place × Solver ε → Place × Solver ε → Prop
  /-- A solve begins. -/
  | start {s s'} : startSolve s = .ok none s' → Step prompt (.loaded, s) (.ready, s')
  /-- A solve ends before its search. -/
  | answer {s s' r} : startSolve s = .ok (some r) s' → Step prompt (.loaded, s) (.ended r, s')
  /-- A solve cannot begin. -/
  | refuse {s s' e} : startSolve s = .error e s' → Step prompt (.loaded, s) (.failed e, s')
  /-- At the root, what is outside is taken over. -/
  | take {s s'} : importPass s.beginPass = .ok () s' → ¬ (s'.trail.level = 0 ∧ s'.inconsistent) →
      Step prompt (.ready, s) (.imported, s')
  /-- What was taken over has no model. -/
  | refute {s s'} : importPass s.beginPass = .ok () s' → s'.trail.level = 0 ∧ s'.inconsistent →
      Step prompt (.ready, s) (.ended .unsatisfiable, conclude .unsatisfiable s')
  /-- What is outside cannot be taken over. -/
  | untaken {s s' e} : importPass s.beginPass = .error e s' → Step prompt (.ready, s) (.failed e, s'.fail)
  /-- Propagation comes to its end. -/
  | propagate {s s'} : propagatePass s = .ok none s' → Step prompt (.imported, s) (.propagated, s')
  /-- Propagation ends in a conflict. -/
  | conflict {s s' key} :
      propagatePass s = .ok (some key) s' → Step prompt (.imported, s) (.conflicted key, s')
  /-- Propagation meets another fault. -/
  | unpropagated {s s' e} :
      propagatePass s = .error e s' → Step prompt (.imported, s) (.failed e, s'.fail)
  /-- A conflict is analyzed. -/
  | analyze {s s' key jump glue} : analyze key s.noteConflict = .ok (.asserting jump glue) s' →
      Step prompt (.conflicted key, s) (.analyzed jump glue, s')
  /-- A conflict means that there is no model. -/
  | fundamental {s s' key} : Solver.analyze key s.noteConflict = .ok .fundamental s' →
      Step prompt (.conflicted key, s) (.ended .unsatisfiable, conclude .unsatisfiable s'.refute)
  /-- A conflict cannot be analyzed. -/
  | unanalyzed {s s' key e} : Solver.analyze key s.noteConflict = .error e s' →
      Step prompt (.conflicted key, s) (.failed e, s'.fail)
  /-- A clause is learnt. -/
  | learn {s s' jump glue} : (prompt = true → s.Prompt jump) → learn jump glue s = .ok () s' →
      Step prompt (.analyzed jump glue, s) (.ready, s')
  /-- A clause cannot be learnt. -/
  | unlearnt {s s' jump glue e} : (prompt = true → s.Prompt jump) → Solver.learn jump glue s = .error e s' →
      Step prompt (.analyzed jump glue, s) (.failed e, s'.fail)
  /-- A pass goes on without a conflict. -/
  | advance {s s'} : advance s = .ok none s' → Step prompt (.propagated, s) (.ready, s')
  /-- A pass ends the search. -/
  | finish {s s' r} : Solver.advance s = .ok (some r) s' →
      Step prompt (.propagated, s) (.ended r, conclude r s')
  /-- A pass cannot go on. -/
  | unfinished {s s' e} :
      Solver.advance s = .error e s' → Step prompt (.propagated, s) (.failed e, s'.fail)

/-- A run from one place to another. -/
abbrev Run (prompt : Bool) (x y : Place × Solver ε) : Prop := Relation.ReflTransGen (Step prompt) x y

variable {prompt : Bool} {s s' s'' S : Solver ε} {key : Key} {jump glue : Nat} {place place' : Place}

/-! ## A solve is a run -/

/-- Where a part of a search comes to, by its report. -/
def reported (report : Option Report) (s : Solver ε) : Place × Solver ε :=
  match report with
  | none => (.ready, s)
  | some report => (.ended report, conclude report s)

theorem ends_self {σ α : Type} (x : EStateM Fault σ α) (s : σ) :
    Ends x s (fun a s' => x s = .ok a s') fun e s' => x s = .error e s' := by
  unfold Ends
  split <;> rename_i hx
  · exact hx
  · exact hx

/-- A part of a search is a run that goes on from a place. -/
abbrev Continues (x : SolverM ε (Option Report)) (s : Solver ε) (from' : Place × Solver ε) : Prop :=
  Ends x s (fun report s' => Run false from' (reported report s')) fun e s' => Run false from' (.failed e, s'.fail)

theorem run_resolveConflict (key : Key) (s : Solver ε) :
    Continues (resolveConflict key) s (.conflicted key, s) := by
  unfold Continues resolveConflict
  simp only [ends_bind, ends_modify]
  refine (ends_self (analyze key) s.noteConflict).imp (fun out s₁ h₁ => ?_) fun e s₁ h₁ => .single (.unanalyzed h₁)
  cases out with
  | fundamental =>
    simp only [ends_bind, ends_modify, ends_pure]
    exact .single (.fundamental h₁)
  | asserting jump glue =>
    simp only [ends_bind, ends_pure]
    refine (ends_self (learn jump glue) s₁).imp (fun _ s₂ h₂ => ?_) fun e s₂ h₂ => ?_
    · exact (Relation.ReflTransGen.single (.analyze h₁)).tail (.learn (fun hf => by simp at hf) h₂)
    · exact (Relation.ReflTransGen.single (.analyze h₁)).tail (.unlearnt (fun hf => by simp at hf) h₂)

theorem run_advance (s : Solver ε) : Continues advance s (.propagated, s) := by
  refine (ends_self advance s).imp (fun report s₁ h₁ => ?_) fun e s₁ h₁ => .single (.unfinished h₁)
  cases report with
  | none => exact .single (.advance h₁)
  | some report => exact .single (.finish h₁)

/-- A pass is a run, of one step or more. -/
theorem run_pass (s : Solver ε) :
    Ends pass s (fun report s' => Relation.TransGen (Step false) (.ready, s) (reported report s'))
      fun e s' => Relation.TransGen (Step false) (.ready, s) (.failed e, s'.fail) := by
  unfold pass
  simp only [ends_bind, ends_modify, ends_get, ends_ite, ends_pure]
  refine (ends_self importPass s.beginPass).imp (fun _ s₁ h₁ => ⟨fun hr => ?_, fun hn => ?_⟩)
    fun e s₁ h₁ => .single (.untaken h₁)
  · exact .single (.refute h₁ hr)
  have htake : Relation.TransGen (Step false) (.ready, s) (.imported, s₁) := .single (.take h₁ hn)
  refine (ends_self propagatePass s₁).imp (fun out s₂ h₂ => ?_) fun e s₂ h₂ => htake.tail (.unpropagated h₂)
  cases out with
  | some key =>
    have hc : Relation.TransGen (Step false) (.ready, s) (.conflicted key, s₂) := htake.tail (.conflict h₂)
    exact (run_resolveConflict key s₂).imp (fun _ _ h => hc.trans_left h) fun _ _ h => hc.trans_left h
  | none =>
    have hp : Relation.TransGen (Step false) (.ready, s) (.propagated, s₂) := htake.tail (.propagate h₂)
    exact (run_advance s₂).imp (fun _ _ h => hp.trans_left h) fun _ _ h => hp.trans_left h

/-- Passes up to a report are a run. -/
theorem run_search (n : Nat) (s : Solver ε) : Continues (search n) s (.ready, s) := by
  induction n generalizing s with
  | zero => exact .refl
  | succ n ih =>
    unfold Continues search
    simp only [ends_bind]
    refine (run_pass s).imp (fun report s₁ h₁ => ?_) fun _ _ he => he.to_reflTransGen
    cases report with
    | some report => exact h₁.to_reflTransGen
    | none => exact (ih s₁).imp (fun _ _ h => h₁.to_reflTransGen.trans h) fun _ _ h => h₁.to_reflTransGen.trans h

/-- A solve is a run. -/
theorem run_solve (n : Nat) (s : Solver ε) :
    Ends (solve n) s (fun report s' => Run false (.loaded, s) (report.elim .ready .ended, s'))
      fun e s' => Run false (.loaded, s) (.failed e, s') := by
  unfold solve
  simp only [ends_bind]
  refine (ends_self startSolve s).imp (fun report s₁ h₁ => ?_) fun e s₁ h₁ => .single (.refuse h₁)
  cases report with
  | some report => exact .single (.answer h₁)
  | none =>
    have hstart : Run false (.loaded, s) (.ready, s₁) := .single (.start h₁)
    simp only [ends_ending]
    refine (run_search n s₁).imp (fun report s₂ h₂ => ?_) fun e s₂ h₂ => hstart.trans h₂
    cases report with
    | none => exact hstart.trans h₂
    | some report => exact hstart.trans h₂

/-! ## What holds at a place -/

/-- What holds at a place of a run.  Unless the run is prompt, a learnt clause may be late. -/
def At (prompt : Bool) (F : List (List Literal)) : Place × Solver ε → Prop
  | (.loaded, s) => s.Loaded (prompt = false) F
  | (.ready, s) => s.Live (prompt = false)
  | (.imported, s) => s.Live (prompt = false)
  | (.propagated, s) => s.Quiet (prompt = false)
  | (.conflicted key, s) => Conflicted (prompt = false) s key ∧ s.inconsistent = false
  | (.analyzed jump glue, s) => s.inconsistent = false ∧
      ∃ key S, Conflicted (prompt = false) S key ∧ Analyzed (prompt = false) S s jump glue
  | (.ended r, s) => ∃ s₁, After (prompt = false) (some r) s₁ ∧ s = conclude r s₁
  | (.failed e, s) => (e = .exhausted ∨ e = .unterminatedClause ∧ s.pending ≠ #[]) ∧ s.Settled (prompt = false)

/-- Nor does what is noted at the end of a solve. -/
theorem Settled.conclude {lags : Prop} (h : s.Settled lags) (report : Report) :
    (Solver.conclude report s).Settled lags := by
  unfold Solver.conclude
  split
  · obtain ⟨p, hp, hfull⟩ := h
    exact ⟨p, { hp with
      toFrame := { hp.toFrame with }
      toWired := { hp.toWired with }
      toClean := { hp.toClean with } }, hfull⟩
  · exact h.setStatus _

theorem After.settled {lags : Prop} {report : Option Report} (h : After lags report s) : s.Settled lags := by
  cases report with
  | none => exact Live.settled h
  | some report =>
    cases report with
    | satisfiable => exact h.1.live.settled
    | unsatisfiable => exact h.1.settled h.2
    | unknown => exact (Quiet.live h).settled

/-- The invariant holds at every place, however far propagation has come. -/
theorem At.intact {F : List (List Literal)} (h : At prompt F (place, s)) : s.Intact (prompt = false) := by
  cases place with
  | loaded => exact h.settled.intact
  | ready => exact h.inv.intact
  | imported => exact h.inv.intact
  | propagated => exact h.inv.intact
  | conflicted key =>
    obtain ⟨p, hp, -⟩ := h.1.inv
    exact hp.intact
  | analyzed jump glue =>
    obtain ⟨-, key, S, hc, ha⟩ := h
    obtain ⟨p, hp, -⟩ := hc.inv
    exact (ha.inv p hp).intact
  | ended r =>
    obtain ⟨s₁, ha, rfl⟩ := h
    exact (ha.settled.conclude r).intact
  | failed e => exact h.2.intact

/-- A fault does not matter for what is known. -/
theorem evolves_fail (s : Solver ε) : Evolves s s.fail := evolves_status s .unknown

/-- Nor does the end of a solve. -/
theorem evolves_conclude (r : Report) (s : Solver ε) : Evolves s (conclude r s) := by
  have hmodel : ∀ model status, Evolves s { s with model, status } := fun _ _ =>
    ⟨⟨rfl, rfl, rfl, fun _ => id, rfl, id, [], rfl, by simp, fun _ hv => { hv with }⟩,
      fun _ hk => ⟨hk.hooks, hk.sound, fun ht => { hk.holds ht with }, hk.learned⟩⟩
  unfold conclude
  split
  · exact hmodel _ _
  · exact hmodel s.model _

variable {F : List (List Literal)}

/-- What holds at a place where a part of a search reports. -/
theorem at_reported (report : Option Report) (ha : After (prompt = false) report s) (hev : Evolves S s) :
    At prompt F (reported report s) ∧ Evolves S (reported report s).2 := by
  cases report with
  | none => exact ⟨ha, hev⟩
  | some r => exact ⟨⟨s, ha, rfl⟩, hev.trans (evolves_conclude r s)⟩

/-- What holds at a place where there is no room. -/
theorem at_failed (h : s.Settled (prompt = false)) (hev : Evolves S s) :
    At prompt F (.failed .exhausted, s.fail) ∧ Evolves S s.fail :=
  ⟨⟨.inl rfl, h.setStatus _⟩, hev.trans (evolves_fail s)⟩

theorem aside_beginPass (s : Solver ε) : Aside s s.beginPass := aside_count s _

/-- Taking note of a conflict does not matter for it. -/
theorem Conflicted.note {lags : Prop} (h : Conflicted lags s key) (hi : s.inconsistent = false) :
    Conflicted lags s.noteConflict key ∧ s.noteConflict.inconsistent = false ∧ Advances s s.noteConflict :=
  have ha : Aside s s.noteConflict := aside_count s _
  ⟨h.aside ha, hi, ha.refines.advances ha.learned⟩

/-- What was learnt from a conflict may be stored, with what holds then. -/
theorem Analyzed.ends_learn {lags : Prop} (hc : Conflicted lags s key) (h : Analyzed lags s s' jump glue)
    (hlags : ¬ s'.Prompt jump → lags) :
    Ends (learn jump glue) s'
      (fun _ s'' => s''.Inv lags s''.trail.propagated ∧ Advances s' s'' ∧ s''.inconsistent = s'.inconsistent)
      (fun e s'' => e = .exhausted ∧ s''.Settled lags ∧ Advances s' s'') := by
  obtain ⟨p, hp, -, hlev⟩ := hc.inv
  obtain ⟨a, rest, hl, hass, -⟩ := h.learned
  have hsize : s'.learned.size = rest.length + 1 := by
    rw [← Array.length_toList, hl, List.length_cons]
  refine (Solver.ends_learn (h.inv p hp) (by rw [h.trail]; exact hlev) hass hl fun hne hk =>
    hlags fun hprompt => ?_).imp (fun _ _ h' => h') fun _ _ h' => ⟨h'.1, ⟨_, h'.2.1, fun _ => rfl⟩, h'.2.2.1⟩
  rcases hprompt with hle | he
  · have := List.length_pos_iff.2 hne
    omega
  · exact hk he

/-- One step of a run. -/
theorem Step.at {x y : Place × Solver ε} (h : Step prompt x y) (hx : At prompt F x) :
    At prompt F y ∧ Evolves x.2 y.2 := by
  cases h with
  | start he =>
    obtain ⟨-, hc, -⟩ := hx.ends_startSolve.of_ok he
    exact hc
  | answer he =>
    obtain ⟨-, ⟨s₁, ha, hev, rfl⟩, -⟩ := hx.ends_startSolve.of_ok he
    exact at_reported _ ha hev
  | refuse he =>
    obtain ⟨rfl, hp, rfl⟩ := hx.ends_startSolve.of_error he
    exact ⟨⟨.inr ⟨rfl, hp⟩, hx.settled⟩, (Advances.refl _).evolves⟩
  | take he hn =>
    obtain ⟨hl, hadv⟩ := hx.aside (aside_beginPass _)
    obtain ⟨hset, hlev, hadv', hcons⟩ := (ends_importPass hl).of_ok he
    refine ⟨hset.live ?_, (hadv.trans hadv').evolves⟩
    rw [← Bool.not_eq_true]
    intro hi
    refine hn ⟨?_, hi⟩
    by_contra h0
    rw [hcons (hlev ▸ h0)] at hi
    simp at hi
  | refute he hr =>
    obtain ⟨hl, hadv⟩ := hx.aside (aside_beginPass _)
    obtain ⟨hset, -, hadv', -⟩ := (ends_importPass hl).of_ok he
    exact at_reported (some .unsatisfiable) ⟨hset.intact, hr.2⟩ (hadv.trans hadv').evolves
  | untaken he =>
    obtain ⟨hl, hadv⟩ := hx.aside (aside_beginPass _)
    obtain ⟨rfl, hs, hadv'⟩ := (ends_importPass hl).of_error he
    exact at_failed hs (hadv.trans hadv').evolves
  | propagate he =>
    obtain ⟨-, -, hadv, hq⟩ := (ends_propagatePass hx).of_ok he
    exact ⟨hq, hadv.evolves⟩
  | conflict he =>
    obtain ⟨hi, -, hadv, hc⟩ := (ends_propagatePass hx).of_ok he
    exact ⟨⟨hc, hi⟩, hadv.evolves⟩
  | unpropagated he => exact ((ends_propagatePass hx).of_error he).elim
  | analyze he =>
    obtain ⟨hc, hi, hadv⟩ := hx.1.note hx.2
    have ha := (ends_analyze hc).of_ok he
    exact ⟨⟨ha.inconsistent.trans hi, _, _, hc, ha⟩, (hadv.trans ha.advances).evolves⟩
  | fundamental he =>
    obtain ⟨hc, -, hadv⟩ := hx.1.note hx.2
    obtain ⟨rfl, h0⟩ := (ends_analyze hc).of_ok he
    obtain ⟨p, hp, -, -⟩ := hc.inv
    have href := refines_refute fun v => hc.conflict.not_holds hp.toFrame h0 v
    exact at_reported (some .unsatisfiable) ⟨hp.refute.intact, rfl⟩ (hadv.trans (href.advances rfl)).evolves
  | unanalyzed he =>
    obtain ⟨hc, -, -⟩ := hx.1.note hx.2
    exact ((ends_analyze hc).of_error he).elim
  | learn hp he =>
    obtain ⟨hi, key, S, hc, ha⟩ := hx
    obtain ⟨hinv, hadv, hi'⟩ := (ha.ends_learn hc fun hn => by simpa using fun ht => hn (hp ht)).of_ok he
    exact ⟨⟨hinv, hi'.trans hi⟩, hadv.evolves⟩
  | unlearnt hp he =>
    obtain ⟨-, key, S, hc, ha⟩ := hx
    obtain ⟨rfl, hs, hadv⟩ := (ha.ends_learn hc fun hn => by simpa using fun ht => hn (hp ht)).of_error he
    exact at_failed hs hadv.evolves
  | advance he =>
    obtain ⟨ha, hadv⟩ := (goes_advance hx).of_ok he
    exact ⟨ha, hadv.evolves⟩
  | finish he =>
    obtain ⟨ha, hadv⟩ := (goes_advance hx).of_ok he
    exact at_reported _ ha hadv.evolves
  | unfinished he =>
    obtain ⟨rfl, hs, hadv⟩ := (goes_advance hx).of_error he
    exact at_failed hs hadv.evolves

/-- What holds at every place that a run comes to. -/
theorem Run.at {x y : Place × Solver ε} (h : Run prompt x y) (hx : At prompt F x) :
    At prompt F y ∧ Evolves x.2 y.2 := by
  induction h with
  | refl => exact ⟨hx, (Advances.refl _).evolves⟩
  | tail _ hstep ih =>
    obtain ⟨hy, hev⟩ := ih
    obtain ⟨hz, hev'⟩ := hstep.at hy
    exact ⟨hz, hev.trans hev'⟩

end Solver

end ClauseLearning

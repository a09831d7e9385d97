import ClauseLearning.Proofs.Fixpoint

/-!
# What a solver knows is entailed

The hooks of a solver are made to keep a record of what they hand in and out.  At every place of a run, all that the
solver knows is entailed by the clauses that were added together with those that were handed in so far, and so was
each clause at the time when it was handed out.

* `Event`, `Hooks.recorded` — the record, and hooks which keep it.
* `Event.given` — the clauses that were handed in.
* `Sound` — every clause was entailed when it was handed out.
* `Solver.Entailed` — all that a solver knows is entailed.
* `Solver.entailed_run` — runs from a fresh solver.
-/

namespace ClauseLearning

variable {ε : Type}

/-- What a hook handed in or out. -/
inductive Event where
  /-- A learnt clause was handed out. -/
  | exported (clause : List Int) (glue : Nat)
  /-- A unit was handed in. -/
  | unit (e : Int)
  /-- A clause was handed in. -/
  | clause (c : SharedClause)
deriving DecidableEq, Repr

/-- The clauses that were handed in. -/
def Event.given : List Event → List (List Literal)
  | [] => []
  | .exported _ _ :: log => given log
  | .unit e :: log => Numbering.toClause [e] :: given log
  | .clause c :: log => Numbering.toClause c.literals :: given log

theorem Event.given_append (log log' : List Event) : given (log ++ log') = given log ++ given log' := by
  induction log with
  | nil => rfl
  | cons x log ih => cases x <;> simp [given, ih]

/-- A source which keeps a record of what it hands out. -/
def Source.recorded {α : Type} (event : α → Event) (src : Source ε α) : Source (ε × List Event) α where
  next x := ((src.next x.1).1, (src.next x.1).2, x.2 ++ (src.next x.1).1.toList.map event)
  size x := src.size x.1
  size_lt {x x' a} h := by
    obtain ⟨h1, rfl⟩ := Prod.mk.inj h
    exact src.size_lt (Prod.ext h1 rfl)

/-- Hooks which keep a record of what they hand in and out. -/
def Hooks.recorded (h : Hooks ε) : Hooks (ε × List Event) where
  terminate := h.terminate.map fun f x => ((f x.1).1, (f x.1).2, x.2)
  exportClause := h.exportClause.map fun f ls glue x =>
    ((f ls glue x.1).1, (f ls glue x.1).2, x.2 ++ [.exported ls glue])
  units := h.units.map (Source.recorded .unit)
  clauses := h.clauses.map (Source.recorded .clause)

/-- Every clause was entailed when it was handed out, by a formula together with what was handed in before. -/
def Sound (formula : List (List Literal)) (log : List Event) : Prop :=
  ∀ before ls glue after, log = before ++ .exported ls glue :: after →
    Entails (formula ++ Event.given before) (ls.map Numbering.toLiteral)

/-- What a valuation that satisfies a formula says of a record. -/
def Satisfied (v : Valuation) (log : List Event) : Prop :=
  ∀ before ls glue after, log = before ++ .exported ls glue :: after →
    v.Models (Event.given before) → v.Satisfies (ls.map Numbering.toLiteral)

/-- One more event is recorded. -/
theorem Satisfied.snoc {v : Valuation} {log : List Event} {x : Event} (h : Satisfied v log)
    (hx : ∀ ls glue, x = .exported ls glue → v.Models (Event.given log) →
      v.Satisfies (ls.map Numbering.toLiteral)) : Satisfied v (log ++ [x]) := by
  intro before ls glue after he hm
  rcases List.eq_nil_or_concat after with rfl | ⟨after', y, rfl⟩
  · obtain ⟨rfl, hxe⟩ := List.append_inj' he rfl
    exact hx ls glue (List.singleton_inj.1 hxe) hm
  · have he' : log ++ [x] = (before ++ .exported ls glue :: after') ++ [y] := by simpa using he
    exact h before ls glue after' (List.append_inj' he' rfl).1 hm

/-- What a source that keeps a record says in a contract. -/
theorem Source.recorded_spec {α : Type} {event : α → Event} {clause : α → List Literal} (src : Source ε α)
    (hgiven : ∀ a, Event.given [event a] = [clause a]) (hnot : ∀ a ls glue, event a ≠ .exported ls glue)
    {v : Valuation} {x : ε × List Event} (hx : Satisfied v x.2) :
    Satisfied v ((src.recorded event).next x).2.2 ∧
      (v.Models (Event.given ((src.recorded event).next x).2.2) → v.Models (Event.given x.2) ∧
        ∀ a, ((src.recorded event).next x).1 = some a → v.Satisfies (clause a)) := by
  simp only [Source.recorded]
  cases (src.next x.1).1 with
  | none => simpa using hx
  | some a =>
    simp only [Option.toList_some, List.map_cons, List.map_nil, Event.given_append, hgiven, Option.some.injEq]
    refine ⟨hx.snoc fun ls glue he => absurd he (hnot a ls glue), fun hm => ⟨fun c hc => hm c (by simp [hc]), ?_⟩⟩
    rintro _ rfl
    exact hm _ (by simp)

/-- The contract of a valuation with hooks that keep a record. -/
def Contract.record (h : Hooks ε) (v : Valuation) : Contract h.recorded v where
  trusts x := v.Models (Event.given x.2)
  sound x := Satisfied v x.2
  terminate f hf x hx := by
    obtain ⟨f, -, rfl⟩ := Option.map_eq_some_iff.1 hf
    exact ⟨hx, id⟩
  exportClause f hf ls glue x hx hsat := by
    obtain ⟨f, -, rfl⟩ := Option.map_eq_some_iff.1 hf
    refine ⟨hx.snoc fun ls' glue' he => ?_, fun hm => ?_⟩
    · obtain ⟨rfl, rfl⟩ := Event.exported.inj he
      exact hsat
    · simpa [Event.given_append, Event.given] using hm
  units src hsrc x hx := by
    obtain ⟨src, -, rfl⟩ := Option.map_eq_some_iff.1 hsrc
    exact src.recorded_spec (fun _ => rfl) (by simp) hx
  clauses src hsrc x hx := by
    obtain ⟨src, -, rfl⟩ := Option.map_eq_some_iff.1 hsrc
    have hgiven : ∀ c : SharedClause, Event.given [.clause c] = [Numbering.toClause c.literals] := fun _ => rfl
    exact src.recorded_spec hgiven (by simp) hx

namespace Solver

/-- All that a solver knows is entailed by a formula. -/
structure Entailed (formula : List (List Literal)) (s : Solver ε) : Prop where
  /-- Each literal that is assigned at the root. -/
  root : ∀ l ∈ s.trail.literals, s.assignment.level l = 0 → Entails formula [l]
  /-- Each stored clause: learnt clauses and derived binary clauses are among them. -/
  stored : ∀ c redundant, s.Stored c redundant → Entails formula c
  /-- Each binary clause that was derived and is still to be stored. -/
  derived : ∀ x ∈ s.derived, Entails formula [x.1, x.2]
  /-- The clause learnt last. -/
  learned : s.learned ≠ #[] → Entails formula s.learned.toList
  /-- After a refutation, the formula has no model. -/
  refuted : s.inconsistent = true → ¬ Satisfiable formula

variable {C : Settings} {hooks : Hooks ε} {limits : Limits} {stopped : Bool} {outside : ε} {calls : List Call}
  {s₀ s : Solver (ε × List Event)} {place : Place} {formula : List (List Literal)}

/-- A solver that keeps the contract of every model of a formula knows only what is entailed. -/
theorem Entailed.of_told (h : ∀ v : Valuation, v.Models formula → Told (Contract.record hooks v) s) :
    Entailed (formula ++ Event.given s.outside.2) s := by
  have hsplit : ∀ {v : Valuation}, v.Models (formula ++ Event.given s.outside.2) →
      s.Holds v ∧ (s.learned = #[] ∨ v.Satisfies s.learned.toList) := fun {v} hv => by
    have htold := h v fun c hc => hv c (List.mem_append_left _ hc)
    have htrust : v.Models (Event.given s.outside.2) := fun c hc => hv c (List.mem_append_right _ hc)
    exact ⟨htold.holds htrust, htold.learned htrust⟩
  refine ⟨fun l hl h0 v hv => ⟨l, by simp, (hsplit hv).1.root l hl h0⟩, fun c r hc v hv => ?_,
    fun x hx v hv => (hsplit hv).1.derived x hx, fun hne v hv => (hsplit hv).2.resolve_left hne, fun hi ⟨v, hv⟩ => ?_⟩
  · cases hc with
    | large hr => exact (hsplit hv).1.large _ (Store.mem_references.1 hr).2
    | binary hm => exact (hsplit hv).1.binary _ _ _ _ hm
  · have := (hsplit hv).1.consistent
    rw [hi] at this
    exact Bool.noConfusion this

/-- A solver that keeps the contract of every model of a formula has handed out only what was entailed. -/
theorem sound_of_told (h : ∀ v : Valuation, v.Models formula → Told (Contract.record hooks v) s) :
    Sound formula s.outside.2 := fun before ls glue after he v hv =>
  (h v fun c hc => hv c (List.mem_append_left _ hc)).sound before ls glue after he fun c hc =>
    hv c (List.mem_append_right _ hc)

/-- What is so at every place of a run from a fresh solver. -/
theorem told_run (hload : calls.forM Call.run (fresh C hooks.recorded limits stopped (outside, [])) = .ok () s₀)
    (hrun : Run false (.loaded, s₀) (place, s)) {v : Valuation} (hv : v.Models (Call.formula calls)) :
    Told (Contract.record hooks v) s := by
  have h₀ : s₀.Loaded (false = false) (Call.formula calls) := loaded_run hload
  have hapart := apart_run hload
  refine (hrun.at h₀).2.told _ ⟨hapart.hooks, ?_, fun _ => h₀.holds v hv, fun _ => .inl h₀.learned⟩
  rw [hapart.outside]
  intro before ls glue after he
  have he : ([] : List Event) = before ++ .exported ls glue :: after := he
  simp at he

theorem inconsistent_conclude (report : Report) (s : Solver ε) :
    (conclude report s).inconsistent = s.inconsistent := by
  unfold conclude
  split <;> rfl

/-- A refutation stays to the end of a run. -/
theorem Run.unsatisfiable {F : List (List Literal)} {x : Place × Solver ε} {t : Solver ε} {report : Report}
    (h : Run false x (.ended report, t)) (hx : At false F x) (hi : x.2.inconsistent = true) :
    report = .unsatisfiable := by
  obtain ⟨⟨s₁, ha, rfl⟩, hev⟩ := h.at hx
  have ht := hev.inconsistent hi
  have hs₁ : s₁.inconsistent = true := inconsistent_conclude report s₁ ▸ ht
  cases report with
  | unsatisfiable => rfl
  | satisfiable => rw [ha.1.consistent] at hs₁; exact Bool.noConfusion hs₁
  | unknown => rw [ha.consistent] at hs₁; exact Bool.noConfusion hs₁

/-- A run ends with a refutation only if it found one. -/
theorem At.inconsistent {F : List (List Literal)} {t : Solver ε} (h : At false F (.ended .unsatisfiable, t)) :
    t.inconsistent = true := by
  obtain ⟨s₁, ha, rfl⟩ := h
  rw [inconsistent_conclude]
  exact ha.2

/-- At every place of a run from a fresh solver, all that is known is entailed by the clauses that were added together
with what was handed in so far, and each clause that was handed out was entailed by what there was then.  So a solve
that answers that there is no model is right, and after a refutation it gives no other answer. -/
theorem entailed_run (hload : calls.forM Call.run (fresh C hooks.recorded limits stopped (outside, [])) = .ok () s₀)
    (hrun : Run false (.loaded, s₀) (place, s)) :
    Entailed (Call.formula calls ++ Event.given s.outside.2) s ∧
      Sound (Call.formula calls) s.outside.2 ∧
      (place = .ended .unsatisfiable → ¬ Satisfiable (Call.formula calls ++ Event.given s.outside.2)) ∧
      (s.inconsistent = true → ∀ place' s', Run false (place, s) (place', s') →
        s'.inconsistent = true ∧ ∀ report, place' = .ended report → report = .unsatisfiable) ∧
      (∀ n s', solve n s₀ = .ok (some .unsatisfiable) s' →
        ¬ Satisfiable (Call.formula calls ++ Event.given s'.outside.2)) ∧
      ∀ (more : List Call) s', more.forM Call.run s₀ = .ok () s' → s₀.inconsistent = true →
        s'.inconsistent = true := by
  have h₀ : s₀.Loaded (false = false) (Call.formula calls) := loaded_run hload
  have hat := (hrun.at h₀).1
  have hent := Entailed.of_told fun v hv => told_run hload hrun hv
  refine ⟨hent, sound_of_told fun v hv => told_run hload hrun hv, fun he => ?_, fun hi place' s' hrun' => ⟨?_, ?_⟩,
    fun n s' hs => ?_, fun more s' hmore => (h₀.run hmore).2.1.inconsistent⟩
  · subst he
    exact hent.refuted hat.inconsistent
  · exact (hrun'.at hat).2.inconsistent hi
  · rintro report rfl
    exact hrun'.unsatisfiable hat hi
  · have hend : Run false (.loaded, s₀) (.ended .unsatisfiable, s') := (run_solve n s₀).of_ok hs
    exact (Entailed.of_told fun v hv => told_run hload hend hv).refuted (hend.at h₀).1.inconsistent

/-- A solve which takes over a unit, learns and hands out a clause, and ends with a refutation. -/
theorem entailed_run_refutation : ∃ s₀ s : Solver (List Int × List Event),
    [Call.clause [1, 2, 3], .clause [1, 2, -3], .clause [1, -2], .clause [-1, 4], .clause [-1, -4]].forM Call.run
      (fresh {} (Hooks.recorded { units := some ofList, exportClause := some fun _ _ e => (true, e) }) {} false
        ([-5], [])) = .ok () s₀ ∧
    Run false (.loaded, s₀) (.ended .unsatisfiable, s) ∧ s.outside.2 ≠ [] ∧
    Entailed (Call.formula [.clause [1, 2, 3], .clause [1, 2, -3], .clause [1, -2], .clause [-1, 4],
      .clause [-1, -4]] ++ Event.given s.outside.2) s ∧
    Sound (Call.formula [.clause [1, 2, 3], .clause [1, 2, -3], .clause [1, -2], .clause [-1, 4],
      .clause [-1, -4]]) s.outside.2 := by
  obtain ⟨s₀, report, s, hload, hs, htest⟩ := exists_outcome
    (fresh {} (Hooks.recorded { units := some ofList, exportClause := some fun _ _ e => (true, e) }) {} false
      (([-5], []) : List Int × List Event))
    [.clause [1, 2, 3], .clause [1, 2, -3], .clause [1, -2], .clause [-1, 4], .clause [-1, -4]] 10
    (fun report s => report = some .unsatisfiable ∧ 2 ≤ s.outside.2.length) (by decide +kernel)
  obtain ⟨rfl, hlog⟩ := of_decide_eq_true htest
  have hrun : Run false (.loaded, s₀) (.ended .unsatisfiable, s) := (run_solve 10 s₀).of_ok hs
  obtain ⟨hent, hsound, -⟩ := entailed_run hload hrun
  exact ⟨s₀, s, hload, hrun, fun hnil => by simp [hnil] at hlog, hent, hsound⟩

end Solver

end ClauseLearning

import ClauseLearning.Proofs.Asserting

/-!
# An analysis in two parts

The first part of an analysis resolves until one literal of the conflict level is left, and puts its negation first in
the learnt clause.  The second part removes redundant literals, and moves one on the highest level that is left to the
second place.

* `Solver.firstUip`, `Solver.finishAnalysis`, `Solver.ends_analyze_iff` — the two parts.
* `Solver.Isolated`, `Solver.ends_firstUip` — what holds between them.
* `Solver.exists_firstUip` — the two parts of the analysis of a conflict above the root.
-/

namespace ClauseLearning

namespace Solver

variable {ε : Type} {lags : Prop} {s t : Solver ε} {key : Key} {l : Literal}

/-- The first part of an analysis.  The answer is the conflict level. -/
def firstUip (conflict : Key) : SolverM ε Nat := do
  let ls ← ofExcept ((← get).keyLiterals conflict)
  let level := (← get).highestLevel ls
  modify fun s => s.backtrack level
  modify fun s => { s with learned := #[.invalid], analyzed := #[] }
  let opened ← noteAll level ls
  let last ← resolve level (← get).trail.size opened
  modify fun s => { s with learned := s.learned.setIfInBounds 0 (-last) }
  return level

/-- The second part of an analysis. -/
def finishAnalysis (level : Nat) : SolverM ε Analysis := do
  if (← get).settings.minimize.value then minimize level
  let s ← get
  let glue := s.glueOf level s.learned.toList
  let jump ← modifyGet placeSecond
  modify bumpAnalyzed
  modify fun s => s.averageGlue glue
  return .asserting jump glue

/-- Above the root, an analysis is its first part followed by its second part. -/
theorem ends_analyze_iff {ls : Array Literal} {Q : Analysis → Solver ε → Prop} {E : Fault → Solver ε → Prop}
    (hkey : s.keyLiterals key = .ok ls) (h0 : s.highestLevel ls ≠ 0) :
    Ends (analyze key) s Q E ↔ Ends (firstUip key) s (fun level t => Ends (finishAnalysis level) t Q E) E := by
  have hok : ∀ {P : Array Literal → Prop}, (∀ a, (.ok ls : Except Fault _) = .ok a → P a) ↔ P ls :=
    ⟨fun h => h ls rfl, fun h a ha => Except.ok.inj ha ▸ h⟩
  simp only [analyze, firstUip, finishAnalysis, ends_bind, ends_get, ends_ofExcept, hkey, hok, ends_ite, h0,
    ends_modify, ends_pure, ends_modifyGet, false_implies, not_false_eq_true, true_implies, true_and]

/-- What holds between the two parts of an analysis: the literal `l` is the only one of the conflict level whose
negation is in the learnt clause, and the other literals of the clause are the negations of those that were seen below
that level. -/
structure Isolated (S s : Solver ε) (l : Literal) (rest : List Literal) : Prop extends Minimized S s l where
  /-- The learnt clause. -/
  clause : s.learned.toList = -l :: rest
  /-- Its other literals. -/
  mem_rest : ∀ m, m ∈ rest ↔ m.var ∈ s.analyzed ∧ -m ∈ S.trail.literals ∧ S.assignment.level m < S.trail.level
  /-- The literal is on the conflict level. -/
  level : l ∈ S.trail.literals ∧ S.assignment.level l = S.trail.level

theorem Resolved.isolated (h : Resolved s t l) :
    ∃ rest, Isolated s { t with learned := t.learned.setIfInBounds 0 (-l) } l rest := by
  obtain ⟨rest, hrest, -, hiff⟩ := h.learned
  exact ⟨rest, h.minimized, by rw [Array.toList_setIfInBounds, hrest]; rfl, hiff, h.level⟩

/-- Above the root, the first part of an analysis meets no fault. -/
theorem ends_firstUip (h : Conflicted lags s key) (h0 : s.trail.level ≠ 0) :
    Ends (firstUip key) s (fun level t => level = s.trail.level ∧ ∃ l rest, Isolated s t l rest) fun _ _ => False := by
  obtain ⟨p, hinv, -, -⟩ := h.inv
  obtain ⟨ls, hkey, hls, hlevel⟩ := h.exists_literals
  unfold firstUip
  simp only [ends_bind, ends_get, ends_ofExcept, hkey, ends_pure, ends_modify]
  refine ⟨fun ls' hls' => ?_, fun e he => by simp at he⟩
  obtain rfl := Except.ok.inj hls'
  rw [hlevel, backtrack_of_le s (Nat.le_refl _)]
  refine (h.ends_noteAll h0 hls).imp (fun opened s₁ h₁ => ?_) fun _ _ hf => hf
  rw [h₁.trail]
  exact (ends_resolve hinv.toFrame hinv.toWired h0 h₁).imp (fun l s₂ h₂ => ⟨rfl, l, h₂.isolated⟩) fun _ _ hf => hf

/-- The two parts of the analysis of a conflict above the root. -/
theorem exists_firstUip (h : Conflicted lags s key) (h0 : s.trail.level ≠ 0) :
    ∃ t l rest jump glue s', firstUip key s = .ok s.trail.level t ∧ Isolated s t l rest ∧
      finishAnalysis s.trail.level t = .ok (.asserting jump glue) s' ∧
      analyze key s = .ok (.asserting jump glue) s' ∧ Analyzed lags s s' jump glue := by
  obtain ⟨_, t, hfirst, rfl, l, rest, hiso⟩ := (ends_firstUip h h0).exists_ok
  obtain ⟨ls, hkey, -, hlevel⟩ := h.exists_literals
  obtain ⟨out, s', he, hout⟩ := (ends_analyze h).exists_ok
  have hfinish := ((ends_analyze_iff hkey (by rwa [hlevel])).1 (ends_self (analyze key) s)).of_ok hfirst
  obtain ⟨out', s'', hfin, he'⟩ := ((hfinish.imp (fun _ _ h => h) fun _ _ hf => by
    rw [he] at hf
    cases hf) : Ends (finishAnalysis s.trail.level) t _ fun _ _ => False).exists_ok
  obtain ⟨rfl, rfl⟩ := EStateM.Result.ok.inj (he.symm.trans he')
  cases out with
  | fundamental => exact absurd hout.2 h0
  | asserting jump glue => exact ⟨t, l, rest, jump, glue, s', hfirst, hiso, hfin, he, hout⟩

end Solver

end ClauseLearning

import ClauseLearning.Proofs.FirstUip

/-!
# Nothing that is stored is learnt

In a prompt run, the literals below the level of a conflict heed every clause.  A learnt clause has only one literal
that is not the negation of one of those, so a stored clause that was part of it would have forced a literal before,
and there would be another conflict, on a lower level.

* `Solver.Stored.known` — what is stored is known.
* `Solver.Conflicted.not_subset` — no stored clause is part of a clause like those that are learnt.
* `Solver.learns_news` — conflicts during a search.
-/

namespace ClauseLearning

namespace Solver

variable {ε : Type} {lags : Prop} {s t s' s₀ : Solver ε} {key : Key} {a l : Literal} {rest c : List Literal}
  {redundant : Bool} {jump glue : Nat}

theorem Stored.known (h : s.Stored c redundant) : s.Known c := by
  cases h with
  | large hr => exact .inl ⟨_, (Store.mem_references.1 hr).2, rfl⟩
  | binary hm => exact .inr (.inl ⟨_, _, _, _, hm, rfl⟩)

/-- A stored clause is not empty. -/
theorem Stored.exists_mem {p : Nat} (hc : s.Stored c redundant) (h : s.Inv lags p) : ∃ l, l ∈ c := by
  cases hc with
  | large hr =>
    have h3 := (h.store.hasAt (Store.mem_references.1 hr).2).three
    exact ⟨_, Store.literalAt_mem (i := 0) (Nat.lt_of_lt_of_le (by decide) h3)⟩
  | binary hm => exact ⟨_, List.mem_cons_self ..⟩

/-- Where propagation ended in a conflict and no clause is late, no stored clause is part of a clause with one literal
on the conflict level and all others false below it. -/
theorem Conflicted.not_subset (h : Conflicted lags s key) (hlags : ¬ lags) (h0 : s.trail.level ≠ 0)
    (ha : s.assignment.level a = s.trail.level)
    (hrest : ∀ m ∈ rest, -m ∈ s.trail.literals ∧ s.assignment.level m < s.trail.level) (hc : s.Stored c redundant) :
    ¬ c ⊆ a :: rest := by
  intro hsub
  obtain ⟨p, hinv, -, hp⟩ := h.inv
  obtain ⟨k, hk⟩ := Nat.exists_eq_succ_of_ne_zero h0
  -- the levels below the conflict were propagated, so their literals heed the clause
  have hheeds : Heeds (s.UpToLevel k) c := hinv.heeds hlags (by omega) (by rwa [← Nat.succ_eq_add_one, ← hk]) hc.known
  have hbelow : ∀ m ∈ rest, s.UpToLevel k (-m) := by
    intro m hm
    obtain ⟨h1, h2⟩ := hrest m hm
    exact ⟨h1, by rw [Assignment.level_negate]; omega⟩
  by_cases hac : a ∈ c
  · have := (hheeds a hac fun m hm hne => hbelow m ((List.mem_cons.1 (hsub hm)).resolve_left hne)).2
    omega
  · obtain ⟨l, hl⟩ := hc.exists_mem hinv
    obtain ⟨m, hm, hn⟩ := hheeds.exists_not (hinv.toFrame.consistent_upToLevel k) hl
    refine hn (hbelow m ((List.mem_cons.1 (hsub hm)).resolve_left ?_))
    rintro rfl
    exact hac hm

/-- The clause that the first part of an analysis ends with. -/
theorem Isolated.not_subset (h : Isolated s t l rest) (hc : Conflicted lags s key) (hlags : ¬ lags)
    (h0 : s.trail.level ≠ 0) (hstored : s.Stored c redundant) : ¬ c ⊆ t.learned.toList := by
  rw [h.clause]
  exact hc.not_subset hlags h0 ((Assignment.level_negate ..).trans h.level.2) (fun m hm => ((h.mem_rest m).1 hm).2)
    hstored

/-- The clause that the whole analysis ends with. -/
theorem Analyzed.not_subset (h : Analyzed lags s s' jump glue) (hc : Conflicted lags s key) (hlags : ¬ lags)
    (h0 : s.trail.level ≠ 0) (hstored : s.Stored c redundant) : ¬ c ⊆ s'.learned.toList := by
  obtain ⟨a, rest, hl, hass, -⟩ := h.learned
  have hfirst := hass.first.2
  have hothers := hass.others
  have hbelow := hass.below
  rw [h.marks.level_eq, h.trail] at hfirst
  simp only [h.marks.level_eq, h.trail] at hothers
  rw [h.trail] at hbelow
  rw [hl]
  exact hc.not_subset hlags h0 hfirst (fun m hm => ⟨(hothers m hm).1, Nat.lt_of_le_of_lt (hothers m hm).2.2 hbelow⟩)
    hstored

variable {C : Settings} {hooks : Hooks ε} {limits : Limits} {stopped : Bool} {outside : ε} {calls : List Call}

/-- Where propagation ended in a conflict above the root during a prompt run, no clause that is stored is part of the
clause that is learnt, neither before nor after redundant literals are removed from it. -/
theorem learns_news (hload : calls.forM Call.run (fresh C hooks limits stopped outside) = .ok () s₀)
    (hrun : Run true (.loaded, s₀) (.conflicted key, s)) (hlev : 1 ≤ s.trail.level) (haside : Aside s t) :
    ∃ t₁ jump glue t₂, firstUip key t = .ok t.trail.level t₁ ∧
      finishAnalysis t.trail.level t₁ = .ok (.asserting jump glue) t₂ ∧ analyze key t = .ok (.asserting jump glue) t₂ ∧
      ∀ c redundant, t.Stored c redundant → ¬ c ⊆ t₁.learned.toList ∧ ¬ c ⊆ t₂.learned.toList := by
  obtain ⟨hc, -⟩ := (hrun.at (loaded_run hload)).1
  have hct := hc.aside haside
  have h0 : t.trail.level ≠ 0 := by
    rw [haside.trail]
    exact Nat.one_le_iff_ne_zero.1 hlev
  have hlags : ¬ (true = false) := by simp
  obtain ⟨t₁, l, rest, jump, glue, t₂, hfirst, hiso, hfinish, hanalyze, hout⟩ := exists_firstUip hct h0
  exact ⟨t₁, jump, glue, t₂, hfirst, hfinish, hanalyze, fun c r hstored =>
    ⟨hiso.not_subset hct hlags h0 hstored, hout.not_subset hct hlags h0 hstored⟩⟩

/-- A conflict after a clause was learnt from another one, while this clause is stored. -/
theorem learns_news_again : ∃ (s₀ s : Solver Unit) (key : Key),
    lateCalls.forM Call.run (fresh {} {} {} false ()) = .ok () s₀ ∧ Run true (.loaded, s₀) (.conflicted key, s) ∧
      1 ≤ s.trail.level ∧ Aside s s.noteConflict ∧ s.noteConflict.Stored [⟨5⟩, ⟨9⟩] true ∧
      ∃ t₁ jump glue t₂, firstUip key s.noteConflict = .ok s.noteConflict.trail.level t₁ ∧
        finishAnalysis s.noteConflict.trail.level t₁ = .ok (.asserting jump glue) t₂ ∧
        analyze key s.noteConflict = .ok (.asserting jump glue) t₂ ∧
        ∀ c redundant, s.noteConflict.Stored c redundant → ¬ c ⊆ t₁.learned.toList ∧ ¬ c ⊆ t₂.learned.toList := by
  obtain ⟨s₀, place, s, hload, hrun, htest⟩ := exists_prompt (fresh {} {} {} false ()) lateCalls 22
    (fun place s => match place with
      | .conflicted _ => Nat.ble 1 s.trail.level && Decidable.decide (.binary ⟨9⟩ true false ∈ s.watches.view ⟨5⟩)
      | _ => false) (by decide +kernel)
  cases place with
  | conflicted key =>
    obtain ⟨hlev, hm⟩ := Bool.and_eq_true_iff.1 htest
    have hlev := Nat.le_of_ble_eq_true hlev
    have haside := aside_count s fun c => { c with conflicts := c.conflicts + 1 }
    exact ⟨s₀, s, key, hload, hrun, hlev, haside, .binary (of_decide_eq_true hm),
      learns_news hload hrun hlev haside⟩
  | _ => simp at htest

end Solver

end ClauseLearning

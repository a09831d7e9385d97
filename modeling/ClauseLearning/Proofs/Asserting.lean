import ClauseLearning.Proofs.Fixpoint

/-!
# The clause learnt from a conflict

Where propagation ended in a conflict above the root, analysis learns a clause that is false, with one literal on the
current level, which stands first.  It follows from the stored clauses and the literals assigned at the root.  Apart
from notes of how recently clauses and variables were used, nothing else is changed.

* `Solver.Learns` — what is so of the clause, and of what is left behind.
* `Solver.Analyzed.learns` — analysis of a conflict of any solver with the invariant.
* `Solver.analyze_learns` — conflicts during a search.
-/

namespace ClauseLearning

/-- Two assignments without marks are the same if they only differ in marks. -/
theorem Assignment.Remarked.eq {a a' : Assignment} (h : Remarked a a')
    (hmarks : ∀ v, (a.record v).analyzed = (a'.record v).analyzed ∧ (a.record v).removable = (a'.record v).removable ∧
      (a.record v).poisoned = (a'.record v).poisoned) : a' = a := by
  have hrec : ∀ v, a'.record v = a.record v := fun v => by
    obtain ⟨h1, h2, h3⟩ := hmarks v
    rw [Assigned.mk.injEq]
    exact ⟨h.level v, h.reason v, h1.symm, h2.symm, h3.symm⟩
  obtain ⟨values, records⟩ := a
  obtain ⟨values', records'⟩ := a'
  rw [Assignment.mk.injEq]
  refine ⟨h.values, Array.ext h.size fun v hv hv' => ?_⟩
  have := hrec v
  simpa [record, Array.getD, hv, hv'] using this

namespace Solver

variable {ε : Type} {lags : Prop} {s s' s₀ t : Solver ε} {key : Key} {jump glue : Nat}

/-- What an analysis leaves behind which learnt a clause with the first literal `a`. -/
structure Learns (s s' : Solver ε) (a : Literal) (rest : List Literal) (jump glue : Nat) : Prop where
  /-- The clause. -/
  learned : s'.learned.toList = a :: rest
  /-- No variable is in it twice. -/
  nodup : ((a :: rest).map Literal.var).Nodup
  /-- All its literals are false, and none of them at the root. -/
  falsified : ∀ l ∈ a :: rest, s.val l = .ff ∧ s.assignment.level l ≠ 0
  /-- The first is on the current level. -/
  first : s.assignment.level a = s.trail.level
  /-- All others are on levels below. -/
  below : ∀ l ∈ rest, s.assignment.level l < s.trail.level
  /-- The second is on the highest of those levels, which is the jump level. -/
  second : ∀ b tail, rest = b :: tail → s.assignment.level b = jump ∧ ∀ l ∈ rest, s.assignment.level l ≤ jump
  /-- The jump level of a unit is the root. -/
  unit : rest = [] → jump = 0
  /-- The glue is the number of levels. -/
  glue : glue = ((a :: rest).map s.assignment.level).toFinset.card
  /-- The clause follows from the stored clauses and the literals assigned at the root. -/
  entailed : ∀ v : Valuation, (∀ c redundant, s.Stored c redundant → v.Satisfies c) →
    (∀ l ∈ s.trail.literals, s.assignment.level l = 0 → v.makesTrue l = true) → v.Satisfies (a :: rest)
  /-- No variable is marked. -/
  unmarked : ∀ v, (s'.assignment.record v).analyzed = false ∧ (s'.assignment.record v).removable = false ∧
    (s'.assignment.record v).poisoned = false
  /-- The assignment stays. -/
  assignment : s'.assignment = s.assignment
  /-- The trail stays. -/
  trail : s'.trail = s.trail
  /-- The watches stay. -/
  watches : s'.watches = s.watches
  /-- The clauses stay. -/
  clauses : s'.store.references = s.store.references ∧
    ∀ r ∈ s.store.references, s'.store.lits r.offset = s.store.lits r.offset

/-- Whatever satisfies the stored clauses and the literals at the root satisfies all that is known. -/
theorem Inv.holds_of_stored {p : Nat} (h : s.Inv lags p) (hi : s.inconsistent = false) {v : Valuation}
    (hstored : ∀ c redundant, s.Stored c redundant → v.Satisfies c)
    (hroot : ∀ l ∈ s.trail.literals, s.assignment.level l = 0 → v.makesTrue l = true) : s.Holds v where
  consistent := hi
  root := hroot
  large _ ho := hstored _ _ (.large (Store.mem_references.2 ⟨rfl, ho⟩ : ⟨_, s.store.epoch⟩ ∈ s.store.references))
  binary _ _ _ _ hm := hstored _ _ (.binary hm)
  reasons _ hl _ ho := by
    obtain ⟨r, y, hm⟩ := h.exists_reason hl ho
    exact hstored _ _ (.binary hm)
  derived x hx := by simp [h.stored] at hx

/-- What an analysis leaves behind. -/
theorem Analyzed.learns (h : Analyzed lags s s' jump glue) (hc : Conflicted lags s key) (hi : s.inconsistent = false)
    (hlev : s.trail.level ≠ 0) : ∃ a rest, Learns s s' a rest jump glue := by
  obtain ⟨p, hinv, -, -⟩ := hc.inv
  obtain ⟨a, rest, hl, hass, hsat⟩ := h.learned
  have hclean := (h.inv p hinv).toClean
  have heq : s'.assignment = s.assignment := h.marks.eq fun v => by
    obtain ⟨h1, h2, h3⟩ := hinv.records v
    obtain ⟨h1', h2', h3'⟩ := hclean.records v
    exact ⟨h1.trans h1'.symm, h2.trans h2'.symm, h3.trans h3'.symm⟩
  have htrail := h.trail
  have hfirst := hass.first
  have hothers := hass.others
  have hsecond := hass.second
  have hbelow := hass.below
  rw [htrail, heq] at hfirst
  rw [htrail] at hbelow
  simp only [htrail, heq] at hothers hsecond
  have hff : ∀ l, -l ∈ s.trail.literals → s.val l = .ff := fun l hl => (hinv.trail.ff_iff hinv.sized).2 hl
  have hrefs : s'.store.references = s.store.references := by
    simp only [Store.references, Store.referencesFrom]
    rw [h.store.epoch, show s'.store.offsetsFrom 0 = s.store.offsetsFrom 0 from h.store.offsets]
  refine ⟨a, rest, hl, hass.nodup, fun l hm => ?_, hfirst.2, fun l hm => ?_, fun b tail ht => ⟨hsecond b tail ht, ?_⟩,
    hass.unit, ?_, fun v hstored hroot => ?_, hclean.records, heq, htrail, h.watches, hrefs, fun r hr => ?_⟩
  · rcases List.mem_cons.1 hm with rfl | hm
    · exact ⟨hff _ hfirst.1, hfirst.2 ▸ hlev⟩
    · exact ⟨hff _ (hothers l hm).1, (hothers l hm).2.1⟩
  · exact Nat.lt_of_le_of_lt (hothers l hm).2.2 hbelow
  · exact fun l hm => (hothers l hm).2.2
  · rw [h.glue, hl, heq]
  · exact hsat v (hinv.holds_of_stored hi hstored hroot)
  · exact h.store.lits _ (Store.mem_references.1 hr).2

variable {C : Settings} {hooks : Hooks ε} {limits : Limits} {stopped prompt : Bool} {outside : ε}
  {calls : List Call}

/-- Where propagation ended in a conflict above the root during a search, analysis learns a clause: it is false, has one
literal on the current level, and follows from what is stored.  Counts and averages do not matter to that. -/
theorem analyze_learns (hload : calls.forM Call.run (fresh C hooks limits stopped outside) = .ok () s₀)
    (hrun : Run false (.loaded, s₀) (.conflicted key, s)) (hlev : 1 ≤ s.trail.level) (haside : Aside s t) :
    ∃ jump glue s' a rest, analyze key t = .ok (.asserting jump glue) s' ∧ Learns t s' a rest jump glue := by
  obtain ⟨hc, hi⟩ := (hrun.at (loaded_run hload)).1
  have hct := hc.aside haside
  obtain ⟨out, s', he, hout⟩ := (ends_analyze hct).exists_ok
  have hlev' : t.trail.level ≠ 0 := by
    rw [haside.trail]
    exact Nat.one_le_iff_ne_zero.1 hlev
  cases out with
  | fundamental => exact absurd hout.2 hlev'
  | asserting jump glue =>
    obtain ⟨a, rest, hlearnt⟩ := hout.learns hct (haside.inconsistent.trans hi) hlev'
    exact ⟨jump, glue, s', a, rest, he, hlearnt⟩

/-- A conflict on the second level, in a clause of the store, as a search analyzes it. -/
theorem analyze_learns_implied : ∃ (s₀ s : Solver Unit) (key : Key),
    [Call.clause [-1, 6], .clause [-6, -5, 2], .clause [-6, 3], .clause [-2, -3, -5]].forM Call.run
        (fresh {} {} {} false ()) = .ok () s₀ ∧
      Run false (.loaded, s₀) (.conflicted key, s) ∧ 1 ≤ s.trail.level ∧ Aside s s.noteConflict ∧
      ∃ jump glue s' a rest, analyze key s.noteConflict = .ok (.asserting jump glue) s' ∧
        Learns s.noteConflict s' a rest jump glue := by
  obtain ⟨s₀, place, s, hload, hrun, htest⟩ := exists_trial (fresh {} {} {} false ())
    [.clause [-1, 6], .clause [-6, -5, 2], .clause [-6, 3], .clause [-2, -3, -5]] 2
    (fun place s => match place with
      | .conflicted _ => Nat.ble 1 s.trail.level
      | _ => false) (by decide +kernel)
  cases place with
  | conflicted key =>
    have hlev := Nat.le_of_ble_eq_true htest
    have haside := aside_count s fun c => { c with conflicts := c.conflicts + 1 }
    exact ⟨s₀, s, key, hload, hrun, hlev, haside, analyze_learns hload hrun hlev haside⟩
  | _ => simp at htest

end Solver

end ClauseLearning

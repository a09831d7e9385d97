import ClauseLearning.Proofs.Completion
import ClauseLearning.Proofs.Fixpoint

/-!
# Satisfying answers are right

Where everything is assigned and nothing is false, every stored clause is satisfied.  With unassigned variables made
false, and the clauses on the extension stack satisfied one after another, that is a model of all clauses that
were added.

* `Solver.reading` — the valuation of an assignment.
* `Solver.Quiet.base` — it satisfies what is never dropped.
* `Solver.Loaded.models_reading` — with the extension stack, it satisfies the clauses that were added.
* `Solver.solve_satisfiable` — the values that are answered after a solve.
-/

namespace ClauseLearning

theorem Numbering.knows_iff {m : Numbering} {e : Int} : m.knows e = true ↔ e ≠ 0 ∧ e.natAbs ≤ m.size := by
  simp [knows, Nat.pos_iff_ne_zero]

theorem Valuation.makesTrue_neg (v : Valuation) {e : Int} (he : e ≠ 0) :
    v.makesTrue (Numbering.toLiteral (-e)) = !v.makesTrue (Numbering.toLiteral e) := by
  have hpos : decide (0 < -e) = !decide (0 < e) := by
    rw [Bool.eq_iff_iff]
    simp only [decide_eq_true_eq, Bool.not_eq_true', decide_eq_false_iff_not]
    omega
  simp only [makesTrue, Numbering.toLiteral, Literal.var_make, Literal.positive_make, Int.natAbs_neg, hpos]
  cases v (e.natAbs - 1) <;> cases decide (0 < e) <;> rfl

namespace Solver

variable {ε : Type} {lags : Prop} {s s' s₀ : Solver ε} {F : List (List Literal)}

/-- Where no variable is left to decide, all that are usable are assigned. -/
theorem Frame.assigned (h : s.Frame) (hu : s.unassigned = 0) {l : Literal} (hl : s.numbering.Usable l.var) :
    s.val l ≠ .unassigned := by
  have hlen : s.active ≤ s.trail.size := Nat.le_of_sub_eq_zero hu
  have hperm := h.trail_subperm.perm_of_length_le (by rwa [← h.active, List.length_map, Array.length_toList])
  rw [val, Ne, h.trail.unassigned_iff h.sized, not_not, hperm.mem_iff]
  simp [hl.1, hl.2]

/-- The valuation that makes true what is assigned true. -/
def reading (s : Solver ε) : Valuation := fun v => s.val (.make v true) = .tt

theorem makesTrue_reading (h : s.Frame) (l : Literal) :
    s.reading.makesTrue l = true ↔ s.val l = .tt ∨ s.val l = .unassigned ∧ l.positive = false := by
  have hneg : l.positive = false → Literal.make l.var true = -l := fun hp => by
    rw [← Literal.make_var_positive (-l), Literal.var_negate, Literal.positive_negate, hp]
    rfl
  cases hp : l.positive with
  | true =>
    have he : Literal.make l.var true = l := by rw [← hp, Literal.make_var_positive]
    simp [Valuation.makesTrue, reading, hp, he]
  | false =>
    have hv : s.val (Literal.make l.var true) = -s.val l := by
      rw [hneg hp]
      exact h.sized.opposite l
    simp only [Valuation.makesTrue, reading, hp, hv]
    cases s.val l <;> decide

/-- A clause with a literal that is not false is satisfied where everything is assigned. -/
theorem satisfies_reading (h : s.Frame) (hu : s.unassigned = 0) {c : List Literal}
    (hc : ∀ l ∈ c, s.numbering.Usable l.var) (hf : ∃ l ∈ c, s.val l ≠ .ff) : s.reading.Satisfies c := by
  obtain ⟨l, hl, hv⟩ := hf
  refine ⟨l, hl, (makesTrue_reading h l).2 (.inl ?_)⟩
  have := h.assigned hu (hc l hl)
  cases hx : s.val l with
  | tt => rfl
  | ff => exact absurd hx hv
  | unassigned => exact absurd hx this

/-- Where everything was propagated and assigned, what is never dropped is satisfied. -/
theorem Quiet.base (h : s.Quiet lags) (hu : s.unassigned = 0) : s.Base s.reading where
  root l hl _ := (makesTrue_reading h.inv.toFrame l).2 (.inl ((h.inv.trail.tt_iff l).2 hl))
  large o ho _ _ := by
    have hr : (⟨o, s.store.epoch⟩ : Reference) ∈ s.store.references := Store.mem_references.2 ⟨rfl, ho⟩
    exact satisfies_reading h.inv.toFrame hu (h.inv.store.usable o ho)
      (h.watchesHold.stored _ _ (.large hr))
  binary l o y hm := by
    have h1 := h.inv.paired.usable _ _ _ _ hm
    refine satisfies_reading h.inv.toFrame hu (fun m hm' => ?_) (h.watchesHold.stored _ _ (.binary hm))
    simp only [List.mem_cons, List.not_mem_nil, or_false] at hm'
    rcases hm' with rfl | rfl
    · exact h1.1
    · exact h1.2.1

/-- The valuation of the model that is made in the end satisfies the clauses that were added. -/
theorem Loaded.models_reading (h₀ : s₀.Loaded lags F) (hev : Grows s₀ s) (hq : s.Quiet lags)
    (hu : s.unassigned = 0) : (s.extension.complete s.reading).Models F := by
  obtain ⟨ws, he, -, hbase⟩ := hev.stack
  have hi : s₀.inconsistent = false := by
    rw [← Bool.not_eq_true]
    intro ht
    have := hev.inconsistent ht
    rw [hq.consistent] at this
    simp at this
  have hcomplete : s.extension.complete s.reading = ws.foldl Witnessed.mend s.reading := by
    rw [Extension.complete, he, h₀.extension, List.append_nil]
  rw [hcomplete]
  exact h₀.base hi _ (hbase _ (hq.base hu))

/-! ## The values of the model -/

theorem getElem?_totalValues {l : Literal} (hl : l.code < 2 * s.assignment.size) :
    s.totalValues[l.code]? = some
      (match s.val l with
      | .unassigned => .ofBool !l.positive
      | v => v) := by
  have hrange : (Array.range (2 * s.assignment.size))[l.code]? = some l.code := by
    simp [hl]
  exact Array.getElem?_map.trans (congrArg (Option.map _) hrange)

/-- The values of all literals, with unassigned variables made false. -/
theorem reads_totalValues (h : s.Frame) : Extension.Reads s.numbering.size s.totalValues s.reading := by
  have hsize : s.assignment.size = s.numbering.size := h.sized.records
  refine ⟨by simp [totalValues, hsize], fun l hl => ?_⟩
  have hcode : l.code < 2 * s.assignment.size := by
    rw [hsize]
    exact Literal.code_lt_iff.2 hl
  rw [Array.getD_eq_getD_getElem?, getElem?_totalValues hcode, Option.getD_some]
  have hread := makesTrue_reading h l
  cases hv : s.val l with
  | tt =>
    rw [hread.2 (.inl hv)]
    rfl
  | ff =>
    have : s.reading.makesTrue l = false := by
      rw [← Bool.not_eq_true, hread, hv]
      simp
    rw [this]
    rfl
  | unassigned =>
    have : s.reading.makesTrue l = !l.positive := by
      rw [Bool.eq_iff_iff, hread, hv]
      simp
    rw [this]

/-- The model of a solver gives known variables the values of a valuation. -/
structure Answers (s : Solver ε) (v : Valuation) : Prop where
  /-- There is a model. -/
  status : s.status = .satisfiable
  /-- It has these values. -/
  reads : Extension.Reads s.numbering.size s.model v

/-- The value of a known literal. -/
theorem Answers.value? {v : Valuation} (h : s.Answers v) {e : Int} (he : s.numbering.knows e = true) :
    s.value? e = .ok (some (v.makesTrue (Numbering.toLiteral e))) := by
  obtain ⟨h0, hle⟩ := Numbering.knows_iff.1 he
  have hvar : (Numbering.toLiteral e).var < s.numbering.size := by
    rw [Numbering.toLiteral, Literal.var_make]
    omega
  unfold Solver.value?
  rw [if_neg (fun hn => hn h.status), if_pos he, h.reads.value _ hvar, Value.toBool?_ofBool]

/-- Where everything is assigned, it is concluded that there is a model, and it is one of the clauses that were
added. -/
theorem Loaded.conclude_answers (h₀ : s₀.Loaded lags F) (hev : Grows s₀ s) (hq : s.Quiet lags)
    (hu : s.unassigned = 0) : ∃ v : Valuation, (conclude .satisfiable s).Answers v ∧ v.Models F := by
  obtain ⟨ws, he, hk, -⟩ := hev.stack
  refine ⟨s.extension.complete s.reading, ⟨rfl, ?_⟩, h₀.models_reading hev hq hu⟩
  change Extension.Reads s.numbering.size (s.extension.extend s.totalValues) _
  refine Extension.reads_extend (reads_totalValues hq.inv.toFrame) fun w hw => ?_
  rw [he, h₀.extension, List.append_nil] at hw
  have := (hk w hw).1
  rwa [← hev.size] at this

/-- A solve that ends with a model leaves one of the clauses that were added. -/
theorem Loaded.answers (h₀ : s₀.Loaded True F) {n : Nat} (hs : solve n s₀ = .ok (some .satisfiable) s) :
    s.numbering.size = s₀.numbering.size ∧ ∃ v : Valuation, s.Answers v ∧ v.Models F := by
  obtain ⟨-, s₁, ⟨hq, hu⟩, hev, rfl⟩ := (h₀.ends_solve trivial n).of_ok hs
  exact ⟨hev.size, h₀.conclude_answers hev.toGrows hq hu⟩

variable {C : Settings} {hooks : Hooks ε} {limits : Limits} {stopped : Bool} {outside : ε} {calls : List Call} {n : Nat}

/-- If a solve answers that there is a model, then every known variable has a value in it, opposite literals have
opposite values, and every clause that was added has a literal that is true. -/
theorem solve_satisfiable (hload : calls.forM Call.run (fresh C hooks limits stopped outside) = .ok () s₀)
    (hs : solve n s₀ = .ok (some .satisfiable) s) :
    (∀ e : Int, s.numbering.knows e = true →
      ∃ b, s.value? e = .ok (some b) ∧ s.value? (-e) = .ok (some !b)) ∧
    ∀ c ∈ Call.clauses [] calls, ∃ e ∈ c, s.value? e = .ok (some true) := by
  have h₀ : s₀.Loaded True (Call.formula calls) := loaded_run hload
  obtain ⟨hsize, v, ha, hv⟩ := h₀.answers hs
  refine ⟨fun e he => ⟨_, ha.value? he, ?_⟩, fun c hc => ?_⟩
  · obtain ⟨h0, hle⟩ := Numbering.knows_iff.1 he
    rw [ha.value? (Numbering.knows_iff.2 ⟨by omega, by rwa [Int.natAbs_neg]⟩), v.makesTrue_neg h0]
  · have hmem : c.map Numbering.toLiteral ∈ Call.formula calls := List.mem_map_of_mem hc
    obtain ⟨l, hl, ht⟩ := hv _ hmem
    obtain ⟨e, he, rfl⟩ := List.mem_map.1 hl
    have hknown : e.natAbs - 1 < s₀.numbering.size := by
      have := h₀.known _ hmem _ hl
      rwa [Numbering.toLiteral, Literal.var_make] at this
    have h0 := (Numbering.check_ok (checked_run hload c hc e he)).1
    refine ⟨e, he, ?_⟩
    rw [ha.value? (Numbering.knows_iff.2 ⟨h0, by omega⟩), ht]

/-- A solve with a unit from outside, where pure literals are eliminated before the search. -/
theorem solve_satisfiable_run : ∃ s₀ s : Solver (List Int),
    [Call.clause [1, 2], .literal (-1), .literal 3, .literal 0, .clause [-2, -3, 4], .clause [1, -3, 5]].forM Call.run
      (fresh { preprocessing := .switch true } { units := some ofList } {} false [-1]) = .ok () s₀ ∧
    solve 10 s₀ = .ok (some .satisfiable) s ∧
    (∀ e : Int, s.numbering.knows e = true →
      ∃ b, s.value? e = .ok (some b) ∧ s.value? (-e) = .ok (some !b)) ∧
    ∀ c ∈ [[1, 2], [-1, 3], [-2, -3, 4], [1, -3, 5]], ∃ e ∈ c, s.value? e = .ok (some true) := by
  obtain ⟨s₀, report, s, hload, hs, htest⟩ := exists_outcome
    (fresh { preprocessing := .switch true } { units := some ofList } {} false [-1])
    [.clause [1, 2], .literal (-1), .literal 3, .literal 0, .clause [-2, -3, 4], .clause [1, -3, 5]] 10
    (fun report _ => report = some .satisfiable) (by decide +kernel)
  obtain rfl := of_decide_eq_true htest
  exact ⟨s₀, s, hload, hs, solve_satisfiable hload hs⟩

end Solver

end ClauseLearning

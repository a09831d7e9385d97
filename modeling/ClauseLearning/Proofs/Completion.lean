import ClauseLearning.Extension
import ClauseLearning.Formula
import ClauseLearning.Proofs.Trail

/-!
# What the extension stack does to a valuation

To make the witness of a removed clause true does no harm where the witness is pure: a literal that was true
stays true, unless it is the negation of a pure one.  So where no clause has such a negation, going through the
stack satisfies the removed clauses and keeps all others satisfied.

* `Witnessed.mend`, `Extension.complete` — the stack as a function on valuations.
* `Valuation.Keeps` — literals that stay true.
* `Extension.foldl_mend` — what a part of the stack keeps, and what it satisfies.
* `Extension.reads_extend` — the values of literals after the stack are those of the valuation.
-/

namespace ClauseLearning

/-- The valuation with the witness of a clause made true, unless the clause is satisfied. -/
def Witnessed.mend (v : Valuation) (w : Witnessed) : Valuation :=
  if v.Satisfies w.clause then v else fun x => if x = w.witness.var then w.witness.positive else v x

/-- A clause on known variables. -/
def Witnessed.Known (n : Nat) (w : Witnessed) : Prop := w.witness.var < n ∧ ∀ l ∈ w.clause, l.var < n

namespace Extension

/-- The valuation after every clause was satisfied, the most recent one first. -/
def complete (e : Extension) (v : Valuation) : Valuation := e.entries.foldl Witnessed.mend v

end Extension

/-- What is true stays true, but for the negations of some literals. -/
def Valuation.Keeps (pure : List Literal) (v v' : Valuation) : Prop :=
  ∀ l, -l ∉ pure → v.makesTrue l = true → v'.makesTrue l = true

namespace Valuation.Keeps

variable {pure : List Literal} {v v' v'' : Valuation}

theorem refl (v : Valuation) : Keeps pure v v := fun _ _ h => h

theorem trans (h : Keeps pure v v') (h' : Keeps pure v' v'') : Keeps pure v v'' := fun l hl ht =>
  h' l hl (h l hl ht)

/-- A clause stays satisfied if no literal of it is the negation of one of them. -/
theorem satisfies (h : Keeps pure v v') {c : List Literal} (hc : ∀ l ∈ c, -l ∉ pure)
    (hs : v.Satisfies c) : v'.Satisfies c :=
  let ⟨l, hl, ht⟩ := hs
  ⟨l, hl, h l (hc l hl) ht⟩

end Valuation.Keeps

variable {pure : List Literal} {v : Valuation} {w : Witnessed} {ws : List Witnessed}

/-- One clause is satisfied. -/
theorem Witnessed.keeps_mend (h : w.witness ∈ pure) : v.Keeps pure (w.mend v) := by
  unfold Witnessed.mend
  split
  · exact .refl v
  · intro l hl ht
    simp only [Valuation.makesTrue]
    split
    · next hv =>
      rcases Literal.var_eq_iff.1 hv with rfl | rfl
      · simp
      · simp [h] at hl
    · exact ht

theorem Witnessed.satisfies_mend (h : w.witness ∈ w.clause) : (w.mend v).Satisfies w.clause := by
  unfold Witnessed.mend
  split
  · assumption
  · exact ⟨w.witness, h, by simp [Valuation.makesTrue]⟩

namespace Extension

/-- Several clauses are satisfied, one after another.  Each stays so, as later ones do no harm to it. -/
theorem foldl_mend (h : ∀ w ∈ ws, w.witness ∈ pure ∧ w.witness ∈ w.clause ∧ ∀ l ∈ w.clause, -l ∉ pure) :
    v.Keeps pure (ws.foldl Witnessed.mend v) ∧ ∀ w ∈ ws, (ws.foldl Witnessed.mend v).Satisfies w.clause := by
  induction ws generalizing v with
  | nil => exact ⟨.refl v, by simp⟩
  | cons w ws ih =>
    obtain ⟨hpure, hmem, hneg⟩ := h w (List.mem_cons_self ..)
    obtain ⟨hkeep, hsat⟩ := ih (v := w.mend v) fun w' hw' => h w' (List.mem_cons_of_mem _ hw')
    refine ⟨(Witnessed.keeps_mend hpure).trans hkeep, fun w' hw' => ?_⟩
    rcases List.mem_cons.1 hw' with rfl | hw'
    · exact hkeep.satisfies hneg (Witnessed.satisfies_mend hmem)
    · exact hsat w' hw'

/-! ## Values of literals -/

/-- The values of all literals on the first `n` variables are those of a valuation. -/
structure Reads (n : Nat) (values : Array Value) (v : Valuation) : Prop where
  /-- There is a value for each literal. -/
  size : values.size = 2 * n
  /-- It is the one of the valuation. -/
  value : ∀ l : Literal, l.var < n → values.getD l.code .unassigned = .ofBool (v.makesTrue l)

variable {n : Nat} {values : Array Value}

theorem Reads.any (h : Reads n values v) {c : List Literal} (hc : ∀ l ∈ c, l.var < n) :
    (c.any fun l => (values.getD l.code .unassigned).isTrue) = true ↔ v.Satisfies c := by
  rw [List.any_eq_true]
  refine exists_congr fun l => and_congr_right fun hl => ?_
  rw [h.value l (hc l hl)]
  cases v.makesTrue l <;> simp [Value.ofBool, Value.isTrue]

/-- One clause is satisfied. -/
theorem Reads.satisfy (h : Reads n values v) (hw : w.Known n) : Reads n (Witnessed.satisfy values w) (w.mend v) := by
  unfold Witnessed.satisfy Witnessed.mend
  by_cases hs : v.Satisfies w.clause
  · rw [if_pos hs, if_pos ((h.any hw.2).2 hs)]
    exact h
  · rw [if_neg hs, if_neg fun ht => hs ((h.any hw.2).1 ht)]
    refine ⟨by simp [h.size], fun l hl => ?_⟩
    have hcode : w.witness.code < values.size := by
      rw [h.size]
      exact Literal.code_lt_iff.2 hw.1
    have hncode : (-w.witness).code < values.size := by
      rw [h.size]
      exact Literal.code_lt_iff.2 (by simpa using hw.1)
    have hval := h.value l hl
    rw [Array.getD_eq_getD_getElem?] at hval ⊢
    rw [Array.getElem?_setIfInBounds, Array.getElem?_setIfInBounds]
    simp only [Array.size_setIfInBounds, hcode, hncode, if_true, Literal.code_inj, Valuation.makesTrue]
    by_cases hneg : -w.witness = l
    · subst hneg
      simp [Value.ofBool]
    · rw [if_neg hneg]
      by_cases hpos : w.witness = l
      · subst hpos
        simp [Value.ofBool]
      · have hv : l.var ≠ w.witness.var := fun hv => by
          rcases Literal.var_eq_iff.1 hv with rfl | rfl
          · exact hpos rfl
          · exact hneg rfl
        rw [if_neg hpos, if_neg hv, hval]
        rfl

/-- The values after every clause was satisfied. -/
theorem reads_extend {e : Extension} (h : Reads n values v) (he : ∀ w ∈ e.entries, w.Known n) :
    Reads n (e.extend values) (e.complete v) := by
  unfold extend complete
  generalize e.entries = ws at he
  induction ws generalizing values v with
  | nil => exact h
  | cons w ws ih =>
    exact ih (h.satisfy (he w (List.mem_cons_self ..))) fun w' hw' => he w' (List.mem_cons_of_mem _ hw')

end Extension

end ClauseLearning

import ClauseLearning.Proofs.Watches
import Mathlib.Data.List.Perm.Basic

/-!
# The list of all binary clauses

A binary clause is in the lists of both its literals.  The list of all of them goes through the lists of all
literals and takes a clause where its first literal is, so every copy is there once.

* `Watches.binaries_eq` — the list, in terms of the lists of the literals.
* `Watches.notes_binaries` — it has every copy of a clause, once.
* `Watches.binaries_congr`, `Watches.binaries_filter`, `Watches.binaries_addBinary` — what changes of the watches do to it.
-/

namespace ClauseLearning

theorem Literal.before_of_ne {l o : Literal} (h : l ≠ o) : l.before o = true ∨ o.before l = true := by
  have : l.code ≠ o.code := fun he => h (Literal.ext he)
  simp only [Literal.before, decide_eq_true_eq]
  omega

theorem Literal.before_asymm {l o : Literal} (h : l.before o = true) : o.before l = false := by
  simp only [Literal.before, decide_eq_true_eq, decide_eq_false_iff_not] at h ⊢
  omega

/-- The binary clause on two literals. -/
def BinaryClause.ofPair (a b : Literal) (redundant hyper : Bool) : BinaryClause :=
  if a.before b then { a, b, redundant, hyper } else { a := b, b := a, redundant, hyper }

namespace Watches

variable {w w' : Watches} {a b l o : Literal}

/-- The list of all binary clauses goes through the lists of the literals, one after another. -/
theorem binaries_eq (w : Watches) : w.binaries =
    (List.range w.lists.size).flatMap fun code => (w.view ⟨code⟩).filterMap (binaryOf? ⟨code⟩) := by
  have hzip : w.lists.toList.zipIdx = (List.range w.lists.size).map fun code => (w.of ⟨code⟩, code) := by
    apply List.ext_getElem?
    intro i
    rw [List.getElem?_zipIdx, List.getElem?_map, Array.getElem?_toList]
    by_cases hi : i < w.lists.size
    · simp [hi, of]
    · simp [hi]
  rw [binaries, toList, hzip, List.map_map, List.flatMap_map]
  rfl

/-- Of a walk through numbers, one number at most counts. -/
theorem flatMap_range_ite {β : Type} (n k : Nat) (xs : List β) :
    ((List.range n).flatMap fun i => if i = k then xs else []) = if k < n then xs else [] := by
  induction n with
  | zero => rfl
  | succ n ih =>
    rw [List.range_succ, List.flatMap_append, ih, List.flatMap_singleton]
    rcases Nat.lt_trichotomy k n with hlt | rfl | hlt
    · rw [if_pos hlt, if_neg (by omega), if_pos (by omega), List.append_nil]
    · rw [if_neg (by omega), if_pos rfl, if_pos (by omega), List.nil_append]
    · rw [if_neg (by omega), if_neg (by omega), if_neg (by omega), List.append_nil]

/-! ## Copies of one clause -/

/-- Whether a clause is the one of two literals, in either order. -/
def joins (a b : Literal) (c : BinaryClause) : Bool := (c.a = a ∧ c.b = b) ∨ (c.a = b ∧ c.b = a)

theorem joins_comm (a b : Literal) (c : BinaryClause) : joins a b c = joins b a c := by
  simp only [joins, decide_eq_decide]
  exact or_comm

/-- The notes on a binary clause. -/
def notes (c : BinaryClause) : Bool × Bool := (c.redundant, c.hyper)

/-- In the list of a literal the copies of a clause are found where it is the first literal. -/
theorem notes_binaryOf? (h : a.before b = true) (l : Literal) (ws : List Watch) :
    ((ws.filterMap (binaryOf? l)).filter (joins a b)).map notes =
      if l = a then ws.filterMap (Watch.noteOn b) else [] := by
  have hne : a ≠ b := fun he => by simp [he, Literal.before] at h
  have hnot := Literal.before_asymm h
  induction ws with
  | nil => simp
  | cons x ws ih =>
    cases x with
    | large d r => simpa [binaryOf?, List.filterMap_cons] using ih
    | binary o r y =>
      by_cases hl : l = a
      · subst hl
        by_cases ho : o = b
        · subst ho
          simpa [binaryOf?, Watch.noteOn, h, List.filterMap_cons, joins, notes] using ih
        · cases hb : l.before o <;>
            simpa [binaryOf?, Watch.noteOn, hb, ho, hne, List.filterMap_cons, joins] using ih
      · by_cases hlb : l = b
        · subst hlb
          by_cases ho : o = a
          · subst ho
            simpa [binaryOf?, hnot, hl, List.filterMap_cons] using ih
          · cases hb : l.before o <;> simpa [binaryOf?, hb, ho, hl, List.filterMap_cons, joins] using ih
        · cases hb : l.before o <;> simpa [binaryOf?, hb, hl, hlb, List.filterMap_cons, joins] using ih

/-- The list of all binary clauses has every copy of a clause, once. -/
theorem notes_binaries (h : a.before b = true) : (w.binaries.filter (joins a b)).map notes = pairs w.view a b := by
  have hcode : ∀ code, (⟨code⟩ : Literal) = a ↔ code = a.code := fun code => by rw [← Literal.code_inj]
  have hlist : ∀ code, (((w.view ⟨code⟩).filterMap (binaryOf? ⟨code⟩)).filter (joins a b)).map notes =
      if code = a.code then pairs w.view a b else [] := fun code => by
    rw [notes_binaryOf? h]
    by_cases hc : code = a.code
    · rw [if_pos ((hcode code).2 hc), if_pos hc, (hcode code).2 hc, pairs]
    · rw [if_neg (mt (hcode code).1 hc), if_neg hc]
  rw [binaries_eq, List.filter_flatMap, List.map_flatMap]
  simp only [hlist, flatMap_range_ite]
  split
  · rfl
  · next hout => rw [pairs, view_out_of_range (Nat.le_of_not_lt hout), List.filterMap_nil]

/-! ## Changes of the watches -/

/-- Only watches of binary clauses matter. -/
theorem binaries_congr (hs : w'.lists.size = w.lists.size)
    (hv : ∀ l, (w'.view l).filter Watch.isBinary = (w.view l).filter Watch.isBinary) : w'.binaries = w.binaries := by
  have hfilter : ∀ (l : Literal) (ws : List Watch),
      (ws.filter Watch.isBinary).filterMap (binaryOf? l) = ws.filterMap (binaryOf? l) := fun l ws => by
    rw [List.filterMap_filter]
    congr 1
    funext x
    cases x <;> rfl
  rw [binaries_eq, binaries_eq, hs]
  congr 1
  funext code
  rw [← hfilter, hv, hfilter]

/-- Fewer binary clauses: what stays does so in both lists. -/
theorem binaries_filter {keep : Literal → Watch → Bool} {keeps : BinaryClause → Bool}
    (hs : w'.lists.size = w.lists.size) (hv : ∀ l, w'.view l = (w.view l).filter (keep l))
    (hk : ∀ a b r y, keep a (.binary b r y) = keeps ⟨a, b, r, y⟩) : w'.binaries = w.binaries.filter keeps := by
  rw [binaries_eq, binaries_eq, hs, List.filter_flatMap]
  congr 1
  funext code
  rw [hv, List.filterMap_filter, List.filter_filterMap]
  congr 1
  funext x
  cases x with
  | large => simp [binaryOf?]
  | binary b r y =>
    rw [hk]
    cases hb : (⟨code⟩ : Literal).before b <;> cases hkeep : keeps ⟨⟨code⟩, b, r, y⟩ <;>
      simp [binaryOf?, hb, hkeep, Option.filter]

/-- One more binary clause. -/
theorem binaries_addBinary (ha : a.code < w.lists.size) (hb : b.code < w.lists.size) (hne : a ≠ b) (r y : Bool) :
    (w.addBinary a b r y).binaries.Perm (w.binaries ++ [.ofPair a b r y]) := by
  have hcode : ∀ code (m : Literal), (⟨code⟩ : Literal) = m ↔ code = m.code := fun code m => by rw [← Literal.code_inj]
  have hlist : ∀ code, ((w.addBinary a b r y).view ⟨code⟩).filterMap (binaryOf? ⟨code⟩) =
      (w.view ⟨code⟩).filterMap (binaryOf? ⟨code⟩) ++
        if code = (BinaryClause.ofPair a b r y).a.code then [.ofPair a b r y] else [] := fun code => by
    rw [view_addBinary r y ha hb hne]
    rcases Literal.before_of_ne hne with hlt | hlt
    · have hnot := Literal.before_asymm hlt
      simp only [BinaryClause.ofPair, hlt, if_true, ← hcode]
      by_cases h1 : (⟨code⟩ : Literal) = a
      · simp [h1, binaryOf?, hlt]
      · by_cases h2 : (⟨code⟩ : Literal) = b
        · simp [h2, Ne.symm hne, binaryOf?, hnot]
        · simp [h1, h2]
    · have hnot := Literal.before_asymm hlt
      simp only [BinaryClause.ofPair, hnot, Bool.false_eq_true, if_false, ← hcode]
      by_cases h1 : (⟨code⟩ : Literal) = a
      · simp [h1, hne, binaryOf?, hnot]
      · by_cases h2 : (⟨code⟩ : Literal) = b
        · simp [h2, Ne.symm hne, binaryOf?, hlt]
        · simp [h1, h2]
  have hin : (BinaryClause.ofPair a b r y).a.code < w.lists.size := by
    unfold BinaryClause.ofPair
    split
    · exact ha
    · exact hb
  have hsingle := flatMap_range_ite w.lists.size (BinaryClause.ofPair a b r y).a.code [BinaryClause.ofPair a b r y]
  rw [if_pos hin] at hsingle
  rw [binaries_eq, binaries_eq, size_addBinary]
  simp only [hlist]
  have := List.flatMap_append_perm (List.range w.lists.size)
    (fun code => (w.view ⟨code⟩).filterMap (binaryOf? ⟨code⟩))
    (fun code => if code = (BinaryClause.ofPair a b r y).a.code then [.ofPair a b r y] else [])
  rw [hsingle] at this
  exact this.symm

end Watches

end ClauseLearning

import ClauseLearning.Proofs.Reachability
import ClauseLearning.Proofs.Trial

/-!
# The watch lists are the clauses

Nothing but the lists of watches says which binary clauses there are, and no list is ever searched for the watches on a
stored clause.  So a watch that is lost or doubled would not be noticed.  In every reachable state there is none.

* `Watches.removeBinary_of_nil`, `Watches.removeBinary_of_cons` — what removing a binary clause does.
* `Solver.Listed` — the lists represent the clauses.
* `Solver.watches_listed` — so it is in every reachable state.
-/

namespace ClauseLearning

/-! ## Removing a copy -/

namespace Watches

variable {w : Watches} {a b l o : Literal} {x : Bool × Bool} {rest : List (Bool × Bool)}

/-- The first watch with an other literal has the notes on the first copy. -/
theorem find?_isBinaryWith (ws : List Watch) (b : Literal) :
    ws.find? (Watch.isBinaryWith b) = (ws.filterMap (Watch.noteOn b)).head?.map fun x => .binary b x.1 x.2 := by
  induction ws with
  | nil => rfl
  | cons w ws ih =>
    cases w with
    | large d r => simpa [Watch.isBinaryWith, List.filterMap_cons] using ih
    | binary o r y =>
      by_cases ho : o = b
      · simp [Watch.isBinaryWith, Watch.noteOn, ho]
      · simpa [Watch.isBinaryWith, Watch.noteOn, ho, List.filterMap_cons] using ih

theorem isSome_findIdx? (w : Watches) (a b : Literal) :
    ((w.of a).findIdx? (Watch.isBinaryWith b)).isSome = !(pairs w.view a b).isEmpty := by
  rw [findIdx?_of, List.findIdx?_isSome, ← List.isSome_find?, find?_isBinaryWith, Option.isSome_map, pairs]
  cases (w.view a).filterMap (Watch.noteOn b) <;> rfl

theorem removeHalf_of_nil (h : pairs w.view a b = []) : w.removeHalf a b = (false, w) := by
  have hnone : (w.of a).findIdx? (Watch.isBinaryWith b) = none := by
    rw [← Option.not_isSome_iff_eq_none, isSome_findIdx?, h]
    simp
  unfold removeHalf
  simp only [hnone]

theorem removeHalf_of_cons (h : pairs w.view a b = x :: rest) : (w.removeHalf a b).1 = true := by
  have hsome : ((w.of a).findIdx? (Watch.isBinaryWith b)).isSome = true := by
    rw [isSome_findIdx?, h]
    rfl
  obtain ⟨i, hi⟩ := Option.isSome_iff_exists.1 hsome
  unfold removeHalf
  simp only [hi]

/-- Where there is no copy, nothing is removed. -/
theorem removeBinary_of_nil (hsymm : pairs w.view b a = pairs w.view a b) (h : pairs w.view a b = []) :
    w.removeBinary a b = (false, w) := by
  unfold removeBinary
  simp only [removeHalf_of_nil h, removeHalf_of_nil (hsymm.trans h), Bool.and_self]

/-- Where there are copies, the first one is found in both lists. -/
theorem removeBinary_of_cons (hne : a ≠ b) (hsymm : pairs w.view b a = pairs w.view a b)
    (h : pairs w.view a b = x :: rest) :
    (w.removeBinary a b).1 = true ∧
      (w.view a).find? (Watch.isBinaryWith b) = some (.binary b x.1 x.2) ∧
      (w.view b).find? (Watch.isBinaryWith a) = some (.binary a x.1 x.2) := by
  -- the list of `b` stays as it was while the watch is taken out of that of `a`
  have hother : pairs (w.removeHalf a b).2.view b a = x :: rest := by
    rw [pairs, view_removeHalf, if_neg (Ne.symm hne), ← pairs, hsymm, h]
  refine ⟨?_, ?_, ?_⟩
  · unfold removeBinary
    simp only [removeHalf_of_cons h, removeHalf_of_cons hother, Bool.and_self]
  · rw [find?_isBinaryWith, ← pairs, h]
    rfl
  · rw [find?_isBinaryWith, ← pairs, hsymm, h]
    rfl

end Watches

namespace Solver

variable {ε : Type} {s : Solver ε} {moment : Moment}

open Watches (pairs joins notes)

/-- The lists of watches represent the clauses. -/
structure Listed (s : Solver ε) : Prop where
  /-- A stored clause is watched once by each of its first two literals, and by no other literal. -/
  large : ∀ r, s.store.Current r → s.store.literalAt r.offset 0 ≠ s.store.literalAt r.offset 1 ∧
    ∀ l, ((s.watches.view l).filterMap Watch.ref?).count r =
      if l = s.store.literalAt r.offset 0 ∨ l = s.store.literalAt r.offset 1 then 1 else 0
  /-- Nothing but stored clauses is watched, and a blocking literal is one of the clause. -/
  blocking : ∀ l b r, .large b r ∈ s.watches.view l → s.store.Current r ∧ b ∈ s.store.lits r.offset
  /-- The copies of a binary clause are the same, in the same order, in the lists of both literals. -/
  symm : ∀ a b, pairs s.watches.view a b = pairs s.watches.view b a
  /-- The literals of a binary clause are on different variables. -/
  apart : ∀ l o r h, .binary o r h ∈ s.watches.view l → o ≠ l ∧ o ≠ -l
  /-- Among all binary clauses each copy is found once. -/
  binaries : ∀ a b, (s.watches.binaries.filter (joins a b)).map notes = pairs s.watches.view a b
  /-- Where there is no copy of a binary clause, none is removed. -/
  absent : ∀ a b, pairs s.watches.view a b = [] → s.watches.removeBinary a b = (false, s.watches)
  /-- Where there are copies, the first one is removed from both lists. -/
  removed : ∀ a b x rest, pairs s.watches.view a b = x :: rest →
    (s.watches.removeBinary a b).1 = true ∧
      (s.watches.view a).find? (Watch.isBinaryWith b) = some (.binary b x.1 x.2) ∧
      (s.watches.view b).find? (Watch.isBinaryWith a) = some (.binary a x.1 x.2) ∧
      ∀ l, (s.watches.removeBinary a b).2.view l =
        if l = a then (s.watches.view l).eraseP (Watch.isBinaryWith b)
        else if l = b then (s.watches.view l).eraseP (Watch.isBinaryWith a) else s.watches.view l

theorem Inv.listed {lags : Prop} {p : Nat} (h : s.Inv lags p) : s.Listed where
  large r hr := by
    have hmem : ∀ l, r ∈ (s.watches.view l).filterMap Watch.ref? ↔
        l = s.store.literalAt r.offset 0 ∨ l = s.store.literalAt r.offset 1 := fun l => by
      rw [h.watched.mem_iff, and_iff_right hr]
      simp only [eq_comm]
    refine ⟨h.store.literalAt_ne hr.2, fun l => ?_⟩
    split
    · next hl => exact List.count_eq_one_of_mem (h.watched.nodup l) ((hmem l).2 hl)
    · next hl => exact List.count_eq_zero.2 (mt (hmem l).1 hl)
  blocking l b r hm := ⟨h.watched.current hm, h.watched.blocking l b r hm⟩
  symm := h.paired.symm
  apart l o r y hm := by
    have hv := (h.paired.usable l o r y hm).2.2
    exact ⟨fun he => hv (he ▸ rfl), fun he => hv (by rw [he, Literal.var_negate])⟩
  binaries a b := by
    by_cases hab : a = b
    · subst hab
      have hnil : pairs s.watches.view a a = [] := List.eq_nil_iff_forall_not_mem.2 fun x hx =>
        h.paired.ne (Watches.mem_pairs.1 hx) rfl
      rw [hnil, List.map_eq_nil_iff, List.filter_eq_nil_iff]
      intro c hc hj
      have hlt := (Watches.mem_binaries.1 hc).1
      obtain ⟨rfl, he⟩ : c.a = a ∧ c.b = a := (of_decide_eq_true hj).elim id id
      simp [Literal.before, he] at hlt
    rcases Literal.before_of_ne hab with hlt | hlt
    · exact Watches.notes_binaries hlt
    · rw [funext (Watches.joins_comm a b), h.paired.symm]
      exact Watches.notes_binaries hlt
  absent a b := Watches.removeBinary_of_nil (h.paired.symm b a)
  removed a b x rest hx := by
    have hmem : x ∈ pairs s.watches.view a b := by
      rw [hx]
      exact List.mem_cons_self ..
    have hab : a ≠ b := h.paired.ne (Watches.mem_pairs.1 hmem)
    obtain ⟨hfound, ha, hb⟩ := Watches.removeBinary_of_cons hab (h.paired.symm b a) hx
    exact ⟨hfound, ha, hb, fun l => Watches.view_removeBinary hab⟩

variable {C : Settings} {hooks : Hooks ε} {limits : Limits} {stopped : Bool} {outside : ε}

/-- In every reachable state the lists of watches represent the clauses.  So it is wherever a run comes to
(`Run.reached`), and after every call that is made on the way. -/
theorem watches_listed (h : Reached C hooks limits stopped outside (moment, s)) : s.Listed :=
  let ⟨_, hp⟩ := h.stands.intact
  hp.listed

/-- Two clauses on three variables.  The one is in the store, and the other one is a pair of watches. -/
theorem watches_listed_pair : ∃ (moment : Moment) (s : Solver Unit), Reached {} {} {} false () (moment, s) ∧
    s.store.Current ⟨0, 0⟩ ∧ .binary ⟨3⟩ false false ∈ s.watches.view ⟨1⟩ ∧ s.Listed := by
  obtain ⟨s₀, place, s, hload, hrun, htest⟩ := exists_trial (fresh {} {} {} false ())
    [.clause [1, 2, 3], .clause [-1, -2]] 1
    (fun _ s => ⟨0, 0⟩ ∈ s.store.references ∧ .binary ⟨3⟩ false false ∈ s.watches.view ⟨1⟩) (by decide +kernel)
  obtain ⟨hlarge, hbinary⟩ := of_decide_eq_true htest
  have hreached := Run.reached hload hrun
  exact ⟨_, s, hreached, Store.mem_references.1 hlarge, hbinary, watches_listed hreached⟩

end Solver

end ClauseLearning

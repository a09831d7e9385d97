import ClauseLearning.Proofs.Store.Edit
import Mathlib.Algebra.GroupWithZero.Nat

/-!
# Words that are of no use

Every word of a store belongs to a clause or is padding.  So what is garbage is known from what is not: the words of
clauses which are not garbage, and the words that are left.

* `Store.usedBy` — how many words belong to clauses which are not garbage.
* `Store.Chain.garbageFrom_add` — all other words are garbage.
* `Store.garbageFrom_congr`, `Store.Appended.garbageFrom` — what changes of the store do to the count.
* `Store.garbage_sweep` — a sweep counts afresh.
-/

namespace ClauseLearning

namespace Store

variable {s s' : Store} {p : Nat}

/-- How many words of some clauses belong to those which are not garbage. -/
def usedBy (s : Store) (os : List Nat) : Nat :=
  ((os.filter fun o => !(s.flagsAt o).garbage).map fun o => headerWords + s.sizeAt o).sum

theorem usedBy_append (s : Store) (os os' : List Nat) : s.usedBy (os ++ os') = s.usedBy os + s.usedBy os' := by
  simp [usedBy]

theorem usedBy_singleton (s : Store) (o : Nat) :
    s.usedBy [o] = if (s.flagsAt o).garbage then 0 else headerWords + s.sizeAt o := by
  cases hg : (s.flagsAt o).garbage <;> simp [usedBy, hg]

/-- Only the sizes of the clauses matter, and which of them are garbage. -/
theorem usedBy_congr {os : List Nat} (hsize : ∀ o ∈ os, s'.sizeAt o = s.sizeAt o)
    (hg : ∀ o ∈ os, (s'.flagsAt o).garbage = (s.flagsAt o).garbage) : s'.usedBy os = s.usedBy os := by
  induction os with
  | nil => rfl
  | cons o os ih =>
    have hrest := ih (fun o' ho' => hsize o' (List.mem_cons_of_mem _ ho'))
      fun o' ho' => hg o' (List.mem_cons_of_mem _ ho')
    rw [← List.singleton_append, usedBy_append, usedBy_append, hrest, usedBy_singleton, usedBy_singleton,
      hg o (List.mem_cons_self ..), hsize o (List.mem_cons_self ..)]

/-- All words but those of clauses which are not garbage are garbage.  The induction is along the walk. -/
theorem Chain.garbageFrom_add (h : s.Chain p) : s.garbageFrom p + s.usedBy (s.offsetsFrom p) + p = s.words.size := by
  induction h with
  | done =>
    rw [garbageFrom, if_neg (Nat.lt_irrefl _), offsetsFrom_done (Nat.le_refl _)]
    simp [usedBy]
  | @gap p inside pad _ ih =>
    rw [garbageFrom, if_pos inside, if_pos pad, offsetsFrom_gap inside pad]
    omega
  | @clause p size three fits _ ih =>
    have hlt : p < s.words.size := by omega
    have hnext : p + (headerWords + s.sizeAt p) = p + headerWords + s.sizeAt p := (Nat.add_assoc ..).symm
    rw [garbageFrom, if_pos hlt, if_neg size, offsetsFrom_clause hlt size, ← List.singleton_append, usedBy_append,
      usedBy_singleton]
    simp only [hnext]
    split <;> omega

/-- Where the sizes of the clauses are the same and the same ones are garbage, so is the count. -/
theorem garbageFrom_congr (hc : s.Chain 0) (hc' : s'.Chain 0) (hwords : s'.words.size = s.words.size)
    (hoff : s'.offsets = s.offsets) (hsize : ∀ o ∈ s.offsets, s'.sizeAt o = s.sizeAt o)
    (hg : ∀ o ∈ s.offsets, (s'.flagsAt o).garbage = (s.flagsAt o).garbage) : s'.garbageFrom 0 = s.garbageFrom 0 := by
  have hsum := hc.garbageFrom_add
  have hsum' := hc'.garbageFrom_add
  have hused : s'.usedBy (s'.offsetsFrom 0) = s.usedBy (s.offsetsFrom 0) := by
    rw [show s'.offsetsFrom 0 = s.offsetsFrom 0 from hoff]
    exact usedBy_congr hsize hg
  omega

/-- A new clause is garbage or not, and takes its words only. -/
theorem Appended.garbageFrom {ls : List Literal} {f : Flags} (h : Appended ls f s s') (hc : s.Chain 0) :
    s'.garbageFrom 0 = s.garbageFrom 0 + if f.garbage then headerWords + ls.length else 0 := by
  have hsum := hc.garbageFrom_add
  have hsum' := h.chain.garbageFrom_add
  have hoff : s'.offsetsFrom 0 = s.offsetsFrom 0 ++ [s.words.size] := h.offsets
  have hold : s'.usedBy (s.offsetsFrom 0) = s.usedBy (s.offsetsFrom 0) :=
    usedBy_congr (fun o ho => h.sizeAt hc ho) fun o ho => by rw [h.flagsAt_old hc ho]
  have hlen : s'.sizeAt s.words.size = ls.length := by rw [← length_lits, h.lits]
  have hgarbage : (s'.flagsAt s.words.size).garbage = f.garbage := by rw [h.flags]
  have hsize := h.size
  rw [hoff, usedBy_append, hold, usedBy_singleton, hgarbage, hlen] at hsum'
  split <;> rename_i hf
  · rw [if_pos hf] at hsum'
    omega
  · rw [if_neg hf] at hsum'
    omega

/-- How much garbage there is does not depend on what is noted about it. -/
theorem garbageFrom_count (s : Store) (n p : Nat) : garbageFrom { s with garbage := n } p = s.garbageFrom p := by
  have hword : ∀ i, word { s with garbage := n } i = s.word i := fun _ => rfl
  induction p using garbageFrom.induct s with
  | case1 p hin pad ih =>
    rw [garbageFrom, garbageFrom.eq_1 s, if_pos hin, if_pos pad, if_pos hin, hword, if_pos pad, ih]
  | case2 p hin pad n ih =>
    rw [garbageFrom, garbageFrom.eq_1 s, if_pos hin, if_neg pad, if_pos hin, hword, if_neg pad]
    exact congrArg _ ih
  | case3 p hout => rw [garbageFrom, garbageFrom.eq_1 s, if_neg hout, if_neg hout]

/-- Garbage is counted afresh after a sweep. -/
theorem garbage_sweep {σ : Type} (s : Store) (q : Nat) (rule : SweepRule σ) (x : σ) :
    (s.sweep q rule x).1.garbage = (s.sweep q rule x).1.garbageFrom 0 := by
  simp only [sweep, compact]
  exact (garbageFrom_count ..).symm

end Store

end ClauseLearning

import ClauseLearning.Proofs.Accounting
import ClauseLearning.Proofs.Store.Packing

/-!
# No garbage after a collection

A collection of the whole store writes the clauses that stay one after another.  None of them is garbage, if none had to
be kept for being a reason.  What comes after the sweep moves literals within clauses, and takes no room.

* `Store.SameRoom` — as many words, and as much garbage.
* `Solver.Collectable.tidy_sweep` — the sweep.
* `Solver.Collectable.ends_tidied` — a whole collection.
-/

namespace ClauseLearning

namespace Store

/-- As many words, and as much garbage. -/
def SameRoom (s s' : Store) : Prop := s'.words.size = s.words.size ∧ s'.garbage = s.garbage

instance : Std.Refl SameRoom := ⟨fun _ => ⟨rfl, rfl⟩⟩
instance : IsTrans Store SameRoom := ⟨fun _ _ _ h h' => ⟨h'.1.trans h.1, h'.2.trans h.2⟩⟩

theorem sameRoom_locate (r : Reference) : Keeps SameRoom (locate r) := by
  intro s
  unfold Ends locate
  cases s.size? r <;> exact ⟨rfl, rfl⟩

theorem sameRoom_setWord (s : Store) (i w : Nat) : SameRoom s (s.setWord i w) := ⟨size_setWord .., rfl⟩

theorem sameRoom_updateFlags (r : Reference) (f : Flags → Flags) : Keeps SameRoom (updateFlags r f) :=
  .bind (sameRoom_locate r) fun _ => .modify fun s => sameRoom_setWord s _ _

theorem sameRoom_swapAt (s : Store) (o i j : Nat) : SameRoom s (s.swapAt o i j) := ⟨size_swapAt .., rfl⟩

end Store

namespace Solver

variable {ε : Type} {lags : Prop} {s S : Solver ε} {o : Nat} {mode : CollectMode} {done : List Nat} {t : Store}

/-! ## After the sweep -/

/-- The store takes as much room. -/
def Roomed (s s' : Solver ε) : Prop := Store.SameRoom s.store s'.store

instance : Std.Refl (Roomed (ε := ε)) := ⟨fun s => refl_of Store.SameRoom s.store⟩
instance : IsTrans (Solver ε) Roomed := ⟨fun _ _ _ h h' => trans_of Store.SameRoom h h'⟩

theorem roomed_onStore {α : Type} {x : StoreM α} (h : Keeps Store.SameRoom x) :
    Keeps Roomed (onStore x : SolverM ε α) := by
  intro s
  exact (ends_onStore x).2 (h s.store)

theorem roomed_pinLiterals (pin : Bool) (ls : List Literal) : Keeps Roomed (pinLiterals pin ls : SolverM ε Unit) := by
  induction ls with
  | nil => exact .pure _
  | cons l ls ih =>
    unfold pinLiterals
    refine .bind .get fun s => ?_
    dsimp only
    split
    · exact .bind (roomed_onStore (Store.sameRoom_updateFlags _ _)) fun _ => ih
    · exact ih

theorem roomed_pinReasons (pin : Bool) : Keeps Roomed (pinReasons pin : SolverM ε Unit) :=
  .bind .get fun _ => roomed_pinLiterals pin _

theorem roomed_rewatchAll (rs : List Reference) : Keeps Roomed (rewatchAll rs : SolverM ε Unit) := by
  induction rs with
  | nil => exact .pure _
  | cons r rs ih =>
    refine .bind (roomed_onStore (Store.sameRoom_locate r)) fun _ => .bind (.modify fun s => ?_) fun _ => ih
    exact trans_of Store.SameRoom (Store.sameRoom_swapAt ..) (Store.sameRoom_swapAt ..)

/-- What comes after the sweep takes no room. -/
theorem roomed_settle (start : Nat) : Keeps Roomed (do
    Solver.rewatch start
    pinReasons false
    modify fun s => { s with recent := s.recent.clear } : SolverM ε Unit) :=
  .bind (.bind .get fun _ => roomed_rewatchAll _) fun _ =>
    .bind (roomed_pinReasons false) fun _ => .modify fun s => refl_of Store.SameRoom s.store

/-! ## The sweep -/

section Sweep

variable (hS : S.Collectable lags 0)
  (hpin : ∀ o ∈ S.store.offsets, (S.store.flagsAt o).reason = true ↔ S.IsReason o) (hno : ∀ o, ¬ S.IsReason o)
include hS hpin hno

/-- No garbage is written. -/
theorem Collectable.tidy_visit {x : Assignment × Watches} (ho : o ∈ S.store.offsets)
    (hsw : Sweeping lags S 0 done t x) (h : t.garbageFrom 0 = 0) :
    S.store.Visits (ruleOf mode) (fun _ t _ => t.garbageFrom 0 = 0) done o t x := by
  have htreated := hS.treated hpin ho hsw.rehomes.rehomed mode ⟨o, S.store.epoch⟩
    ⟨t.words.size, Store.nextEpoch S.store.epoch⟩
  unfold Store.Visits
  generalize ruleOf mode x ⟨o, S.store.epoch⟩ ⟨t.words.size, Store.nextEpoch S.store.epoch⟩
    (S.store.recordAt o) = result at htreated ⊢
  obtain ⟨new, a', w'⟩ := result
  simp only at htreated ⊢
  cases htreated with
  | dropped hs => exact h
  | paired hs left => exact h
  | @kept c hs left three glue flags =>
    have hg : c.settled.flags.garbage = false := by
      simp only [survives, hno o, decide_false, Bool.false_or, Bool.and_eq_true, Bool.not_eq_true'] at hs
      rw [Store.flags_settled, flags]
      exact hs.1
    obtain ⟨hfit, -⟩ := hS.fits_residue hpin ho hs
    have hlen := hS.frame.length_lt_padding hfit.nodup hfit.usable
    rw [← left, Array.length_toList] at hlen
    have ha := Store.appended_append (c := c.settled) hsw.moves.chain three (Nat.ne_of_lt hlen)
    have hcount := ha.garbageFrom hsw.moves.chain
    rw [h, hg] at hcount
    exact hcount

/-- After the sweep no word is garbage, and none is counted as such. -/
theorem Collectable.tidy_sweep (mode : CollectMode) :
    (S.sweep 0 mode).2.store.garbage = 0 ∧ (S.sweep 0 mode).2.store.garbageFrom 0 = 0 := by
  have hstart : (S.store.cut 0 (Store.nextEpoch S.store.epoch)).garbageFrom 0 = 0 := by
    rw [Store.garbageFrom, Store.size_cut (Nat.zero_le _), if_neg (Nat.lt_irrefl 0)]
  obtain ⟨t, x, g, -, ht, he⟩ := hS.sweep_induct (P := fun _ t _ => t.garbageFrom 0 = 0) mode hpin
    (fun _ _ _ _ ho _ hsw h => hS.tidy_visit hpin hno ho hsw h) hstart
  have hwords : (S.sweep 0 mode).2.store.garbageFrom 0 = 0 := by
    rw [he]
    exact (Store.garbageFrom_count t g 0).trans ht
  have hcount : (S.sweep 0 mode).2.store.garbage = (S.sweep 0 mode).2.store.garbageFrom 0 := by
    cases mode with
    | sparse => exact Store.garbage_sweep S.store 0 sparseRule (S.assignment, S.watches)
    | dense => exact Store.garbage_sweep S.store 0 denseRule (S.assignment, S.watches)
  exact ⟨hcount.trans hwords, hwords⟩

end Sweep

/-! ## The whole collection -/

/-- After a collection of the whole store no word is garbage, if no clause was a reason. -/
theorem Collectable.ends_tidied (h : s.Collectable lags 0) (hclean : s.Clean) (hno : ∀ o, ¬ s.IsReason o)
    (mode : CollectMode) :
    Ends (collect 0 mode) s (fun _ s' => s'.store.garbage = 0 ∧ (s'.store.Chain 0 → s'.store.garbageFrom 0 = 0))
      fun _ _ => False := by
  rw [collect_eq, ends_bind, ends_modify, ends_bind]
  have h₀ : Collectable lags (s.count fun c => { c with collections := c.collections + 1 }) 0 :=
    { h with frame := { h.frame with } }
  refine (h₀.ends_pin hclean.unpinned).imp (fun _ s₁ hs₁ => ?_) fun _ _ hf => hf
  obtain ⟨st₁, rfl, hp₁, h₁, hpin₁⟩ := hs₁
  have hno₁ : ∀ o, ¬ IsReason { s.count (fun c => { c with collections := c.collections + 1 }) with store := st₁ } o := by
    rintro o ⟨l, hl, hr⟩
    have hepoch : st₁.epoch = s.store.epoch := hp₁.epoch
    exact hno o ⟨l, hl, hepoch ▸ hr⟩
  obtain ⟨w, he, h₂, hon, -, hm⟩ := h₁.unwatch (fun h0 => absurd rfl h0) mode
  rw [ends_bind, ends_modify]
  rw [he] at h₂ ⊢
  obtain ⟨hnone, hwords⟩ := h₂.tidy_sweep hpin₁ hno₁ mode
  obtain ⟨t, x, hsw, hsweep⟩ := @Collectable.sweep _ _ _ _ mode h₂ hpin₁
  rw [hsweep] at hnone hwords
  obtain ⟨a, w', hretag, ha, hr, hl, hview⟩ := retag_eq h₂ hsw hm
  rw [hsw.moves.epoch] at hretag
  have hfrom : unwatchedFrom mode 0 = 0 := by cases mode <;> rfl
  have hsettle := (rewiring_carried h₂ hsw ha hr hview hl (Nat.le_of_eq hfrom) hon).ends_settle (.inl hfrom)
  have hroom := roomed_settle (unwatchedFrom mode 0)
    { s.count (fun c => { c with collections := c.collections + 1 }) with store := t, assignment := a, watches := w' }
  have hboth := hsettle.and hroom
  simp only [ends_bind, ends_modifyGet, ends_modify] at hboth ⊢
  rw [hsweep]
  simp only [hretag]
  refine hboth.imp (fun _ s₂ hs₂ => hs₂.imp (fun _ s₃ hs₃ => ?_) fun _ _ hf => hf.1) fun _ _ hf => hf.1
  obtain ⟨hset, hsize, hgarbage⟩ := hs₃
  refine ⟨hgarbage.trans hnone, fun hc => ?_⟩
  refine (Store.garbageFrom_congr hsw.moves.chain hc hsize hset.offsets ?_ ?_).trans hwords
  · intro o ho
    rw [← Store.length_lits, ← Store.length_lits]
    exact (hset.same o ho).perm.length_eq
  · intro o ho
    have hflags := congrArg Flags.garbage (hset.same o ho).flags
    exact hflags

end Solver

end ClauseLearning

import ClauseLearning.Proofs.Elimination
import ClauseLearning.Proofs.RootPropagation
import ClauseLearning.Proofs.RootRounds

/-!
# Models of what was there from models of what is left

When pure literals were eliminated, a model of the clauses that are left is made one of the clauses that were there
before by going through the extension stack, and only the values of eliminated variables change.  Clauses which were put
on the stack by earlier eliminations do no harm, since nothing that is left is about their witnesses.

* `Solver.Reconstructs` — models are made in that way.
* `Solver.Equisatisfiable` — there is a model of what is left if and only if there was one before.
* `Solver.rounds` — any number of rounds.
* `Solver.preprocess_reconstructs` — rounds at the root, by themselves and when preprocessing.
-/

namespace ClauseLearning

/-- A variable that is the one of no witness keeps its value. -/
theorem Extension.foldl_mend_of_ne {ws : List Witnessed} {x : Nat} (v : Valuation)
    (h : ∀ w ∈ ws, w.witness.var ≠ x) : ws.foldl Witnessed.mend v x = v x := by
  induction ws generalizing v with
  | nil => rfl
  | cons w ws ih =>
    rw [List.foldl_cons, ih _ fun w' hw' => h w' (List.mem_cons_of_mem _ hw')]
    unfold Witnessed.mend
    split
    · rfl
    · exact if_neg (h w (List.mem_cons_self ..)).symm

/-- Only the value of its variable matters for a literal. -/
theorem Valuation.makesTrue_congr {u v : Valuation} {l : Literal} (h : v.makesTrue l = true) (hu : u l.var = v l.var) :
    u.makesTrue l = true := by
  unfold makesTrue at h ⊢
  rw [hu]
  exact h

/-- Only the values of the variables of a clause matter for it. -/
theorem Valuation.Satisfies.congr {u v : Valuation} {c : List Literal} (h : v.Satisfies c)
    (hu : ∀ l ∈ c, u l.var = v l.var) : u.Satisfies c := by
  obtain ⟨l, hl, ht⟩ := h
  exact ⟨l, hl, makesTrue_congr ht (hu l hl)⟩

namespace Solver

variable {ε : Type} {lags : Prop} {s s' s₁ : Solver ε} {u v : Valuation} {p : Nat}

/-! ## Models -/

/-- What is never dropped is about usable variables only. -/
theorem Rooted.base_congr (h : s.Rooted) (hv : s.Base v) (hu : ∀ x, s.numbering.Usable x → u x = v x) : s.Base u := by
  refine ⟨?_, ?_, ?_⟩
  · intro l hl h0
    exact Valuation.makesTrue_congr (hv.root l hl h0) (hu _ (h.frame.usable_of_mem hl))
  · intro o ho hr hg
    exact (hv.large o ho hr hg).congr fun l hl => hu _ (h.usable o ho hg l hl)
  · intro l o y hm
    obtain ⟨hl, ho, -⟩ := h.paired.usable l o false y hm
    refine (hv.binary l o y hm).congr ?_
    simp [hu _ hl, hu _ ho]

/-- A model of what is left is made one of what is never to be dropped. -/
structure Reconstructs (s s' : Solver ε) : Prop where
  /-- Nothing is decided. -/
  level : s'.trail.level = 0
  /-- No variable becomes known. -/
  size : s'.numbering.size = s.numbering.size
  /-- The extension stack is gone through, and only values of eliminated variables change. -/
  extend : ∀ values v, Extension.Reads s.numbering.size values v → s'.Base v →
    ∃ u, Extension.Reads s.numbering.size (s'.extension.extend values) u ∧ s.Base u ∧
      ∀ x, u x ≠ v x → s'.numbering.isEliminated x = true

/-- There is a model of what is left if and only if there was one before, with redundant clauses or without. -/
structure Equisatisfiable (s s' : Solver ε) : Prop where
  /-- Without redundant clauses. -/
  base : (∃ v, s'.Base v) ↔ ∃ v, s.Base v
  /-- With them. -/
  respects : (∃ v, s'.Respects v) ↔ ∃ v, s.Respects v

/-- One or more rounds may be undone. -/
theorem Strips.reconstructs (h : Strips s s') (hs : s.Rooted) (hstack : s.Stacked) : Reconstructs s s' := by
  refine ⟨h.rooted.level, h.size, ?_⟩
  intro values v hreads hv
  have hstack' := (Later.of_grows h.toGrows).stacked hstack
  refine ⟨s'.extension.complete v, Extension.reads_extend hreads ?_, ?_, ?_⟩
  · intro w hw
    exact h.size ▸ (hstack' w hw).1
  · obtain ⟨ws, he, -, hbase⟩ := h.stack
    unfold Extension.complete
    rw [he, List.foldl_append]
    -- the witnesses of earlier eliminations are not usable any more
    refine hs.base_congr (hbase v hv) ?_
    intro x hx
    refine Extension.foldl_mend_of_ne _ ?_
    rintro w hw rfl
    exact Bool.false_ne_true (hx.2.symm.trans (hstack w hw).2)
  · intro x hx
    by_contra helim
    refine hx (Extension.foldl_mend_of_ne v ?_)
    rintro w hw rfl
    exact helim (hstack' w hw).2

/-- There are values for all literals. -/
theorem exists_reads (n : Nat) (v : Valuation) : ∃ values, Extension.Reads n values v := by
  refine ⟨Array.ofFn fun i : Fin (2 * n) => .ofBool (v.makesTrue ⟨i⟩), by simp, ?_⟩
  intro l hl
  have hcode := Literal.code_lt_iff.2 hl
  rw [Array.getD_eq_getD_getElem?, Array.getElem?_ofFn, dif_pos hcode]
  rfl

/-- Where nothing is added and models can be made, redundant clauses do not matter as long as they follow. -/
theorem Reconstructs.equisatisfiable (h : Reconstructs s s') (hkept : ∀ v, s.Respects v → s'.Respects v)
    (hfollow : ∀ v, s.Base v → s.Respects v) : Equisatisfiable s s' := by
  have hback : (∃ v, s'.Base v) → ∃ v, s.Base v := by
    rintro ⟨v, hv⟩
    obtain ⟨values, hreads⟩ := exists_reads s.numbering.size v
    obtain ⟨u, -, hu, -⟩ := h.extend values v hreads hv
    exact ⟨u, hu⟩
  refine ⟨⟨hback, ?_⟩, ⟨?_, ?_⟩⟩
  · rintro ⟨v, hv⟩
    exact ⟨v, (hkept v (hfollow v hv)).base⟩
  · rintro ⟨v, hv⟩
    obtain ⟨u, hu⟩ := hback ⟨v, hv.base⟩
    exact ⟨u, hfollow u hu⟩
  · rintro ⟨v, hv⟩
    exact ⟨v, hkept v hv⟩

/-! ## Rounds -/

/-- Eliminates pure literals `n` times. -/
def rounds : Nat → SolverM ε Unit
  | 0 => return ()
  | n + 1 => do
    let _ ← eliminatePure
    rounds n

/-- Any number of rounds meets no fault. -/
theorem Rooted.ends_rounds (h : s.Rooted) (n : Nat) :
    Ends (rounds n) s (fun _ s' => Strips s s') fun _ _ => False := by
  induction n generalizing s with
  | zero => exact (ends_pure _).2 h.strips
  | succ n ih =>
    rw [rounds, ends_bind]
    refine h.ends_eliminatePure.imp ?_ fun _ _ hf => hf
    rintro _ s₁ ⟨hstrips, -, -⟩
    refine (ih hstrips.rooted).imp ?_ fun _ _ hf => hf
    intro _ s' hs'
    exact hstrips.trans hs'

/-! ## Preprocessing -/

theorem Fulfils.respects (h : s.Fulfils v) : s.Respects v := ⟨h.root, fun o ho _ => h.large o ho, h.binary⟩

/-- Where there is no garbage and no redundant clause, everything there is is never dropped. -/
theorem Rooted.fulfils (h : s.Rooted)
    (hlarge : ∀ o ∈ s.store.offsets, (s.store.flagsAt o).redundant = false ∧ (s.store.flagsAt o).garbage = false)
    (hbinary : ∀ c ∈ s.watches.binaries, c.redundant = false) (hv : s.Base v) : s.Fulfils v := by
  refine ⟨hv.root, ?_, ?_⟩
  · intro o ho
    exact hv.large o ho (hlarge o ho).1 (hlarge o ho).2
  · intro l o r y hm
    have hr : r = false := by
      rcases h.paired.mem_iff.1 hm with hc | hc
      · exact hbinary _ hc
      · exact hbinary _ hc
    subst hr
    exact hv.binary l o y hm

/-- What propagation at the root adds may be undone together with the rounds after it. -/
theorem Arrived.reconstructs (h : Arrived lags s s₁) (h' : Reconstructs s₁ s') : Reconstructs s s' := by
  have hsize : s₁.numbering.size = s.numbering.size := congrArg Numbering.size h.numbering
  refine ⟨h'.level, h'.size.trans hsize, ?_⟩
  rw [← hsize]
  intro values v hreads hv
  obtain ⟨u, hread, hu, hsame⟩ := h'.extend values v hreads hv
  exact ⟨u, hread, h.base u hu, hsame⟩

/-- What preprocessing comes to. -/
structure Preprocessed (s s' : Solver ε) : Prop where
  /-- Models can be made. -/
  reconstructs : Reconstructs s s'
  /-- There is a model of what is left if and only if there was one before. -/
  equisatisfiable : (∀ v, s.Base v → s.Fulfils v) → Equisatisfiable s s'
  /-- There was a conflict, or rounds were gone through.  Then no literal is pure, unless they were cut short. -/
  ending : propagateRoot s = .ok false s' ∨
    ∃ s₁ cut, propagateRoot s = .ok true s₁ ∧ Rounds s₁ cut s' ∧ (cut = false → s'.Mixed)

/-- Preprocessing at the root meets no fault, wherever propagation has come to before. -/
theorem Inv.ends_preprocess (h : s.Inv lags p) (h0 : s.trail.level = 0) (hstack : s.Stacked) :
    Ends preprocess s (fun _ s' => Preprocessed s s') fun _ _ => False := by
  obtain ⟨b, s₁, hrun, harrived⟩ := (h.ends_propagateRoot h0).exists_ok
  have hrooted := harrived.inv.rooted harrived.level
  have hstack₁ : s₁.Stacked := (Later.of_same harrived.numbering harrived.extension).stacked hstack
  have hpropagate : Ends propagateRoot s (fun b' s' => b = b' ∧ s₁ = s') fun _ _ => False :=
    (ends_of_ok hrun).2 ⟨rfl, rfl⟩
  -- the rounds, of which there may be none
  have hcomes : ∀ {s'}, Strips s₁ s' →
      Reconstructs s s' ∧ ((∀ v, s.Base v → s.Fulfils v) → Equisatisfiable s s') := by
    intro s' hs'
    have hrec := harrived.reconstructs (hs'.reconstructs hrooted hstack₁)
    refine ⟨hrec, ?_⟩
    intro hfollow
    refine hrec.equisatisfiable ?_ fun v hv => (hfollow v hv).respects
    intro v hv
    exact hs'.respects v (harrived.fulfils v (hfollow v hv.base)).respects
  unfold preprocess
  simp only [ends_bind, ends_get, ends_ite, ends_throw]
  refine ⟨fun hn => absurd h0 hn, fun _ => ?_⟩
  refine hpropagate.imp ?_ fun _ _ hf => hf
  rintro _ _ ⟨rfl, rfl⟩
  refine ⟨?_, ?_⟩
  · rintro rfl
    have hactive : s₁.active < s₁.assignment.size + 1 := by
      rw [show s₁.assignment.size = s₁.numbering.size from hrooted.frame.sized.records]
      exact Nat.lt_succ_of_le hrooted.frame.active_le
    refine (hrooted.ends_eliminateRounds hactive).imp ?_ fun _ _ hf => hf
    rintro _ s' ⟨hstrips, cut, hrounds, hmixed⟩
    obtain ⟨hrec, hsat⟩ := hcomes hstrips
    exact ⟨hrec, hsat, .inr ⟨s₁, cut, hrun, hrounds, hmixed⟩⟩
  · intro hb
    obtain rfl : b = false := Bool.not_eq_true _ ▸ hb
    obtain ⟨hrec, hsat⟩ := hcomes hrooted.strips
    exact ⟨hrec, hsat, .inl hrun⟩

variable {C : Settings} {hooks : Hooks ε} {limits : Limits} {stopped : Bool} {outside : ε} {moment : Moment}

/-- What is found by evaluating calls that add clauses, and preprocessing after something else was done. -/
theorem exists_preprocessed (s₀ : Solver ε) (calls : List Call) (f : Solver ε → Solver ε)
    (test : Solver ε → Solver ε → Bool)
    (h : ((result? (calls.forM Call.run) s₀).any fun x =>
      (result? preprocess (f x.2)).any fun y => test x.2 y.2) = true) :
    ∃ s s', Relation.ReflTransGen Move (.adding, s₀) (.adding, s) ∧ preprocess (f s) = .ok () s' ∧
      test s s' = true := by
  obtain ⟨⟨⟨⟩, s⟩, hload, hrest⟩ := (Option.any_eq_true _ _).1 h
  obtain ⟨⟨⟨⟩, s'⟩, hrun, htest⟩ := (Option.any_eq_true _ _).1 hrest
  exact ⟨s, s', reached_calls (result?_eq_some.1 hload), result?_eq_some.1 hrun, htest⟩

/-- Rounds of the elimination of pure literals at the root, whatever was called before.  Any number of them succeeds, and
every assignment of what is left is made a model of what was there by going through the extension stack.  When
preprocessing they come to an end, and leave no pure literal unless there was a conflict or it was asked to stop. -/
theorem preprocess_reconstructs (h : Reached C hooks limits stopped outside (moment, s)) (h0 : s.trail.level = 0) :
    (∀ n, ∃ s', rounds n s = .ok () s' ∧ Reconstructs s s' ∧
      ((∀ v, s.Base v → s.Respects v) → Equisatisfiable s s')) ∧
    ∃ s', preprocess s = .ok () s' ∧ Preprocessed s s' := by
  obtain ⟨p, hp⟩ := h.stands.intact
  have hrooted := hp.rooted h0
  have hstack := Reached.stacked h
  refine ⟨?_, ?_⟩
  · intro n
    obtain ⟨⟨⟩, s', hrun, hstrips⟩ := (hrooted.ends_rounds n).exists_ok
    have hrec := hstrips.reconstructs hrooted hstack
    exact ⟨s', hrun, hrec, fun hfollow => hrec.equisatisfiable hstrips.respects hfollow⟩
  · obtain ⟨⟨⟩, s', hrun, hs'⟩ := (hp.ends_preprocess h0 hstack).exists_ok
    exact ⟨s', hrun, hs'⟩

/-- Four clauses, in which the third and the fourth variable occur with one polarity only.  These two are eliminated, and
the clauses on the other variables stay. -/
theorem preprocess_reconstructs_two : ∃ s s' : Solver Unit,
    Reached {} {} {} false () (.adding, s) ∧ s.trail.level = 0 ∧ (∃ s₁, rounds 1 s = .ok () s₁ ∧ Reconstructs s s₁ ∧
      Equisatisfiable s s₁) ∧ preprocess s = .ok () s' ∧ Preprocessed s s' ∧ Equisatisfiable s s' ∧
      (List.range 4).filter s'.numbering.isEliminated = [2, 3] := by
  obtain ⟨s, s', h, hrun, htest⟩ := exists_preprocessed (fresh {} {} {} false ())
    [.clause [1, 2], .clause [-1, -2], .clause [1, 2, 3], .clause [-1, 4]] id
    (fun s s' => s.trail.level = 0 ∧ (∀ o ∈ s.store.offsets, (s.store.flagsAt o).redundant = false ∧
      (s.store.flagsAt o).garbage = false) ∧ (∀ c ∈ s.watches.binaries, c.redundant = false) ∧
        (List.range 4).filter s'.numbering.isEliminated = [2, 3]) (by decide +kernel)
  obtain ⟨h0, hlarge, hbinary, helim⟩ := of_decide_eq_true htest
  obtain ⟨p, hp⟩ := (Reached.stands h).intact
  have hfollow : ∀ v, s.Base v → s.Fulfils v := by
    intro v hv
    exact (hp.rooted h0).fulfils hlarge hbinary hv
  obtain ⟨hrounds, s₂, hrun₂, hs₂⟩ := preprocess_reconstructs h h0
  obtain ⟨s₁, hrun₁, hrec, hsat⟩ := hrounds 1
  obtain ⟨-, rfl⟩ := EStateM.Result.ok.inj (hrun.symm.trans hrun₂)
  exact ⟨s, s', h, h0, ⟨s₁, hrun₁, hrec, hsat fun v hv => (hfollow v hv).respects⟩, hrun, hs₂,
    hs₂.equisatisfiable hfollow, helim⟩

/-- A unit from outside, which was not propagated yet, is in conflict with two clauses, and this is found out while
preprocessing.  The clause on the third and the fourth variable stays as it is, although each of them occurs with one
polarity only, and it was not asked to stop. -/
theorem preprocess_conflict : ∃ s s' : Solver Unit,
    Reached {} {} {} false () (.underway, s) ∧ s.trail.level = 0 ∧ s.inconsistent = false ∧
      s.isTerminated = (false, s) ∧ preprocess s = .ok () s' ∧ s'.isTerminated = (false, s') ∧ ¬ s'.Mixed := by
  obtain ⟨s, s', h, hrun, htest⟩ := exists_preprocessed (fresh {} {} {} false ())
    [.clause [-1, 2], .clause [-1, -2], .clause [3, 4]] (fun s => s.importUnit 1)
    (fun s s' => s.trail.level = 0 ∧ s.inconsistent = false ∧ (s.importUnit 1).trail.level = 0 ∧
      (s.importUnit 1).inconsistent = false ∧ (s.importUnit 1).stopped = false ∧
      (s.importUnit 1).hooks.terminate.isNone ∧ s'.stopped = false ∧ s'.hooks.terminate.isNone ∧
      .binary (.make 3 true) false false ∈ s'.watches.view (.make 2 true) ∧
      s'.val (.make 2 true) = .unassigned ∧ s'.numbering.isEliminated 2 = false ∧ s'.store.offsets = [] ∧
      s'.watches.view (.make 2 false) = []) (by decide +kernel)
  obtain ⟨h0, hi, h0', hi', hstop, hask, hstop', hask', hmem, hval, helim, hstore, hview⟩ := of_decide_eq_true htest
  have hmoment : (s.importUnit 1).moment = .underway := by
    unfold moment
    rw [hi']
    rfl
  have hreached : Reached {} {} {} false () (.underway, s.importUnit 1) :=
    hmoment ▸ (h.tail (.settle hi)).tail (.importUnit 1 h0)
  have hgo : ∀ {s : Solver Unit}, s.stopped = false → s.hooks.terminate.isNone = true →
      s.isTerminated = (false, s) := by
    intro s hstop hask
    unfold isTerminated
    rw [hstop, Option.isNone_iff_eq_none.1 hask]
    rfl
  refine ⟨s.importUnit 1, s', hreached, h0', hi', hgo hstop hask, hrun, hgo hstop' hask', ?_⟩
  intro hmixed
  rcases hmixed (.make 2 true) (.inr ⟨_, _, _, hmem⟩) hval helim with ⟨o, ho, -⟩ | ⟨o, r, y, hm⟩
  · rw [hstore] at ho
    simp at ho
  · have hneg : -Literal.make 2 true = .make 2 false := rfl
    rw [hneg, hview] at hm
    simp at hm

end Solver

end ClauseLearning

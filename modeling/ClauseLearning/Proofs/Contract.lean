import ClauseLearning.Proofs.Invariant

/-!
# What is outside

A solver takes units and clauses over from outside, and hands learnt clauses out.  A `Contract` is about one
valuation, and has two predicates on what is outside: as long as it *trusts*, everything handed in was
satisfied; and it is *sound* if everything handed out was satisfied where what had been handed in before
was.  So a solver that keeps any contract hands out only what follows from what it was given.

* `Contract` — the two predicates, with what hooks do to them.
* `Contract.alone` — the contract of a solver that is handed nothing.
* `Solver.Told` — a solver keeps a contract.
* `Solver.Advances` — a step that keeps every contract and drops nothing.
-/

namespace ClauseLearning

variable {ε : Type}

/-- What an external clause says.  If there is a zero in it, it says nothing. -/
def Numbering.toClause (c : List Int) : List Literal :=
  if 0 ∈ c then [.make 0 true, .make 0 false] else c.map Numbering.toLiteral

theorem Numbering.toClause_of_not_mem {c : List Int} (h : 0 ∉ c) : toClause c = c.map toLiteral := if_neg h

/-- What is outside of a solver, as one valuation sees it. -/
structure Contract (h : Hooks ε) (v : Valuation) where
  /-- Everything handed in so far is satisfied. -/
  trusts : ε → Prop
  /-- Everything handed out so far is satisfied, as far as what was handed in before is. -/
  sound : ε → Prop
  /-- Asking whether to stop hands nothing in or out. -/
  terminate : ∀ f, h.terminate = some f → ∀ e, sound e →
    sound (f e).2 ∧ (trusts (f e).2 → trusts e)
  /-- A clause may be handed out if it is satisfied where everything handed in is. -/
  exportClause : ∀ f, h.exportClause = some f → ∀ ls glue e, sound e →
    (trusts e → v.Satisfies (ls.map Numbering.toLiteral)) →
      sound (f ls glue e).2 ∧ (trusts (f ls glue e).2 → trusts e)
  /-- If everything handed in is satisfied, then so is a unit that is handed in. -/
  units : ∀ src, h.units = some src → ∀ e, sound e → sound (src.next e).2 ∧
    (trusts (src.next e).2 → trusts e ∧
      ∀ u, (src.next e).1 = some u → v.Satisfies (Numbering.toClause [u]))
  /-- If everything handed in is satisfied, then so is a clause that is handed in. -/
  clauses : ∀ src, h.clauses = some src → ∀ e, sound e → sound (src.next e).2 ∧
    (trusts (src.next e).2 → trusts e ∧
      ∀ c, (src.next e).1 = some c → v.Satisfies (Numbering.toClause c.literals))

/-- The contract of a solver that is handed nothing. -/
def Contract.alone {h : Hooks ε} (hu : h.units = none) (hc : h.clauses = none) (v : Valuation) : Contract h v where
  trusts _ := True
  sound _ := True
  terminate _ _ _ _ := ⟨trivial, id⟩
  exportClause _ _ _ _ _ _ _ := ⟨trivial, id⟩
  units src hsrc := by
    rw [hu] at hsrc
    cases hsrc
  clauses src hsrc := by
    rw [hc] at hsrc
    cases hsrc

namespace Solver

variable {h : Hooks ε} {v : Valuation} {s s' s'' : Solver ε}

/-- A solver keeps a contract: as long as everything handed in is satisfied, so is all that is known, and
the clause learnt last. -/
structure Told (K : Contract h v) (s : Solver ε) : Prop where
  /-- The hooks are those that the contract is about. -/
  hooks : s.hooks = h
  /-- What was handed out is satisfied. -/
  sound : K.sound s.outside
  /-- What is known is satisfied. -/
  holds : K.trusts s.outside → s.Holds v
  /-- The clause learnt last is satisfied. -/
  learned : K.trusts s.outside → s.learned = #[] ∨ v.Satisfies s.learned.toList

/-- A step of a solver that keeps every contract, and drops nothing that is never to be dropped. -/
structure Advances (s s' : Solver ε) : Prop where
  /-- The settings stay. -/
  settings : s'.settings = s.settings
  /-- The hooks stay. -/
  hooks : s'.hooks = s.hooks
  /-- No variable becomes known or is eliminated. -/
  numbering : s'.numbering = s.numbering
  /-- Nothing is put on the extension stack. -/
  extension : s'.extension = s.extension
  /-- The status stays. -/
  status : s'.status = s.status
  /-- No clause is begun. -/
  pending : s'.pending = s.pending
  /-- A refutation stays. -/
  inconsistent : s.inconsistent = true → s'.inconsistent = true
  /-- Contracts are kept. -/
  told : ∀ {h v} (K : Contract h v), Told K s → Told K s'
  /-- What is never dropped is not dropped. -/
  base : ∀ v, s'.Base v → s.Base v

namespace Advances

theorem refl (s : Solver ε) : Advances s s :=
  ⟨rfl, rfl, rfl, rfl, rfl, rfl, id, fun _ => id, fun _ => id⟩

theorem trans (h : Advances s s') (h' : Advances s' s'') : Advances s s'' :=
  ⟨h'.settings.trans h.settings, h'.hooks.trans h.hooks, h'.numbering.trans h.numbering,
    h'.extension.trans h.extension, h'.status.trans h.status, h'.pending.trans h.pending,
    h'.inconsistent ∘ h.inconsistent, fun K hk => h'.told K (h.told K hk),
    fun v hv => h.base v (h'.base v hv)⟩

end Advances

/-- A step inside of a solver that keeps the clause learnt last. -/
theorem Refines.advances (hr : Refines s s') (hl : s'.learned = s.learned) : Advances s s' :=
  { hr with
    told := fun K hk => by
      refine ⟨hr.hooks.trans hk.hooks, ?_, fun ht => ?_, fun ht => ?_⟩
      · rw [hr.outside]
        exact hk.sound
      · rw [hr.outside] at ht
        exact hr.holds _ (hk.holds ht)
      · rw [hr.outside] at ht
        rw [hl]
        exact hk.learned ht }

/-! ## Asking whether to stop -/

/-- Only what is outside is touched. -/
theorem isTerminated_eq (s : Solver ε) : ∃ outside, s.isTerminated.2 = { s with outside } := by
  unfold isTerminated
  split
  · exact ⟨s.outside, rfl⟩
  · split
    · exact ⟨s.outside, rfl⟩
    · exact ⟨_, rfl⟩

theorem advances_isTerminated (s : Solver ε) : Advances s s.isTerminated.2 := by
  unfold isTerminated
  split
  · exact .refl s
  · split
    · exact .refl s
    · next f hf =>
      refine ⟨rfl, rfl, rfl, rfl, rfl, rfl, id, fun K hk => ?_, fun v hv => { hv with }⟩
      obtain ⟨h1, h2⟩ := K.terminate f (hk.hooks ▸ hf) s.outside hk.sound
      exact ⟨hk.hooks, h1, fun ht => { hk.holds (h2 ht) with }, fun ht => hk.learned (h2 ht)⟩

end Solver

end ClauseLearning

import ClauseLearning.Proofs.Ordering

/-!
# Clauses during propagation

Propagation moves literals within clauses and watches between lists.  No clause comes or goes on the way, except for
the binary clauses that are derived on level one.  So on any other level the clauses are the same ones afterwards, with
the same notes, and the binary clauses are in the same lists in the same order.

* `Solver.Rearranged` — clauses are the same but for the order of their literals.
* `Solver.Shaped.rearranged_propagateList` — the watches of one literal.
* `Solver.Shaped.ends_propagate_rearranged` — propagation, whether it ends in a conflict or not.
-/

namespace ClauseLearning

/-- Whether a watch on a clause of the store is added does not matter to binary clauses. -/
theorem Watches.filter_isBinary_add (w : Watches) (l m b : Literal) (r : Reference) :
    ((w.add l (.large b r)).view m).filter Watch.isBinary = (w.view m).filter Watch.isBinary := by
  rw [view_add_eq, List.filter_append]
  split <;> simp [Watch.isBinary]

namespace Solver

variable {ε : Type} {s s' s'' : Solver ε} {l : Literal} {reason : Reason}

/-- Clauses are the same but for the order of their literals, and the level stays. -/
structure Rearranged (s s' : Solver ε) : Prop where
  /-- The clauses of the store. -/
  store : Reordered s.store s'.store
  /-- The watches of binary clauses. -/
  binary : ∀ l, (s'.watches.view l).filter Watch.isBinary = (s.watches.view l).filter Watch.isBinary
  /-- There are as many lists. -/
  lists : s'.watches.lists.size = s.watches.lists.size
  /-- The level. -/
  level : s'.trail.level = s.trail.level
  /-- Nothing is derived. -/
  derived : s'.derived = s.derived

namespace Rearranged

theorem refl (s : Solver ε) : Rearranged s s :=
  ⟨⟨rfl, rfl, fun _ _ => rfl, fun _ _ => rfl, fun _ _ => .refl _⟩, fun _ => rfl, rfl, rfl, rfl⟩

theorem trans (h : Rearranged s s') (h' : Rearranged s' s'') : Rearranged s s'' :=
  ⟨h.store.trans h'.store, fun l => (h'.binary l).trans (h.binary l), h'.lists.trans h.lists,
    h'.level.trans h.level, h'.derived.trans h.derived⟩

theorem binaries (h : Rearranged s s') : s'.watches.binaries = s.watches.binaries :=
  Watches.binaries_congr h.lists h.binary

end Rearranged

theorem rearranged_assign (s : Solver ε) (l : Literal) (reason : Reason) : Rearranged s (s.assign l reason) := by
  obtain ⟨u, he⟩ := assign_eq s l reason
  rw [he]
  exact { Rearranged.refl s with }

/-- Nothing is derived but on level one. -/
theorem rearranged_assignForced (h1 : s.trail.level ≠ 1) (l : Literal) (r : Reference) :
    Rearranged s (s.assignForced l r) := by
  unfold assignForced
  rw [if_neg fun hc => h1 hc.1]
  exact rearranged_assign s l _

namespace Shaped

/-- The literals of a clause change places. -/
theorem rearranged_permute (h : s.Shaped) {r : Reference} {st : Store} (hr : s.store.Current r)
    (hp : Store.Permuted r.offset s.store st) : Rearranged s { s with store := st } :=
  { Rearranged.refl s with store := reordered_permuted h.store.chain hr.2 hp }

/-- Something becomes of one watch. -/
theorem rearranged_visitWatch (h : s.Shaped) (no : Literal) {w : Watch} (hw : s.Readable w) (h1 : s.trail.level ≠ 1) :
    Rearranged s (s.visitWatch no w).2 := by
  unfold Solver.visitWatch
  cases w with
  | binary other r y =>
    dsimp only
    split
    · exact .refl s
    · exact .refl s
    · exact rearranged_assign _ _ _
  | large b r =>
    have hr : s.store.Current r := hw
    dsimp only
    split
    · exact .refl s
    have hlook : Store.Looked s.assignment r s.store (Store.visit s.assignment no r s.store) :=
      Store.looked_visit h.store.chain hr (List.Nodup.of_map _ (h.store.nodup _ hr.2))
    simp only [onStore]
    cases hvisit : Store.visit s.assignment no r s.store with
    | error e st =>
      rw [hvisit] at hlook
      exact h.rearranged_permute hr hlook
    | ok v st =>
      rw [hvisit] at hlook
      have hr₁ := h.rearranged_permute hr hlook.1
      cases v with
      | satisfied other => exact hr₁
      | moved m o =>
        exact { hr₁ with
          binary := fun l => Watches.filter_isBinary_add _ _ _ _ _
          lists := Watches.size_add .. }
      | forced m => exact hr₁.trans (rearranged_assignForced (s := { s with store := st }) h1 m r)
      | conflict => exact hr₁

/-- The watches of a literal are gone through.  Those of binary clauses stay in its list, in order. -/
theorem rearranged_propagateList (no : Literal) (list : List Watch) (kept : Array Watch) (h : s.Shaped)
    (hlist : ∀ w ∈ list, s.Readable w) (h1 : s.trail.level ≠ 1) :
    Rearranged s (Solver.propagateList no list kept s).2 ∧
      (Solver.propagateList no list kept s).1.2.toList.filter Watch.isBinary =
        (kept.toList ++ list).filter Watch.isBinary := by
  refine propagateList_run
    (I := fun rest gone s' => s'.Shaped ∧ (∀ w ∈ rest, s'.Readable w) ∧ Rearranged s s' ∧
      (gone.toList ++ rest).filter Watch.isBinary = (kept.toList ++ list).filter Watch.isBinary)
    (E := fun out => Rearranged s out.2 ∧
      out.1.2.toList.filter Watch.isBinary = (kept.toList ++ list).filter Watch.isBinary)
    (fun gone s' hs' => ?_) (fun {w rest gone s₁ x s₂} hs₁ he => ?_) (fun {w rest gone s₁ e s₂} hs₁ he => ?_)
    ⟨h, hlist, .refl s, rfl⟩
  · obtain ⟨-, -, hr, hbin⟩ := hs'
    rw [List.append_nil] at hbin
    exact ⟨hr, hbin⟩
  · obtain ⟨hs, hrest, hr, hbin⟩ := hs₁
    have hw := hrest w (List.mem_cons_self ..)
    obtain ⟨hs₂, hf, -⟩ := hs.visitWatch no hw
    have hr₂ := hs.rearranged_visitWatch no hw (hr.level ▸ h1)
    have hx := isBinary_visitWatch no w s₁
    rw [he] at hs₂ hf hr₂ hx
    refine ⟨hs₂, fun y hy => (hrest y (List.mem_cons_of_mem _ hy)).mono hf, hr.trans hr₂, ?_⟩
    rw [← hbin, toList_elim_push, List.append_assoc, List.filter_append, List.filter_append, hx x rfl, ← List.filter_append,
      ← List.filter_append, List.singleton_append]
  · -- after a fault the others are kept as they are
    obtain ⟨hs, hrest, hr, hbin⟩ := hs₁
    have hr₂ := hs.rearranged_visitWatch no (hrest w (List.mem_cons_self ..)) (hr.level ▸ h1)
    rw [he] at hr₂
    refine ⟨hr.trans hr₂, ?_⟩
    rw [← hbin]
    simp

/-- One literal of the trail is propagated. -/
theorem ends_propagateLiteral_rearranged (h : s.Shaped) (hl : l ∈ s.trail.literals) (h1 : s.trail.level ≠ 1)
    (hd : s.derived = #[]) :
    Ends (propagateLiteral l) s (fun _ s' => Rearranged s s') fun _ s' => Rearranged s s' := by
  have hcode : (-l).code < s.watches.lists.size := by
    refine h.frame.code_lt ?_
    rw [Literal.var_negate]
    exact h.frame.trail.usable l hl
  have h₁ := h.takeWatches (-l)
  obtain ⟨hr, hkept⟩ := h₁.rearranged_propagateList (-l) (s.watches.of (-l)).toList #[] (h.watches (-l)) h1
  unfold Ends propagateLiteral
  simp only
  generalize Solver.propagateList (-l) (s.watches.of (-l)).toList #[]
    { s with watches := s.watches.set (-l) #[] } = run at hr hkept ⊢
  obtain ⟨⟨fault, kept⟩, s₁⟩ := run
  have hlists : s₁.watches.lists.size = s.watches.lists.size := hr.lists.trans (Watches.size_set ..)
  have hstored : Solver.storeDerived { s₁ with watches := s₁.watches.restore (-l) kept } =
      { s₁ with watches := s₁.watches.restore (-l) kept } := by
    have hnone : s₁.derived = #[] := hr.derived.trans hd
    simp [Solver.storeDerived, hnone]
  have hdone : Rearranged s { s₁ with watches := s₁.watches.restore (-l) kept } := by
    refine { hr with lists := (Watches.size_restore ..).trans hlists, binary := fun m => ?_ }
    have hm := hr.binary m
    rw [Watches.view_set _ hcode] at hm
    rw [Watches.view_restore kept (hlists ▸ hcode)]
    by_cases he : m = -l
    · subst he
      rw [if_pos rfl] at hm ⊢
      rw [List.filter_append, hm, hkept]
      simp [Watches.view]
    · rw [if_neg he] at hm ⊢
      exact hm
  simp only [hstored]
  cases fault with
  | none => exact hdone
  | some e => exact hdone

/-- Literals are propagated, until there is a conflict or none is left. -/
theorem ends_propagateMany_rearranged {n : Nat} (h : s.Shaped) (h1 : s.trail.level ≠ 1) (hd : s.derived = #[]) :
    Ends (propagateMany n) s (fun _ s' => Rearranged s s') fun _ s' => Rearranged s s' := by
  induction n generalizing s with
  | zero => exact .refl s
  | succ n ih =>
    rw [propagateMany]
    simp only [ends_bind, ends_get]
    by_cases hlt : s.trail.propagated < s.trail.size
    · simp only [Trail.next?_of_lt hlt, ends_bind, ends_modify]
      have h₁ := h.proceeded
      have hr₀ : Rearranged s { s with
          trail.propagated := s.trail.propagated + 1
          counters.propagations := s.counters.propagations + 1 } := { Rearranged.refl s with }
      have hstep := (h₁.ends_propagateLiteral _).and
        (h₁.ends_propagateLiteral_rearranged (Trail.at'_mem hlt) h1 hd)
      refine hstep.imp (fun _ s₁ hs₁ => ?_) fun _ s₁ hs₁ => hr₀.trans hs₁.2
      have hr₁ := hr₀.trans hs₁.2
      exact (ih hs₁.1 (hr₁.level ▸ h1) (hr₁.derived.trans hd)).imp (fun _ _ hs => hr₁.trans hs)
        fun _ _ hs => hr₁.trans hs
    · simp only [Trail.next?_of_le (Nat.le_of_not_lt hlt), ends_pure]
      exact .refl s

/-- Everything is propagated, or there is a conflict. -/
theorem ends_propagate_rearranged (h : s.Shaped) (h1 : s.trail.level ≠ 1) (hd : s.derived = #[]) :
    Ends propagate s (fun _ s' => Rearranged s s') fun _ s' => Rearranged s s' := by
  rw [propagate, ends_bind, ends_get]
  exact h.ends_propagateMany_rearranged h1 hd

end Shaped

end Solver

end ClauseLearning

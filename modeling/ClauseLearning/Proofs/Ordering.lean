import ClauseLearning.Proofs.Agreement

/-!
# What the orders of decision need

That no variable is lost by the active order does not depend on the invariant of the search.  It is enough that the
tables fit together, wherever propagation may have come to, and that clauses are on usable variables only.  So much is
kept by decisions, propagation and the like in whatever order they are called.

* `Solver.caughtUp` — a solver as if everything had been propagated.
* `Solver.Shaped` — what the orders need.
* `Solver.Shaped.assign`, `Solver.Shaped.backtrack`, `Solver.Shaped.aside` — one step after another.
* `Solver.Shaped.propagate` — propagation, whether it ends in a conflict or not.
* `Solver.Shaped.decides` — what a decision comes to.
-/

namespace ClauseLearning

/-- The trail as if everything on it had been propagated. -/
def Trail.caughtUp (t : Trail) : Trail := { t with propagated := t.size }

/-- What is on a trail does not depend on how far propagation has come. -/
theorem Trail.Matches.caughtUp {usable : Nat → Prop} {t : Trail} {a : Assignment} (h : t.Matches usable a) :
    t.caughtUp.Matches usable a :=
  { h with
    propagated := Nat.le_refl _
    below := h.levelStart_le t.level }

namespace Store

variable {s : Store} {a : Assignment} {no : Literal} {r : Reference}

/-- What a visit of a stored clause leaves behind, whether the clause was to be watched or not. -/
def Looked (a : Assignment) (r : Reference) (s : Store) : EStateM.Result Fault Store Visit → Prop
  | .error _ s' => Permuted r.offset s s'
  | .ok v s' => Permuted r.offset s s' ∧
      ∀ l, v = .forced l → l ∈ s'.lits r.offset ∧ a.value l = .unassigned

theorem looked_visit (hc : s.Chain 0) (hr : s.Current r) (hn : (s.lits r.offset).Nodup) :
    Looked a r s (visit a no r s) := by
  have ho := (hc.mem hr.2).2
  have h3 := ho.three
  -- the false literal is moved to position one
  have hswap := permuted_front ho.fits (by omega) no
  unfold visit
  simp only [size?_of_current hc hr]
  generalize (if s.literalAt r.offset 0 = no then s.swapAt r.offset 0 1 else s) = t at hswap
  have hcur : r.offset ∈ t.offsets := hswap.offsets hc hr.2 ▸ hr.2
  have hat : t.HasAt r.offset := ((hswap.chain hc hr.2).mem hcur).2
  by_cases h1 : t.literalAt r.offset 1 = no
  · rw [if_pos h1, ← hswap.sizeAt_self]
    have hv := visited_visitAt (a := a) hat.three hat.fits (hswap.perm.nodup_iff.2 hn) h1
    refine ⟨hswap.trans hv.toPermuted, fun l hl => ?_⟩
    have hout := hv.outcome
    rw [hl] at hout
    obtain ⟨rfl, hval, -⟩ := hout
    refine ⟨?_, hval⟩
    rw [← hv.first]
    exact literalAt_mem (by rw [hv.sizeAt_self]; exact Nat.lt_of_lt_of_le (by omega) hat.three)
  · rw [if_neg h1]
    exact hswap

end Store

theorem Watches.mem_view_add {w : Watches} {l m : Literal} {x y : Watch} (h : x ∈ (w.add l y).view m) :
    x ∈ w.view m ∨ x = y := by
  rw [view_add_eq, List.mem_append] at h
  refine h.imp_right fun hx => ?_
  split at hx
  · exact List.mem_singleton.1 hx
  · simp at hx

theorem Watches.mem_view_addBinary {w : Watches} {a b m : Literal} {r y : Bool} {x : Watch}
    (h : x ∈ (w.addBinary a b r y).view m) : x ∈ w.view m ∨ x = .binary b r y ∨ x = .binary a r y := by
  rcases mem_view_add h with h | rfl
  · exact (mem_view_add h).imp_right .inl
  · exact .inr (.inr rfl)

theorem Watches.mem_view_restore {w : Watches} {l m : Literal} {list : Array Watch} {x : Watch}
    (h : x ∈ (w.restore l list).view m) : x ∈ w.view m ∨ x ∈ list := by
  by_cases hl : l.code < w.lists.size
  · rw [view_restore list hl] at h
    split at h
    · exact (List.mem_append.1 h).symm.imp_right Array.mem_toList_iff.1
    · exact .inl h
  · have hm := in_range h
    rw [size_restore] at hm
    refine .inl ?_
    have hne : l.code ≠ m.code := by omega
    simpa only [view, of_eq, restore, Array.getElem?_modify, if_neg hne] using h

namespace Solver

variable {ε : Type} {s s' : Solver ε} {l : Literal} {reason : Reason} {k : Nat}

/-! ## Shapes -/

/-- A solver as if everything had been propagated. -/
def caughtUp (s : Solver ε) : Solver ε := { s with trail := s.trail.caughtUp, iterating := false }

theorem Frame.caughtUp (h : s.Frame) : s.caughtUp.Frame :=
  { h with
    trail := h.trail.caughtUp
    iterating := fun hi => Bool.noConfusion hi }

/-- A watch is on a clause that is there, or its other literal may be assigned. -/
def Readable (s : Solver ε) : Watch → Prop
  | .binary o _ _ => s.numbering.Usable o.var
  | .large _ r => s.store.Current r

/-- What the orders need: the tables fit together wherever propagation has come to, and all that may be assigned
because of a clause is usable. -/
structure Shaped (s : Solver ε) : Prop where
  /-- The tables fit together. -/
  frame : s.caughtUp.Frame
  /-- The store is good. -/
  store : s.store.Good s.numbering.Usable
  /-- What is watched. -/
  watches : ∀ l, ∀ w ∈ s.watches.view l, s.Readable w
  /-- The binary clauses that are still to be stored. -/
  derived : ∀ x ∈ s.derived, s.numbering.Usable x.1.var ∧ s.numbering.Usable x.2.var

/-- The invariant is more than enough. -/
theorem Inv.shaped {lags : Prop} {p : Nat} (h : s.Inv lags p) : s.Shaped where
  frame := h.toFrame.caughtUp
  store := h.store
  watches l w hw := by
    cases w with
    | binary o r y => exact (h.paired.usable l o r y hw).2.1
    | large b r => exact h.watched.current hw
  derived x hx := by
    rw [h.stored] at hx
    simp at hx

/-- The clauses stay where they are, and the variables are the same. -/
def Fixed (s s' : Solver ε) : Prop :=
  s'.numbering = s.numbering ∧ ∀ r, s.store.Current r → s'.store.Current r

theorem Fixed.refl (s : Solver ε) : s.Fixed s := ⟨rfl, fun _ hr => hr⟩

theorem Fixed.trans {s'' : Solver ε} (h : s.Fixed s') (h' : s'.Fixed s'') : s.Fixed s'' :=
  ⟨h'.1.trans h.1, fun r hr => h'.2 r (h.2 r hr)⟩

theorem fixed_assign (s : Solver ε) (l : Literal) (reason : Reason) : s.Fixed (s.assign l reason) := by
  obtain ⟨u, he⟩ := assign_eq s l reason
  rw [he]
  exact .refl s

theorem Readable.mono {w : Watch} (h : s.Readable w) (hf : s.Fixed s') : s'.Readable w := by
  cases w with
  | binary o r y =>
    unfold Readable at h ⊢
    rwa [hf.1]
  | large b r => exact hf.2 r h

namespace Shaped

variable (h : s.Shaped)
include h

theorem aside (ha : Aside s s') : s'.Shaped := by
  obtain ⟨_, _, _, _, _, _, _, _, rfl⟩ := ha
  exact { h with frame := { h.frame with } }

/-- The orders change, but cover what they have to. -/
theorem order {orders : Orders} (ho : orders.Valid s.numbering.size s.numbering.Usable) (hc : orders.Covers s.Free) :
    Shaped { s with orders } :=
  { h with frame := { h.frame with orders := ho, covers := hc } }

/-- Watches change, but are on clauses that are there. -/
theorem watch {w : Watches} (hl : w.lists.size = s.watches.lists.size)
    (hw : ∀ l, ∀ x ∈ w.view l, s.Readable x) : Shaped { s with watches := w } :=
  { h with
    frame := { h.frame with lists := hl.trans h.frame.lists }
    watches := hw }

/-- The literals of a clause change places. -/
theorem permute {r : Reference} {st : Store} (hr : s.store.Current r) (hp : Store.Permuted r.offset s.store st) :
    Shaped { s with store := st } ∧ s.Fixed { s with store := st } := by
  have hcur : ∀ r, s.store.Current r → st.Current r := fun r hr' =>
    ⟨hr'.1.trans hp.epoch.symm, hp.offsets h.store.chain hr.2 ▸ hr'.2⟩
  have hlits : ∀ o ∈ st.offsets, o ∈ s.store.offsets ∧ (st.lits o).Perm (s.store.lits o) := fun o ho => by
    have ho : o ∈ s.store.offsets := hp.offsets h.store.chain hr.2 ▸ ho
    refine ⟨ho, ?_⟩
    by_cases he : o = r.offset
    · exact he ▸ hp.perm
    · rw [hp.lits_other h.store.chain hr.2 ho he]
  refine ⟨{ h with
    frame := { h.frame with }
    store := ⟨hp.chain h.store.chain hr.2, fun o ho => ?_, fun o ho l hl => ?_⟩
    watches := fun l w hw => (h.watches l w hw).mono ⟨rfl, hcur⟩ }, rfl, hcur⟩
  · obtain ⟨ho, hperm⟩ := hlits o ho
    exact (hperm.map Literal.var).nodup_iff.2 (h.store.nodup o ho)
  · obtain ⟨ho, hperm⟩ := hlits o ho
    exact h.store.usable o ho l (hperm.mem_iff.1 hl)

theorem mem_free (v : Nat) : v ∈ s.free ↔ s.Free v := Solver.mem_free h.frame v

/-- What is counted on the way does not matter. -/
theorem count (f : Counters → Counters) : Shaped (s.count f) :=
  h.aside ⟨_, s.limits, s.phases, s.fastGlue, s.slowGlue, s.reluctant, s.random, s.unflushed, rfl⟩

/-! ## Assigning and unassigning -/

theorem assign (hu : s.numbering.Usable l.var) (hv : s.val l = .unassigned) (reason : Reason) :
    (s.assign l reason).Shaped := by
  have hf := (Frame.assign (s := s.caughtUp) hu hv h.frame reason).caughtUp
  obtain ⟨u, he⟩ := assign_eq s l reason
  obtain ⟨u', he'⟩ := assign_eq s.caughtUp l reason
  rw [he'] at hf
  rw [he]
  exact { h with frame := { hf with } }

theorem decideLiteral (hu : s.numbering.Usable l.var) (hv : s.val l = .unassigned) :
    (s.decideLiteral l).Shaped := by
  have hf := (Frame.decideLiteral (s := s.caughtUp) hu hv h.frame rfl rfl).caughtUp
  exact { h with frame := { hf with } }

theorem backtrack (k : Nat) : (s.backtrack k).Shaped := by
  by_cases hk : k < s.trail.level
  · have hf := (h.frame.backtrack k).caughtUp
    obtain ⟨ph, -, he⟩ := backtrack_eq s hk
    obtain ⟨ph', -, he'⟩ := backtrack_eq s.caughtUp hk
    rw [he'] at hf
    rw [he]
    exact { h with frame := { hf with } }
  · rwa [backtrack_of_le s (Nat.le_of_not_lt hk)]

/-! ## Decisions -/

/-- A decision is of a variable that may be decided, and there is one unless all variables are assigned. -/
theorem decides : s.decide.2.Shaped ∧ (∀ l, s.decide.1 = some l → s.Free l.var) ∧
    (s.decide.1 = none ↔ s.unassigned = 0) := by
  have hcount : s.unassigned = s.free.length := h.frame.unassigned_eq
  have hmem : ∀ v, v ∈ s.free ↔ s.Free v := h.mem_free
  have hcovers : s.orders.Covers s.Free := h.frame.covers
  have hiff : ∀ v, s.Free v ↔ s.numbering.Usable v ∧ s.assignment.valueOf v = .unassigned := fun _ => Iff.rfl
  have hnext := h.frame.orders.next hiff hcovers
  cases he : s.orders.next? s.assignment with
  | mk found orders =>
    have hcaught : s.caughtUp.orders.next? s.assignment = (found, orders) := he
    rw [hcaught] at hnext
    obtain ⟨ho, hc, -, hfound, hnone⟩ := hnext
    have h₁ : Shaped { s with orders } := h.order ho hc
    cases found with
    | none =>
      have hd : s.decide = (none, { s with orders }) := by
        unfold decide onOrders
        simp only [he]
      rw [hd]
      refine ⟨h₁, fun l hl => by simp at hl, iff_of_true rfl ?_⟩
      rw [hcount, List.length_eq_zero_iff, List.eq_nil_iff_forall_not_mem]
      exact fun v hv => hnone rfl v ((hmem v).1 hv)
    | some v =>
      obtain ⟨b, hd⟩ := decide_of_next he
      have hfree : s.Free v := hfound v rfl
      have hvar : (Literal.make v b).var = v := Literal.var_make v b
      have hval : s.val (.make v b) = .unassigned := (h.frame.val_make v b).2 hfree.2
      rw [hd]
      have h₂ := h₁.count fun c => { c with decisions := c.decisions + 1 }
      refine ⟨h₂.decideLiteral (by rw [hvar]; exact hfree.1) hval, fun l hl => ?_, iff_of_false (by simp) ?_⟩
      · obtain rfl := Option.some.inj hl
        rwa [hvar]
      · rw [hcount]
        exact (List.length_pos_of_mem ((hmem v).2 hfree)).ne'

/-! ## Restarts and modes -/

theorem restart : s.restart.Shaped := by
  have h₂ := (h.count fun c => { c with restarts := c.restarts + 1 }).backtrack 0
  unfold Solver.restart
  simp only
  split
  · exact h₂.aside ⟨_, _, _, _, _, _, _, _, rfl⟩
  · exact h₂.aside ⟨_, _, _, _, _, _, _, _, rfl⟩

/-- Another order becomes the active one, and covers what it has to. -/
theorem enterMode (stable : Bool) : (s.enterMode stable).Shaped ∧ (s.enterMode stable).orders.stable = stable := by
  have hfree : ∀ v, v ∈ s.free ↔ s.Free v := h.mem_free
  obtain ⟨ho, hc⟩ := h.frame.orders.switch stable fun v hv => ((hfree v).1 hv).1
  obtain ⟨r, l, ph, he⟩ := enterMode_eq s stable
  rw [he]
  have hs := h.order ho (hc.mono fun v hv => (hfree v).2 hv)
  refine ⟨hs.aside ⟨_, _, _, _, _, _, _, _, rfl⟩, ?_⟩
  unfold Orders.switch Orders.reconcile
  split <;> rfl

theorem switchMode : s.switchMode.Shaped ∧ s.switchMode.orders.stable = !s.orders.stable := by
  obtain ⟨h₂, hs⟩ := ((h.count fun c => { c with modeSwitches := c.modeSwitches + 1 }).backtrack 0).enterMode
    (!s.orders.stable)
  exact ⟨h₂.aside ⟨_, _, _, _, _, _, _, _, rfl⟩, hs⟩

/-! ## Propagation -/

/-- The list of a literal is taken out. -/
theorem takeWatches (m : Literal) : Shaped { s with watches := s.watches.set m #[] } := by
  refine h.watch (Watches.size_set ..) fun l w hw => ?_
  by_cases hm : m.code < s.watches.lists.size
  · rw [Watches.view_set _ hm] at hw
    split at hw
    · simp at hw
    · exact h.watches l w hw
  · refine h.watches l w ?_
    have := Watches.in_range hw
    rw [Watches.size_set] at this
    have hne : m.code ≠ l.code := by omega
    simpa only [Watches.view, Watches.of_eq, Watches.set, Array.getElem?_setIfInBounds, if_neg hne] using hw

/-- A list of watches that can be read is put back. -/
theorem putBackWatches (m : Literal) {kept : Array Watch} (hkept : ∀ w ∈ kept, s.Readable w) :
    Shaped { s with watches := s.watches.restore m kept } := by
  refine h.watch (Watches.size_restore ..) fun l w hw => ?_
  rcases Watches.mem_view_restore hw with hw | hw
  · exact h.watches l w hw
  · exact hkept w hw

/-- Another literal watches a stored clause. -/
theorem watchLarge {r : Reference} (hr : s.store.Current r) (m o : Literal) :
    Shaped { s with watches := s.watches.add m (.large o r) } := by
  refine h.watch (Watches.size_add ..) fun l w hw => ?_
  rcases Watches.mem_view_add hw with hw | rfl
  · exact h.watches l w hw
  · exact hr

/-- A literal is assigned because of a stored clause, whether with this reason or with the decision of level one. -/
theorem assignForced {r : Reference} (hu : s.numbering.Usable l.var) (hv : s.val l = .unassigned) :
    (s.assignForced l r).Shaped ∧ s.Fixed (s.assignForced l r) := by
  unfold Solver.assignForced
  split
  · next h1 =>
    have hd : s.numbering.Usable (-s.trail.decision 1).var := by
      rw [Literal.var_negate]
      exact h.frame.trail.usable _ (h.frame.trail.decision_mem (Nat.le_refl _) (Nat.le_of_eq h1.1.symm))
    have h₁ : Shaped { s with
        derived := s.derived.push (-s.trail.decision 1, l)
        counters.hyperBinaries := s.counters.hyperBinaries + 1 } :=
      { h with
        frame := { h.frame with }
        derived := fun x hx => by
          rcases Array.mem_push.1 hx with hx | rfl
          · exact h.derived x hx
          · exact ⟨hd, hu⟩ }
    have hfixed := fixed_assign { s with
      derived := s.derived.push (-s.trail.decision 1, l)
      counters.hyperBinaries := s.counters.hyperBinaries + 1 } l (.binary (-s.trail.decision 1))
    exact ⟨h₁.assign hu hv _, hfixed⟩
  · exact ⟨h.assign hu hv _, fixed_assign _ _ _⟩

/-- Something becomes of one watch. -/
theorem visitWatch (no : Literal) {w : Watch} (hw : s.Readable w) :
    (s.visitWatch no w).2.Shaped ∧ s.Fixed (s.visitWatch no w).2 ∧
      ∀ x, (s.visitWatch no w).1 = .ok x → ∀ w' ∈ x, s.Readable w' := by
  have hsame : ∀ {x : Option Watch}, (.ok (some w) : Except Fault (Option Watch)) = .ok x →
      ∀ w' ∈ x, s.Readable w' := by
    rintro x he w' hw'
    obtain rfl := Except.ok.inj he
    exact Option.mem_some.1 hw' ▸ hw
  unfold Solver.visitWatch
  cases w with
  | binary other r y =>
    dsimp only
    split
    · exact ⟨h, .refl s, fun _ => hsame⟩
    · exact ⟨h, .refl s, fun _ he => by cases he⟩
    · next hv => exact ⟨h.assign hw hv _, fixed_assign _ _ _, fun _ => hsame⟩
  | large b r =>
    have hr : s.store.Current r := hw
    dsimp only
    split
    · exact ⟨h, .refl s, fun _ => hsame⟩
    have hlook : Store.Looked s.assignment r s.store (Store.visit s.assignment no r s.store) :=
      Store.looked_visit h.store.chain hr (List.Nodup.of_map _ (h.store.nodup _ hr.2))
    simp only [onStore]
    cases hvisit : Store.visit s.assignment no r s.store with
    | error e st =>
      rw [hvisit] at hlook
      obtain ⟨h₁, hf₁⟩ := h.permute hr hlook
      exact ⟨h₁, hf₁, fun _ he => by cases he⟩
    | ok v st =>
      rw [hvisit] at hlook
      obtain ⟨hp, hforced⟩ := hlook
      obtain ⟨h₁, hf₁⟩ := h.permute hr hp
      cases v with
      | satisfied other =>
        refine ⟨h₁, hf₁, fun x he w' hw' => ?_⟩
        obtain rfl := Except.ok.inj he
        exact Option.mem_some.1 hw' ▸ hr
      | moved m o =>
        refine ⟨h₁.watchLarge (hf₁.2 r hr) m o, hf₁, fun x he w' hw' => ?_⟩
        obtain rfl := Except.ok.inj he
        simp at hw'
      | forced m =>
        obtain ⟨hm, hv⟩ := hforced m rfl
        obtain ⟨h₂, hf₂⟩ := h₁.assignForced (r := r) (h.store.usable _ hr.2 m (hp.perm.mem_iff.1 hm)) hv
        exact ⟨h₂, hf₁.trans hf₂, fun _ => hsame⟩
      | conflict => exact ⟨h₁, hf₁, fun _ he => by cases he⟩

/-- The watches of a literal are gone through. -/
theorem propagateList (no : Literal) {list : List Watch} (kept : Array Watch)
    (hlist : ∀ w ∈ list, s.Readable w) (hkept : ∀ w ∈ kept, s.Readable w) :
    (propagateList no list kept s).2.Shaped ∧
      ∀ w ∈ (Solver.propagateList no list kept s).1.2, (Solver.propagateList no list kept s).2.Readable w := by
  refine propagateList_run
    (I := fun rest gone s' => s'.Shaped ∧ (∀ w ∈ rest, s'.Readable w) ∧ ∀ w ∈ gone, s'.Readable w)
    (E := fun out => out.2.Shaped ∧ ∀ w ∈ out.1.2, out.2.Readable w)
    (fun gone s' hs' => ⟨hs'.1, hs'.2.2⟩) (fun {w rest gone s₁ x s₂} hs₁ he => ?_)
    (fun {w rest gone s₁ e s₂} hs₁ he => ?_) ⟨h, hlist, hkept⟩
  · obtain ⟨h₁, hrest, hgone⟩ := hs₁
    obtain ⟨h₂, hf, hx⟩ := h₁.visitWatch no (hrest w (List.mem_cons_self ..))
    rw [he] at h₂ hf hx
    refine ⟨h₂, fun y hy => (hrest y (List.mem_cons_of_mem _ hy)).mono hf, fun y hy => ?_⟩
    cases x with
    | none => exact (hgone y hy).mono hf
    | some w' =>
      rcases Array.mem_push.1 hy with hy | rfl
      · exact (hgone y hy).mono hf
      · exact (hx _ rfl y rfl).mono hf
  · -- after a fault the others are kept as they are
    obtain ⟨h₁, hrest, hgone⟩ := hs₁
    obtain ⟨h₂, hf, -⟩ := h₁.visitWatch no (hrest w (List.mem_cons_self ..))
    rw [he] at h₂ hf
    refine ⟨h₂, fun y hy => ?_⟩
    rw [← Array.mem_toList_iff, Array.toList_appendList, Array.toList_push, List.append_assoc, List.mem_append,
      Array.mem_toList_iff, List.singleton_append] at hy
    exact (hy.elim (hgone y) (hrest y)).mono hf

/-- Some of the derived clauses are watched. -/
theorem watchDerived (ds : List (Literal × Literal)) (hds : ∀ x ∈ ds, x ∈ s.derived) :
    Shaped { s with watches := ds.foldl (fun w x => w.addBinary x.1 x.2 true true) s.watches } := by
  induction ds using List.reverseRecOn with
  | nil => exact h
  | append_singleton ds x ih =>
    have h₁ := ih fun y hy => hds y (List.mem_append_left _ hy)
    obtain ⟨hu1, hu2⟩ := h.derived x (hds x (by simp))
    rw [List.foldl_concat]
    refine h₁.watch (Watches.size_addBinary ..) fun l w hw => ?_
    rcases Watches.mem_view_addBinary hw with hw | rfl | rfl
    · exact h₁.watches l w hw
    · exact hu2
    · exact hu1

/-- The derived clauses are stored. -/
theorem storeDerived : s.storeDerived.Shaped := by
  unfold Solver.storeDerived
  rw [← Array.foldl_toList]
  have h₁ := h.watchDerived s.derived.toList fun x hx => Array.mem_toList_iff.1 hx
  exact { h₁ with
    frame := { h₁.frame with }
    derived := fun x hx => by simp at hx }

/-- One literal is propagated, and there is a conflict or none. -/
theorem ends_propagateLiteral (l : Literal) :
    Ends (propagateLiteral l) s (fun _ s' => s'.Shaped) fun _ s' => s'.Shaped := by
  have h₁ := h.takeWatches (-l)
  have hlist : ∀ w ∈ (s.watches.of (-l)).toList, s.Readable w := h.watches (-l)
  obtain ⟨h₂, hkept⟩ := h₁.propagateList (-l) #[] hlist fun w hw => by simp at hw
  unfold Ends propagateLiteral
  simp only
  generalize Solver.propagateList (-l) (s.watches.of (-l)).toList #[]
    { s with watches := s.watches.set (-l) #[] } = run at h₂ hkept ⊢
  obtain ⟨⟨fault, kept⟩, s₁⟩ := run
  have h₃ := (h₂.putBackWatches (-l) hkept).storeDerived
  cases fault with
  | none => exact h₃
  | some e => exact h₃

/-- The literal that is propagated next counts as propagated. -/
theorem proceeded : Shaped { s with
    trail.propagated := s.trail.propagated + 1
    counters.propagations := s.counters.propagations + 1 } :=
  Shaped.count (s := { s with trail.propagated := s.trail.propagated + 1 }) { h with frame := { h.frame with } }
    fun c => { c with propagations := c.propagations + 1 }

omit h in
/-- Literals are propagated, until there is a conflict or none is left. -/
theorem ends_propagateMany {n : Nat} (h : s.Shaped) :
    Ends (propagateMany n) s (fun _ s' => s'.Shaped) fun _ s' => s'.Shaped := by
  induction n generalizing s with
  | zero => exact h
  | succ n ih =>
    rw [propagateMany]
    simp only [ends_bind, ends_get]
    by_cases hlt : s.trail.propagated < s.trail.size
    · simp only [Trail.next?_of_lt hlt, ends_bind, ends_modify]
      exact (h.proceeded.ends_propagateLiteral _).imp (fun _ _ hs => ih hs) fun _ _ hs => hs
    · simp only [Trail.next?_of_le (Nat.le_of_not_lt hlt), ends_pure]
      exact h

/-- Everything is propagated, or there is a conflict. -/
theorem ends_propagate : Ends propagate s (fun _ s' => s'.Shaped) fun _ s' => s'.Shaped := by
  rw [propagate, ends_bind, ends_get]
  exact h.ends_propagateMany

end Shaped

end Solver

end ClauseLearning

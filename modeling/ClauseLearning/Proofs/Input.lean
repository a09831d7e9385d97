import ClauseLearning.Proofs.Propagation
import ClauseLearning.Proofs.RootClause

/-!
# Adding clauses keeps the invariant

A variable that becomes known has no value, no watch and no mark, so nothing that was known before is touched by
it.  A clause that is added is satisfied wherever what is never dropped is, and this is kept from then on.

* `Numbering.usable_growTo` — which variables are usable once more are known.
* `Solver.Inv.ensureVariables` — room is made for them.
* `Solver.Added` — a clause was added, with `Solver.ends_addLiterals`.
* `Solver.Call` — what adds to a formula, with `Solver.Call.clauses`.
* `Solver.Loaded` — clauses were added and nothing else was done, with `Solver.loaded_ofSettings` and
  `Solver.Loaded.run`.
-/

namespace ClauseLearning

/-! ## More variables -/

/-- A table that grows by defaults is read as before. -/
theorem getD_append_replicate {α : Type} (xs : Array α) (n i : Nat) (d : α) :
    (xs ++ Array.replicate n d).getD i d = xs.getD i d := by
  rw [Array.getD_eq_getD_getElem?, Array.getD_eq_getD_getElem?, Array.getElem?_append]
  split
  · rfl
  · next h =>
    rw [Array.getElem?_eq_none (Nat.le_of_not_lt h), Array.getElem?_replicate]
    split <;> rfl

namespace Numbering

variable {m : Numbering} {n v : Nat}

theorem size_growTo (m : Numbering) (n : Nat) : (m.growTo n).size = max m.size n := by
  simp only [growTo, size, Array.size_append, Array.size_replicate]
  omega

theorem isEliminated_growTo (m : Numbering) (n v : Nat) :
    (m.growTo n).isEliminated v = m.isEliminated v := by
  unfold isEliminated growTo
  exact getD_append_replicate ..

theorem not_isEliminated_of_le (h : m.size ≤ v) : m.isEliminated v = false := by
  unfold isEliminated
  rw [Array.getD_eq_getD_getElem?, Array.getElem?_eq_none h]
  rfl

theorem usable_growTo : (m.growTo n).Usable v ↔ m.Usable v ∨ m.size ≤ v ∧ v < n := by
  unfold Usable
  rw [size_growTo, isEliminated_growTo]
  constructor
  · rintro ⟨hlt, he⟩
    rcases Nat.lt_or_ge v m.size with h | h
    · exact .inl ⟨h, he⟩
    · exact .inr ⟨h, by omega⟩
  · rintro (⟨hlt, he⟩ | ⟨hle, hlt⟩)
    · exact ⟨by omega, he⟩
    · exact ⟨by omega, not_isEliminated_of_le hle⟩

theorem growTo_of_le (h : n ≤ m.size) : m.growTo n = m := by
  have h : n - m.eliminated.size = 0 := Nat.sub_eq_zero_of_le h
  simp [growTo, h]

theorem growTo_growTo (m : Numbering) (n k : Nat) : (m.growTo n).growTo k = m.growTo (max n k) := by
  simp only [growTo, Array.append_assoc, Array.size_append, Array.size_replicate,
    Array.replicate_append_replicate, Numbering.mk.injEq]
  congr 2
  omega

end Numbering

namespace Assignment

theorem value_growTo (a : Assignment) (n : Nat) (l : Literal) : (a.growTo n).value l = a.value l := by
  unfold growTo
  split
  · unfold value
    exact getD_append_replicate ..
  · rfl

theorem record_growTo (a : Assignment) (n v : Nat) : (a.growTo n).record v = a.record v := by
  unfold growTo
  split
  · unfold record
    exact getD_append_replicate ..
  · rfl

theorem level_growTo (a : Assignment) (n : Nat) (l : Literal) : (a.growTo n).level l = a.level l :=
  congrArg Assigned.level (record_growTo a n l.var)

theorem reason_growTo (a : Assignment) (n : Nat) (l : Literal) : (a.growTo n).reason l = a.reason l :=
  congrArg Assigned.reason (record_growTo a n l.var)

theorem Sized.growTo {a : Assignment} {n m : Nat} (h : a.Sized n) (hm : n < m) :
    (a.growTo m).Sized m where
  values := by
    have := h.values
    unfold Assignment.growTo
    rw [if_pos (show a.size < m from Nat.lt_of_le_of_lt (Nat.le_of_eq h.records) hm), Array.size_append,
      Array.size_replicate]
    omega
  records := by
    have := h.records
    unfold Assignment.growTo
    rw [if_pos (show a.size < m from Nat.lt_of_le_of_lt (Nat.le_of_eq h.records) hm), Array.size_append,
      Array.size_replicate]
    omega
  opposite l := by
    rw [value_growTo, value_growTo]
    exact h.opposite l

end Assignment

namespace Solver

variable {ε : Type} {lags : Prop} {s s' : Solver ε} {p n : Nat}

/-- The new variables are all counted. -/
theorem active_growTo (m : Numbering) (hlt : m.size < n) :
    ((List.range n).filter fun v => !(m.growTo n).isEliminated v).length =
      ((List.range m.size).filter fun v => !m.isEliminated v).length + (n - m.size) := by
  have hsplit : n = m.size + (n - m.size) := by omega
  simp only [Numbering.isEliminated_growTo m n]
  rw [hsplit, List.range_add, List.filter_append, List.length_append, Nat.add_sub_cancel_left]
  congr 1
  rw [List.filter_eq_self.2, List.length_map, List.length_range]
  intro v hv
  obtain ⟨i, -, rfl⟩ := List.mem_map.1 hv
  rw [Numbering.not_isEliminated_of_le (Nat.le_add_right _ _)]
  rfl

/-- Clauses are guarded as before. -/
theorem Guarded.growTo {t : Trail} {a : Assignment} {st : Store} {view : Literal → List Watch}
    (h : Guarded lags t a st view p) (n : Nat) : Guarded lags t (a.growTo n) st view p := by
  have hguard : ∀ {late : Prop} {x b y d c}, Guard t a p late x b y d c → Guard t (a.growTo n) p late x b y d c :=
    fun hg => hg.imp (fun m _ hf => ⟨hf, a.level_growTo n m⟩)
      (fun _ _ _ m _ _ => ⟨a.value_growTo n m, a.level_growTo n m⟩) id fun _ hm => hm
  exact ⟨fun l o r y hm => hguard (h.binary l o r y hm), fun r x b y d hx hy hne => hguard (h.large r x b y d hx hy hne)⟩

/-- Room is made for variables that have become known. -/
theorem Inv.ensureVariables (h : s.Inv lags p) (hn : n ≤ Numbering.greatestExternal) :
    (ensureVariables { s with numbering := s.numbering.growTo n }).Inv lags p := by
  have hsize : s.assignment.size = s.numbering.size := h.sized.records
  have hgrow := Numbering.size_growTo s.numbering n
  unfold Solver.ensureVariables
  simp only [hsize]
  by_cases hle : n ≤ s.numbering.size
  · rw [Numbering.growTo_of_le hle, if_pos (Nat.le_refl _)]
    exact h
  have hlt : s.numbering.size < n := Nat.lt_of_not_le hle
  rw [Nat.max_eq_right (Nat.le_of_lt hlt)] at hgrow
  rw [if_neg (by omega), hgrow]
  have husable : ∀ v, (s.numbering.growTo n).Usable v ↔
      s.numbering.Usable v ∨ s.numbering.size ≤ v ∧ v < n := fun v => Numbering.usable_growTo
  have hmono : ∀ v, s.numbering.Usable v → (s.numbering.growTo n).Usable v := fun v hv =>
    (husable v).2 (.inl hv)
  have hval := Assignment.value_growTo s.assignment n
  have hlev := Assignment.level_growTo s.assignment n
  have hviews : (s.watches.growTo (2 * n)).view = s.watches.view := funext fun l => Watches.view_growTo (2 * n)
  obtain ⟨horders, hcovers⟩ := h.orders.growTo h.covers hlt
  exact {
    sized := by
      simp only [hgrow]
      exact h.sized.growTo hlt
    few := by
      simp only [hgrow]
      exact hn
    lists := by
      simp only [Watches.size_growTo, h.lists, hgrow]
      omega
    trail := (h.trail.congr hval hlev).mono fun l hl => hmono _ (h.trail.usable l hl)
    orders := by
      simp only [hgrow]
      exact horders.congr husable
    covers := by
      refine hcovers.mono fun v hv => ?_
      obtain ⟨hu, hv⟩ := hv
      have hv : (s.assignment.growTo n).valueOf v = .unassigned := hv
      rw [Assignment.valueOf, hval] at hv
      exact ((husable v).1 hu).imp_left fun hu => ⟨⟨hu, hv⟩, hu⟩
    active := by
      simp only [hgrow]
      rw [active_growTo _ hlt, h.active]
    iterating := h.iterating
    store := ⟨h.store.chain, h.store.nodup, fun o ho l hl => hmono _ (h.store.usable o ho l hl)⟩
    paired := hviews ▸ h.paired.mono hmono
    watched := hviews ▸ h.watched
    grounded := fun i hi => (h.grounded i hi).congr (Assignment.reason_growTo _ _ _) (funext hlev)
    reasons := by
      intro l hl o ho
      rw [Assignment.reason_growTo] at ho
      simp only [hviews]
      exact h.reasons l hl o ho
    guarded := hviews ▸ Guarded.growTo h.guarded n
    recent := h.recent
    marks := by
      simp only [h.marks, hgrow, Array.size_replicate, Array.replicate_append_replicate]
      congr 1
      omega
    records := by
      intro v
      simp only [Assignment.record_growTo]
      exact h.records v
    unpinned := h.unpinned
    stored := h.stored }

/-- No more is known of the clauses once there is room for more variables. -/
theorem grow_same (s : Solver ε) (n : Nat) (v : Valuation) :
    let s' := ensureVariables { s with numbering := s.numbering.growTo n }
    (s'.Holds v ↔ s.Holds v) ∧ (s'.Base v ↔ s.Base v) := by
  simp only
  unfold Solver.ensureVariables
  simp only
  split
  · exact ⟨⟨fun h => { h with }, fun h => { h with }⟩, ⟨fun h => { h with }, fun h => { h with }⟩⟩
  · have hview : ∀ n, (s.watches.growTo n).view = s.watches.view := fun n =>
      funext fun _ => Watches.view_growTo n
    constructor
    · constructor
      · intro h
        have hr := h.root
        have hb := h.binary
        have hre := h.reasons
        simp only [Assignment.level_growTo, Assignment.reason_growTo, hview] at hr hb hre
        exact ⟨h.consistent, hr, h.large, hb, hre, h.derived⟩
      · intro h
        refine ⟨h.consistent, ?_, h.large, ?_, ?_, h.derived⟩
        · simp only [Assignment.level_growTo]
          exact h.root
        · simp only [hview]
          exact h.binary
        · simp only [Assignment.reason_growTo]
          exact h.reasons
    · constructor
      · intro h
        have hr := h.root
        have hb := h.binary
        simp only [Assignment.level_growTo, hview] at hr hb
        exact ⟨hr, h.large, hb⟩
      · intro h
        refine ⟨?_, h.large, ?_⟩
        · simp only [Assignment.level_growTo]
          exact h.root
        · simp only [hview]
          exact h.binary

/-! ## One clause -/

/-- What is left of a clause may be stored in its place. -/
theorem Stores.of_imp {c c' : List Literal} (h : Stores c' s s')
    (hc : ∀ v, s.Holds v → v.Satisfies c → v.Satisfies c') : Stores c s s' :=
  { h with holds := fun v hv hs => h.holds v (hc v hs hv) hs }

/-- A clause was taken in at the root. -/
structure Taken (lags : Prop) (c : List Literal) (s s' : Solver ε) : Prop extends Stores c s s' where
  /-- The invariant. -/
  settled : s'.Settled lags
  /-- The level is zero. -/
  level : s'.trail.level = 0
  /-- The clause learnt last stays as it is noted. -/
  learned : s'.learned = s.learned

/-- A clause was added at the root, for good. -/
structure Added (lags : Prop) (c : List Literal) (s s' : Solver ε) : Prop extends Taken lags c s s' where
  /-- The clause is among what is never dropped. -/
  satisfied : s'.inconsistent = false → ∀ v, s'.Base v → v.Satisfies c

/-- A clause that is false at the root is refuted. -/
theorem Taken.refute {c : List Literal} (h : s.Inv lags p) (h0 : s.trail.level = 0)
    (hc : ∀ v, s.Holds v → ¬ v.Satisfies c) : Taken lags c s s.refute where
  toStores := ⟨rfl, rfl, rfl, rfl, rfl, rfl, rfl, fun _ => rfl, fun v hv hs => absurd hv (hc v hs),
    fun v hv => { hv with }⟩
  settled := ⟨p, { h with
    toFrame := { h.toFrame with }
    toWired := { h.toWired with }
    toClean := { h.toClean with } }, fun hi => by simp [Solver.refute] at hi⟩
  level := h0
  learned := rfl

/-- The only literal that is left of a clause is assigned, and propagated. -/
theorem ends_addUnit {a : Literal} (h : s.Inv lags s.trail.propagated) (h0 : s.trail.level = 0)
    (hua : s.numbering.Usable a.var) (hva : s.val a = .unassigned) :
    Ends (addLiterals [a]) s (fun _ s' => Added lags [a] s s') fun _ _ => False := by
  have hsame : (s.assign a .unit).trail = s.trail.push a ∧ (s.assign a .unit).learned = s.learned ∧
      (s.assign a .unit).inconsistent = s.inconsistent := by
    obtain ⟨u, he⟩ := assign_eq s a .unit
    rw [he]
    exact ⟨rfl, rfl, rfl⟩
  have hinv : (s.assign a .unit).Inv lags s.trail.propagated := h.assign hua hva h.trail.propagated h0
  have hs₁ : Stores [a] s (s.assign a .unit) := stores_assign hua hva h.toFrame
  unfold addLiterals
  simp only [ends_bind, ends_modify, ends_pure]
  refine (ends_propagateRoot (s := s.assign a .unit) (by rw [hsame.1]; exact hinv)
    (by rw [hsame.1]; exact h0)).imp (fun b s' hs' => ?_) fun _ _ hf => hf.elim
  obtain ⟨href, hlev, hl, ⟨p, hp, hfull⟩, hinc⟩ := hs'
  refine ⟨⟨hs₁.trans (href.stores _), ⟨p, hp, fun hi => ?_⟩, hlev, hl.trans hsame.2.1⟩, fun _ v hv => ?_⟩
  · cases b with
    | true =>
      obtain ⟨rfl, he⟩ := hfull rfl
      exact he.symm
    | false =>
      rw [hinc] at hi
      simp at hi
  · have hv₁ := href.base v hv
    have hmem : a ∈ (s.assign a .unit).trail.literals := by
      rw [hsame.1]
      simp [Trail.push]
    have hlevel : (s.assign a .unit).assignment.level a = 0 := by
      have := hinv.trail.level_le_of_mem hmem
      rw [hsame.1] at this
      exact Nat.le_zero.1 (h0 ▸ this)
    exact ⟨a, by simp, hv₁.root a hmem hlevel⟩

/-- What is left of a clause is stored, unless there is no room. -/
theorem ends_addLiterals {c c' : List Literal} (h : s.Inv lags s.trail.propagated) (h0 : s.trail.level = 0)
    (hu : ∀ l ∈ c, s.numbering.Usable l.var) (hc : s.assignment.rootClause c = .literals c') :
    Ends (addLiterals c') s (fun _ s' => Added lags c s s') fun e s' => e = .exhausted ∧ s' = s := by
  have hfresh := Fresh.of_rootClause hu hc
  have hiff : ∀ {v : Valuation}, (∀ l ∈ s.trail.literals, s.assignment.level l = 0 → v.makesTrue l = true) →
      (v.Satisfies c' ↔ v.Satisfies c) := fun hv =>
    Assignment.rootClause_satisfies hc (h.toFrame.makesTrue_root h0 hv).2
  have hholds : ∀ v, s.Holds v → v.Satisfies c → v.Satisfies c' := fun v hv => (hiff hv.root).2
  match c' with
  | [] =>
    refine ⟨.refute h h0 fun v hs hc => v.not_satisfies_nil (hholds v hs hc), fun hi => ?_⟩
    simp [refute] at hi
  | [a] =>
    refine (ends_addUnit h h0 (hfresh.usable a (by simp)) (hfresh.unassigned a (by simp))).imp (fun _ s' hs' => ?_)
      fun _ _ hf => hf.elim
    obtain ⟨⟨hst, hsettled, hlevel, hlearned⟩, hsat⟩ := hs'
    exact ⟨⟨hst.of_imp hholds, hsettled, hlevel, hlearned⟩, fun hi v hv =>
      (hiff (hst.base v hv).root).1 (hsat hi v hv)⟩
  | [a, b] =>
    obtain ⟨hinv, hst, hsat⟩ := hfresh.addBinary h false
    refine ⟨⟨hst.of_imp hholds, ⟨_, hinv, fun _ => rfl⟩, h0, rfl⟩, fun _ v hv => ?_⟩
    exact (hiff (hst.base v hv).root).1 (hsat rfl v hv)
  | a :: b :: d :: tail =>
    unfold addLiterals
    simp only [ends_bind, ends_onStore, ends_modify]
    refine (Store.ends_allocate h.store.chain (by simp)).imp (fun r st' hst' => ?_) fun e st' he =>
      ⟨he.1, by rw [he.2]⟩
    obtain ⟨rfl, ha, -⟩ := hst'
    obtain ⟨hinv, hst, hsat⟩ := hfresh.append h (by simp) rfl ha
    refine ⟨⟨hst.of_imp hholds, ⟨_, hinv, fun _ => rfl⟩, h0, rfl⟩, fun _ v hv => ?_⟩
    exact (hiff (hst.base v hv).root).1 (hsat rfl rfl v hv)

/-! ## The formula -/

/-- A solver which clauses were added to, and with which nothing else was done. -/
structure Loaded (lags : Prop) (F : List (List Literal)) (s : Solver ε) : Prop where
  /-- The invariant. -/
  settled : s.Settled lags
  /-- Nothing is decided. -/
  level : s.trail.level = 0
  /-- No variable is eliminated. -/
  kept : ∀ v, s.numbering.isEliminated v = false
  /-- Nothing is on the extension stack. -/
  extension : s.extension = {}
  /-- Nothing was learnt. -/
  learned : s.learned = #[]
  /-- All that is known follows from the clauses. -/
  holds : ∀ v : Valuation, v.Models F → s.Holds v
  /-- The clauses follow from what is never dropped. -/
  base : s.inconsistent = false → ∀ v, s.Base v → v.Models F
  /-- Every variable of the clauses is known. -/
  known : ∀ c ∈ F, ∀ l ∈ c, l.var < s.numbering.size
  /-- The literals of a clause that was begun were checked. -/
  checked : ∀ e ∈ s.pending, Numbering.check e = .ok ()
  /-- No solve was begun. -/
  status : s.status = .configuration ∨ s.status = .input

theorem Numbering.check_ok {e : Int} (h : Numbering.check e = .ok ()) :
    e ≠ 0 ∧ e.natAbs ≤ Numbering.greatestExternal := by
  unfold Numbering.check at h
  split at h
  · cases h
  · next h0 =>
    split at h
    · cases h
    · next hle => exact ⟨h0, Nat.le_of_not_lt hle⟩

/-- Checked literals are imported one after another. -/
theorem ends_importLiterals {es : List Int} (hes : ∀ e ∈ es, Numbering.check e = .ok ()) :
    Ends (importLiterals es) s
      (fun ls s' => ls = es.map Numbering.toLiteral ∧ ∃ n ≤ Numbering.greatestExternal,
        s' = { s with numbering := s.numbering.growTo n } ∧ ∀ e ∈ es, e ≠ 0 ∧ e.natAbs ≤ n)
      fun _ _ => False := by
  induction es generalizing s with
  | nil =>
    refine ⟨rfl, 0, Nat.zero_le _, ?_, by simp⟩
    rw [Numbering.growTo_of_le (Nat.zero_le _)]
  | cons e es ih =>
    have he := hes e (List.mem_cons_self ..)
    obtain ⟨h0, hle⟩ := Numbering.check_ok he
    simp only [importLiterals, ends_bind, ends_get, ends_ofExcept, Numbering.import?, he, Except.map,
      Except.ok.injEq, reduceCtorEq, false_implies, implies_true, and_true]
    rintro _ rfl
    simp only [ends_modify, ends_pure]
    refine (ih fun e' he' => hes e' (List.mem_cons_of_mem _ he')).imp (fun ls s' hs' => ?_) fun _ _ hf => hf
    obtain ⟨rfl, n, hn, rfl, hall⟩ := hs'
    refine ⟨rfl, max e.natAbs n, Nat.max_le.2 ⟨hle, hn⟩, ?_, fun e' he' => ?_⟩
    · simp only [Numbering.growTo_growTo]
    · rcases List.mem_cons.1 he' with rfl | he'
      · exact ⟨h0, Nat.le_max_left _ _⟩
      · exact ⟨(hall e' he').1, Nat.le_trans (hall e' he').2 (Nat.le_max_right _ _)⟩

/-- What adding clauses does not touch. -/
structure Apart (s s' : Solver ε) : Prop where
  /-- The settings stay. -/
  settings : s'.settings = s.settings
  /-- The hooks stay. -/
  hooks : s'.hooks = s.hooks
  /-- Nothing outside is touched. -/
  outside : s'.outside = s.outside
  /-- A refutation stays. -/
  inconsistent : s.inconsistent = true → s'.inconsistent = true

theorem Apart.refl (s : Solver ε) : Apart s s := ⟨rfl, rfl, rfl, id⟩

theorem Apart.trans {s'' : Solver ε} (h : Apart s s') (h' : Apart s' s'') : Apart s s'' :=
  ⟨h'.settings.trans h.settings, h'.hooks.trans h.hooks, h'.outside.trans h.outside,
    h'.inconsistent ∘ h.inconsistent⟩

theorem Stores.apart {c : List Literal} (h : Stores c s s') : Apart s s' := { h with }

theorem ensureVariables_eq (s : Solver ε) : ∃ assignment watches phases orders marks active,
    s.ensureVariables = { s with assignment, watches, phases, orders, marks, active } := by
  unfold ensureVariables
  simp only
  split
  · exact ⟨_, _, _, _, _, _, rfl⟩
  · exact ⟨_, _, _, _, _, _, rfl⟩

namespace Loaded

variable {F : List (List Literal)}

/-- More variables become known. -/
theorem grow (h : s.Loaded lags F) (hn : n ≤ Numbering.greatestExternal) :
    (ensureVariables { s with numbering := s.numbering.growTo n }).Loaded lags F := by
  have hsame := grow_same s n
  have hinv := fun p (hp : s.Inv lags p) => hp.ensureVariables hn
  obtain ⟨a, w, ph, o, m, k, he⟩ := ensureVariables_eq { s with numbering := s.numbering.growTo n }
  simp only at hsame
  rw [he] at hsame hinv ⊢
  obtain ⟨p, hp, hfull⟩ := h.settled
  refine ⟨⟨p, hinv p hp, hfull⟩, h.level, fun v => ?_, h.extension, h.learned,
    fun v hv => (hsame v).1.2 (h.holds v hv), fun hi v hv => h.base hi v ((hsame v).2.1 hv),
    fun c hc l hl => ?_, h.checked, h.status⟩
  · exact (Numbering.isEliminated_growTo _ _ _).trans (h.kept v)
  · simp only [Numbering.size_growTo]
    exact Nat.lt_of_lt_of_le (h.known c hc l hl) (Nat.le_max_left _ _)

/-- Without a refutation, a clause was added that is satisfied where what is never dropped is. -/
theorem add {c : List Literal} (h : s.Loaded lags F) (hk : ∀ l ∈ c, l.var < s.numbering.size)
    (ha : Added lags c s s') : s'.Loaded lags (F ++ [c]) where
  settled := ha.settled
  level := ha.level
  kept := ha.numbering ▸ h.kept
  extension := ha.extension.trans h.extension
  learned := ha.learned.trans h.learned
  holds v hv := by
    have hc : v.Satisfies c := hv c (by simp)
    exact ha.holds v hc (h.holds v fun d hd => hv d (by simp [hd]))
  base hi v hv := by
    have hi₀ : s.inconsistent = false := by
      rw [← Bool.not_eq_true]
      intro ht
      rw [ha.inconsistent ht] at hi
      simp at hi
    intro d hd
    rcases List.mem_append.1 hd with hd | hd
    · exact h.base hi₀ v (ha.base v hv) d hd
    · obtain rfl := List.mem_singleton.1 hd
      exact ha.satisfied hi v hv
  known d hd l hl := by
    rw [ha.numbering]
    rcases List.mem_append.1 hd with hd | hd
    · exact h.known d hd l hl
    · obtain rfl := List.mem_singleton.1 hd
      exact hk l hl
  checked := ha.pending ▸ h.checked
  status := ha.status ▸ h.status

/-- Once it is known that there is no model, clauses are not stored any more. -/
theorem add_inconsistent {c : List Literal} (h : s.Loaded lags F) (hk : ∀ l ∈ c, l.var < s.numbering.size)
    (hi : s.inconsistent = true) : s.Loaded lags (F ++ [c]) :=
  { h with
    holds := fun v hv => h.holds v fun d hd => hv d (by simp [hd])
    base := fun hf => by
      rw [hi] at hf
      simp at hf
    known := fun d hd l hl => by
      rcases List.mem_append.1 hd with hd | hd
      · exact h.known d hd l hl
      · obtain rfl := List.mem_singleton.1 hd
        exact hk l hl }

theorem ends_addChecked (h : s.Loaded lags F) {clause : List Int}
    (hc : ∀ e ∈ clause, Numbering.check e = .ok ()) :
    Ends (addChecked clause) s
      (fun _ s' => s'.Loaded lags (F ++ [clause.map Numbering.toLiteral]) ∧ s'.pending = s.pending ∧ Apart s s')
      fun e s' => e = .exhausted ∧ s'.Loaded lags F ∧ Apart s s' := by
  unfold addChecked
  simp only [ends_bind, ends_modify, ends_get]
  refine (ends_importLiterals hc).imp (fun ls s₁ hs₁ => ?_) fun _ _ hf => hf.elim
  obtain ⟨rfl, n, hn, rfl, hle⟩ := hs₁
  have h₁ := h.grow hn
  have hsize : n ≤ (s.numbering.growTo n).size := by
    rw [Numbering.size_growTo]
    exact Nat.le_max_right _ _
  obtain ⟨a, w, ph, o, m, k, he⟩ := ensureVariables_eq { s with numbering := s.numbering.growTo n }
  rw [he] at h₁ ⊢
  generalize hs₂ : ({ s with
    numbering := s.numbering.growTo n
    assignment := a, watches := w, phases := ph, orders := o, marks := m, active := k } : Solver ε) = s₂
    at h₁ ⊢
  have hpending : s₂.pending = s.pending := by rw [← hs₂]
  have hapart : Apart s s₂ := by
    rw [← hs₂]
    exact ⟨rfl, rfl, rfl, id⟩
  have hnumbering : s₂.numbering = s.numbering.growTo n := by rw [← hs₂]
  have hk : ∀ l ∈ clause.map Numbering.toLiteral, l.var < s₂.numbering.size := fun l hl => by
    obtain ⟨e, he, rfl⟩ := List.mem_map.1 hl
    obtain ⟨h0, hen⟩ := hle e he
    have : e.natAbs ≠ 0 := Int.natAbs_ne_zero.2 h0
    rw [hnumbering, Numbering.toLiteral, Literal.var_make]
    omega
  have hu : ∀ l ∈ clause.map Numbering.toLiteral, s₂.numbering.Usable l.var := fun l hl =>
    ⟨hk l hl, h₁.kept l.var⟩
  simp only [ends_ite, ends_pure]
  refine ⟨fun hi => ⟨h₁.add_inconsistent hk hi, hpending, hapart⟩, fun hi => ?_⟩
  obtain ⟨p, hp, hfull⟩ := h₁.settled
  obtain rfl := hfull (Bool.not_eq_true _ ▸ hi)
  cases hr : s₂.assignment.rootClause (clause.map Numbering.toLiteral) with
  | useless =>
    refine ⟨h₁.add hk ⟨⟨Refines.stores (.refl s₂) _, h₁.settled, h₁.level, rfl⟩, fun _ v hv => ?_⟩, hpending, hapart⟩
    exact Assignment.rootClause_useless hr (hp.toFrame.makesTrue_root h₁.level hv.root).1
  | literals c' =>
    refine (ends_addLiterals hp h₁.level hu hr).imp (fun _ s' hs' => ?_) fun _ s' he =>
      ⟨he.1, he.2.symm ▸ h₁, he.2.symm ▸ hapart⟩
    exact ⟨h₁.add hk hs', hs'.pending.trans hpending, hapart.trans hs'.apart⟩

end Loaded

/-! ## Calls -/

/-- Something that adds to a formula. -/
inductive Call where
  /-- A clause is added. -/
  | clause (literals : List Int)
  /-- A literal is added to the clause that was begun, or ends it if it is zero. -/
  | literal (e : Int)
deriving DecidableEq, Repr

/-- What a call does. -/
def Call.run : Call → SolverM ε Unit
  | .clause ls => addClause ls
  | .literal e => addLiteral e

/-- The clauses that some calls add, after the literals of a clause that was begun. -/
def Call.clauses (pending : List Int) : List Call → List (List Int)
  | [] => []
  | .clause ls :: calls => ls :: clauses pending calls
  | .literal e :: calls => if e = 0 then pending :: clauses [] calls else clauses (pending ++ [e]) calls

namespace Loaded

variable {F : List (List Literal)}

theorem ends_beginInput (h : s.Loaded lags F) :
    Ends beginInput s (fun _ s' => s'.Loaded lags F ∧ s'.pending = s.pending ∧ Apart s s')
      fun _ s' => s' = s := by
  have hset : Loaded lags F { s with status := .input } := by
    obtain ⟨p, hp, hfull⟩ := h.settled
    exact { h with
      settled := ⟨p, { hp with
        toFrame := { hp.toFrame with }
        toWired := { hp.toWired with }
        toClean := { hp.toClean with } }, hfull⟩
      holds := fun v hv => { h.holds v hv with }
      base := fun hi v hv => h.base hi v { hv with }
      status := .inr rfl }
  unfold beginInput
  simp only [ends_bind, ends_get]
  split
  · exact ⟨hset, rfl, rfl, rfl, rfl, id⟩
  · exact ⟨hset, rfl, rfl, rfl, rfl, id⟩
  · rfl

theorem check_of_forM {ls : List Int} (h : ls.forM Numbering.check = .ok ()) :
    ∀ e ∈ ls, Numbering.check e = .ok () := by
  induction ls with
  | nil => simp
  | cons a ls ih =>
    simp only [List.forM] at h
    cases ha : Numbering.check a with
    | error e =>
      rw [ha] at h
      cases h
    | ok u =>
      rw [ha] at h
      intro e he
      rcases List.mem_cons.1 he with rfl | he
      · exact ha
      · exact ih h e he

theorem ends_addClause (h : s.Loaded lags F) (ls : List Int) :
    Ends (addClause ls) s
      (fun _ s' => s'.Loaded lags (F ++ [ls.map Numbering.toLiteral]) ∧ s'.pending = s.pending ∧
        Apart s s' ∧ ∀ e ∈ ls, Numbering.check e = .ok ())
      fun _ s' => s'.Loaded lags F ∧ Apart s s' := by
  unfold addClause
  simp only [ends_bind, ends_get, ends_ite, ends_throw, ends_ofExcept]
  refine h.ends_beginInput.imp (fun _ s₁ h₁ => ?_) fun _ _ he => he.symm ▸ ⟨h, .refl s⟩
  have hsame : s₁.Loaded lags F ∧ Apart s s₁ := ⟨h₁.1, h₁.2.2⟩
  refine ⟨fun _ => hsame, fun _ => ⟨fun _ hc => ?_, fun _ _ => hsame⟩⟩
  refine (h₁.1.ends_addChecked (check_of_forM hc)).imp (fun _ s₂ h₂ => ?_) fun _ _ he =>
    ⟨he.2.1, h₁.2.2.trans he.2.2⟩
  exact ⟨h₂.1, h₂.2.1.trans h₁.2.1, h₁.2.2.trans h₂.2.2, check_of_forM hc⟩

/-- Several clauses are added, one after another. -/
theorem ends_addClauses (h : s.Loaded lags F) (clauses : List (List Int)) :
    Ends (clauses.forM addClause) s
      (fun _ s' => s'.Loaded lags (F ++ clauses.map (List.map Numbering.toLiteral)) ∧ s'.pending = s.pending ∧
        Apart s s' ∧ ∀ c ∈ clauses, ∀ e ∈ c, Numbering.check e = .ok ())
      fun _ s' => s'.outside = s.outside := by
  induction clauses generalizing s F with
  | nil => exact ⟨by simpa using h, rfl, .refl s, by simp⟩
  | cons c clauses ih =>
    simp only [List.forM, ends_bind]
    refine (h.ends_addClause c).imp (fun _ s₁ h₁ => ?_) fun _ _ he => he.2.outside
    obtain ⟨hload, hp, hapart, hc⟩ := h₁
    refine (ih hload).imp (fun _ s₂ h₂ => ?_) fun _ _ he => he.trans hapart.outside
    obtain ⟨hload', hp', hapart', hcs⟩ := h₂
    exact ⟨by simpa using hload', hp'.trans hp, hapart.trans hapart', List.forall_mem_cons.2 ⟨hc, hcs⟩⟩

/-- The pending literals are changed to others that were checked. -/
theorem setPending (h : s.Loaded lags F) {pending : Array Int}
    (hp : ∀ e ∈ pending, Numbering.check e = .ok ()) : Loaded lags F { s with pending } := by
  obtain ⟨p, hi, hfull⟩ := h.settled
  exact { h with
    settled := ⟨p, { hi with
      toFrame := { hi.toFrame with }
      toWired := { hi.toWired with }
      toClean := { hi.toClean with } }, hfull⟩
    holds := fun v hv => { h.holds v hv with }
    base := fun hi v hv => h.base hi v { hv with }
    checked := hp }

theorem ends_addLiteral (h : s.Loaded lags F) (e : Int) :
    Ends (addLiteral e) s
      (fun _ s' => Apart s s' ∧ if e = 0 then
          s'.Loaded lags (F ++ [s.pending.toList.map Numbering.toLiteral]) ∧ s'.pending = #[]
        else s'.Loaded lags F ∧ s'.pending = s.pending.push e)
      fun _ s' => s'.Loaded lags F ∧ Apart s s' := by
  unfold addLiteral
  simp only [ends_bind, ends_ite, ends_get, ends_modify, ends_ofExcept]
  refine h.ends_beginInput.imp (fun _ s₁ h₁ => ⟨fun h0 => ?_, fun h0 => ⟨fun _ hc => ?_, fun _ _ => ⟨h₁.1, h₁.2.2⟩⟩⟩)
    fun _ _ he => he.symm ▸ ⟨h, .refl s⟩
  · simp only [if_pos h0]
    rw [← h₁.2.1]
    have hchecked : ∀ e ∈ s₁.pending.toList, Numbering.check e = .ok () := fun e he =>
      h₁.1.checked e (Array.mem_toList_iff.1 he)
    have hnil : Loaded lags F { s₁ with pending := #[] } := h₁.1.setPending (by simp)
    refine (hnil.ends_addChecked hchecked).imp (fun _ _ h₂ => ?_) fun _ _ he =>
      ⟨he.2.1, h₁.2.2.trans { he.2.2 with }⟩
    exact ⟨h₁.2.2.trans { h₂.2.2 with }, h₂.1, h₂.2.1⟩
  · simp only [if_neg h0]
    rw [← h₁.2.1]
    refine ⟨{ h₁.2.2 with }, h₁.1.setPending fun e' he' => ?_, rfl⟩
    rcases Array.mem_push.1 he' with he' | rfl
    · exact h₁.1.checked e' he'
    · exact hc

/-- A call leaves a solver that clauses were added to, whether it succeeds or not. -/
theorem ends_call (h : s.Loaded lags F) (c : Call) :
    Ends c.run s (fun _ s' => (∃ F', s'.Loaded lags F') ∧ Apart s s') fun _ s' => s'.Loaded lags F ∧ Apart s s' := by
  cases c with
  | clause ls => exact (h.ends_addClause ls).imp (fun _ _ h' => ⟨⟨_, h'.1⟩, h'.2.2.1⟩) fun _ _ he => he
  | literal e =>
    refine (h.ends_addLiteral e).imp (fun _ _ h' => ⟨?_, h'.1⟩) fun _ _ he => he
    have h' := h'.2
    split at h'
    · exact ⟨_, h'.1⟩
    · exact ⟨_, h'.1⟩

/-- Calls that all succeed add their clauses to the formula.  The literals of these were checked. -/
theorem run {calls : List Call} (h : s.Loaded lags F) (hr : calls.forM Call.run s = .ok () s') :
    s'.Loaded lags (F ++ (Call.clauses s.pending.toList calls).map (List.map Numbering.toLiteral)) ∧
      Apart s s' ∧ ∀ c ∈ Call.clauses s.pending.toList calls, ∀ e ∈ c, Numbering.check e = .ok () := by
  induction calls generalizing s F with
  | nil =>
    obtain rfl : s = s' := by
      simp only [List.forM] at hr
      exact (EStateM.Result.ok.inj hr).2
    exact ⟨by simpa [Call.clauses] using h, .refl s, by simp [Call.clauses]⟩
  | cons c calls ih =>
    rw [List.forM] at hr
    cases hx : c.run s with
    | error e s₁ =>
      simp only [bind, EStateM.bind, hx] at hr
      cases hr
    | ok u s₁ =>
      simp only [bind, EStateM.bind, hx] at hr
      cases c with
      | clause ls =>
        obtain ⟨h₁, hp, hapart, hc⟩ := (h.ends_addClause ls).of_ok hx
        obtain ⟨hload, hapart', hcheck⟩ := ih h₁ hr
        rw [hp] at hload hcheck
        exact ⟨by simpa [Call.clauses] using hload, hapart.trans hapart',
          fun c hm => (List.mem_cons.1 hm).elim (· ▸ hc) (hcheck c)⟩
      | literal e =>
        obtain ⟨hapart, h₁⟩ := (h.ends_addLiteral e).of_ok hx
        by_cases h0 : e = 0
        · rw [if_pos h0] at h₁
          obtain ⟨hload, hapart', hcheck⟩ := ih h₁.1 hr
          rw [h₁.2] at hload hcheck
          rw [Call.clauses, if_pos h0]
          exact ⟨by simpa using hload, hapart.trans hapart', fun c hm => (List.mem_cons.1 hm).elim
            (fun hc e he => h.checked e (Array.mem_toList_iff.1 (hc ▸ he))) (hcheck c)⟩
        · rw [if_neg h0] at h₁
          obtain ⟨hload, hapart', hcheck⟩ := ih h₁.1 hr
          rw [h₁.2, Array.toList_push] at hload hcheck
          rw [Call.clauses, if_neg h0]
          exact ⟨hload, hapart.trans hapart', hcheck⟩

end Loaded

/-- What is outside, and when to stop, does not matter for the formula. -/
theorem Loaded.configure {F : List (List Literal)} (h : s.Loaded lags F) (hooks : Hooks ε) (limits : Limits)
    (stopped : Bool) : Loaded lags F { s with hooks, limits, stopped } := by
  obtain ⟨p, hi, hfull⟩ := h.settled
  exact { h with
    settled := ⟨p, { hi with
      toFrame := { hi.toFrame with }
      toWired := { hi.toWired with }
      toClean := { hi.toClean with } }, hfull⟩
    holds := fun v hv => { h.holds v hv with }
    base := fun hi v hv => h.base hi v { hv with } }

/-! ## A solver to begin with -/

section Settings

variable (c : Settings) (outside : ε)

theorem offsets_ofSettings : (ofSettings c outside).store.offsets = [] := Store.offsetsFrom_done (Nat.le_refl _)

theorem view_ofSettings (l : Literal) : (ofSettings c outside).watches.view l = [] :=
  Watches.view_out_of_range (Nat.zero_le _)

theorem not_mem_ofSettings (l : Literal) : l ∉ (ofSettings c outside).trail.literals := by
  intro hl
  cases hl with
  | mk h => cases h

/-- Before any clause was added the invariant holds. -/
theorem inv_ofSettings : (ofSettings c outside).Inv lags 0 := by
  have hview := view_ofSettings c outside
  have hoffsets := offsets_ofSettings c outside
  have htrail := not_mem_ofSettings c outside
  have hcurrent : ∀ r, ¬ (ofSettings c outside).store.Current r := fun r hr => by
    have := hr.2
    rw [hoffsets] at this
    simp at this
  have hnot : ∀ v, ¬ (ofSettings c outside).numbering.Usable v := fun v hv => Nat.not_lt_zero _ hv.1
  exact
    { sized := ⟨rfl, rfl, fun l => rfl⟩
      few := Nat.zero_le _
      lists := rfl
      trail :=
        { frames := Nat.one_pos
          root := rfl
          nodup := .nil
          usable := fun l hl => absurd hl (htrail l)
          tt_iff := fun l => by
            constructor
            · intro h
              cases h
            · intro hl
              exact absurd hl (htrail l)
          level_iff := fun i hi => absurd hi (Nat.not_lt_zero i)
          decision := fun k h1 h2 => absurd (Nat.lt_of_lt_of_le h1 h2) (Nat.lt_irrefl 0)
          propagated := Nat.le_refl 0
          below := Nat.le_refl 0 }
      orders := (Orders.valid_ofSettings c).congr fun v => iff_of_false (hnot v) id
      covers := Orders.covers_of_not _ fun v hv => hnot v hv.1
      active := rfl
      iterating := fun _ => rfl
      store := ⟨.done, by simp [hoffsets], by simp [hoffsets]⟩
      paired := ⟨by simp [hview], by simp [Watches.pairs, hview], by simp [hview]⟩
      watched := ⟨by simp [hview], fun l r => by simp [hview, hcurrent], by simp [hview]⟩
      grounded := fun i hi => absurd hi (Nat.not_lt_zero i)
      reasons := fun l hl => absurd hl (htrail l)
      guarded := ⟨by simp [hview], by simp [hview]⟩
      recent := by simp [ofSettings, Recent.toList_ofCapacity]
      marks := rfl
      records := fun v => ⟨rfl, rfl, rfl⟩
      unpinned := by simp [hoffsets]
      stored := rfl }

/-- Before any clause was added nothing is known. -/
theorem loaded_ofSettings : (ofSettings c outside).Loaded lags [] := by
  have htrail := not_mem_ofSettings c outside
  refine ⟨⟨0, inv_ofSettings c outside, fun _ => rfl⟩, rfl, fun v => rfl, rfl, rfl, fun v _ => ?_,
    fun _ v _ d hd => by simp at hd, by simp, fun e he => (by cases he with | mk h => cases h), .inl rfl⟩
  exact ⟨rfl, fun l hl => absurd hl (htrail l), by simp [offsets_ofSettings], by simp [view_ofSettings],
    fun l hl => absurd hl (htrail l), fun x hx => by cases hx with | mk h => cases h⟩

end Settings

/-- A solver before any clause was added, with what is set before that. -/
def fresh (c : Settings) (hooks : Hooks ε) (limits : Limits) (stopped : Bool) (outside : ε) : Solver ε :=
  { ofSettings c outside with hooks, limits, stopped }

/-- The clauses that calls add, in the order of the calls. -/
def Call.formula (calls : List Call) : List (List Literal) :=
  (Call.clauses [] calls).map (List.map Numbering.toLiteral)

section Fresh

variable {c : Settings} {hooks : Hooks ε} {limits : Limits} {stopped : Bool} {outside : ε} {calls : List Call}
  (h : calls.forM Call.run (fresh c hooks limits stopped outside) = .ok () s)
include h

/-- What is loaded after calls on a fresh solver. -/
theorem loaded_run : s.Loaded lags (Call.formula calls) :=
  (((loaded_ofSettings c outside).configure hooks limits stopped).run h).1

/-- The literals of the clauses are literals. -/
theorem checked_run : ∀ c ∈ Call.clauses [] calls, ∀ e ∈ c, Numbering.check e = .ok () :=
  ((@loaded_ofSettings ε True c outside).configure hooks limits stopped |>.run h).2.2

/-- What was set before stays. -/
theorem apart_run : Apart (fresh c hooks limits stopped outside) s :=
  ((@loaded_ofSettings ε True c outside).configure hooks limits stopped |>.run h).2.1

end Fresh

end Solver

end ClauseLearning

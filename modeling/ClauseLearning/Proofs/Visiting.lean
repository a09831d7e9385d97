import ClauseLearning.Proofs.Closure

/-!
# Going through the watches of a literal

While the watches of a literal are gone through, its list is taken out.  What was gone through and what is
still to come together make up the list, and with this list put back the clauses are wired at all times.
The watches that were gone through are guarded with one more literal propagated, so once all of them were,
every clause is.

* `Solver.visitWatch` — what becomes of one watch, with `Solver.propagateList_run` for all of them.
* `Solver.Visiting` — what holds while the watches of one literal are gone through.
* `Solver.Visiting.keep`, `Solver.Visiting.assign` — one step.
* `Solver.Visiting.rewired` — a clause was visited, and its watches were put in order: `Solver.Visiting.stays` if they
  stay where they are, `Solver.Visiting.moves` if one of them moves.
* `Solver.Visiting.wired_succ` — what holds at the end.
* `Solver.Conflict` — a clause is false, and not below the current level.
-/

namespace ClauseLearning

variable {t : Trail} {a : Assignment} {i : Nat} {no x b y d m : Literal} {c : List Literal} {late : Prop}

theorem Trail.mem_upTo_succ {l : Literal} :
    l ∈ t.upTo (i + 1) ↔ l ∈ t.upTo i ∨ (i < t.size ∧ l = t.at' i) := by
  simp only [Trail.mem_upTo]
  constructor
  · rintro ⟨j, hj, hs, rfl⟩
    by_cases hji : j = i
    · exact .inr ⟨hji ▸ hs, by rw [hji]⟩
    · exact .inl ⟨j, by omega, hs, rfl⟩
  · rintro (⟨j, hj, hs, rfl⟩ | ⟨hs, rfl⟩)
    · exact ⟨j, by omega, hs, rfl⟩
    · exact ⟨i, by omega, hs, rfl⟩

/-- Only the literal that is propagated falls. -/
theorem Fallen.of_succ (hat : t.at' i = -no) (hx : x ≠ no) (h : Fallen t (i + 1) x) : Fallen t i x := by
  rcases Trail.mem_upTo_succ.1 h with hm | ⟨-, he⟩
  · exact hm
  · exact absurd (Literal.negate_inj.1 (he.trans hat)) hx

/-- A clause that is not watched by the literal which is propagated stays guarded. -/
theorem Guard.step_other (h : Guard t a i late x b y d c) (hat : t.at' i = -no) (hx : x ≠ no)
    (hy : y ≠ no) : Guard t a (i + 1) late x b y d c :=
  h.imp (fun l hl hf => by
    rcases hl with rfl | rfl
    · exact ⟨hf.of_succ hat hx, rfl⟩
    · exact ⟨hf.of_succ hat hy, rfl⟩) (fun _ _ _ _ _ _ => ⟨rfl, rfl⟩) id fun _ hm => hm

/-- A clause stays guarded where the blocking literal of the one which is propagated, or the other watched
literal, is true on a level no higher. -/
theorem Guard.step_true (h : Guard t a i late no b y d c) (hat : t.at' i = -no) (hy : y ≠ no)
    (hno : a.value no = .ff) (hm : m = b ∨ m = y) (hmc : m ∈ c) (ht : a.value m = .tt)
    (hle : a.level m ≤ a.level no) : Guard t a (i + 1) late no b y d c := by
  refine ⟨h.crossed, fun _ => .inl ⟨m, by simpa using hm, ht, hle⟩, fun hfall => ?_⟩
  rcases h.right (hfall.of_succ hat hy) with hmeets | ⟨-, -, -, hall⟩
  · exact .inl hmeets
  · -- all literals but the propagated one would be false
    have hne : m ≠ no := by
      rintro rfl
      rw [hno] at ht
      simp at ht
    rw [(hall m hmc hne).1] at ht
    simp at ht

/-- The blocking literal of a literal that has not fallen may be replaced by the other watched literal. -/
theorem Guard.reblock {b' : Literal} (h : Guard t a i late no b y d c) (hn : ¬ Fallen t i no)
    (hb : b' = b ∨ b' = y) : Guard t a i late no b' y d c := by
  refine ⟨?_, .of_not_fallen hn, h.right⟩
  rcases hb with rfl | rfl
  · exact h.crossed
  · exact .inl rfl

/-- A literal that is not false may be watched in place of a false one. -/
theorem Guard.moved (h : Guard t a i late no b y d c) (hno : a.value no = .ff) (hm : ¬ Fallen t i m)
    (hmv : a.value m ≠ .ff) (hmc : m ∈ c) (hmno : m ≠ no) : Guard t a i late m y y d c := by
  refine ⟨.inl rfl, .of_not_fallen hm, fun hfall => ?_⟩
  rcases h.right hfall with ⟨z, hz, ht, hle⟩ | ⟨-, -, -, hall⟩
  · refine .inl ⟨z, ?_, ht, hle⟩
    have hne : z ≠ no := by
      rintro rfl
      rw [hno] at ht
      simp at ht
    simp only [List.mem_cons, List.not_mem_nil, or_false] at hz ⊢
    exact .inl (hz.resolve_right hne)
  · exact absurd (hall m hmc hmno).1 hmv

namespace Solver

variable {ε : Type} {lags : Prop} {s s' : Solver ε} {kept rest ws : List Watch}

/-! ## One watch after another -/

/-- What becomes of a watch of a literal `no` which has become false: a fault, or the watch that stays in the list of
the literal, if one does. -/
def visitWatch (no : Literal) (w : Watch) (s : Solver ε) : Except Fault (Option Watch) × Solver ε :=
  match w with
  | .binary other _ _ =>
    match s.val other with
    | .tt => (.ok (some w), s)
    | .ff => (.error (.conflict (.binary no other)), s)
    | .unassigned => (.ok (some w), s.assign other (.binary no))
  | .large blocking r =>
    if s.val blocking = .tt then (.ok (some w), s)
    else
      match onStore (Store.visit s.assignment no r) s with
      | .error e s => (.error e, s)
      | .ok v s =>
        match v with
        | .satisfied other => (.ok (some (.large other r)), s)
        | .moved replacement other => (.ok none, { s with watches := s.watches.add replacement (.large other r) })
        | .forced other => (.ok (some w), s.assignForced other r)
        | .conflict => (.error (.conflict (.large r)), s)

/-- Without a fault the others are gone through in the state that a watch leaves.  With a fault they all stay. -/
theorem propagateList_cons (no : Literal) (w : Watch) (rest : List Watch) (kept : Array Watch) (s : Solver ε) :
    propagateList no (w :: rest) kept s =
      match s.visitWatch no w with
      | (.ok x, s') => propagateList no rest (x.elim kept kept.push) s'
      | (.error e, s') => ((some e, kept.push w ++ rest), s') := by
  rw [propagateList.eq_def]
  unfold visitWatch
  cases w with
  | binary other r y =>
    dsimp only
    cases s.val other with
    | tt => rfl
    | ff => rfl
    | unassigned => rfl
  | large b r =>
    dsimp only
    by_cases hb : s.val b = .tt
    · rw [if_pos hb, if_pos hb]
      rfl
    · rw [if_neg hb, if_neg hb]
      cases onStore (Store.visit s.assignment no r) s with
      | error e s₁ => rfl
      | ok v s₁ =>
        cases v with
        | satisfied m => rfl
        | moved m o => rfl
        | forced m => rfl
        | conflict => rfl

/-- The watch of a binary clause stays. -/
theorem isBinary_visitWatch (no : Literal) (w : Watch) (s : Solver ε) :
    ∀ x, (s.visitWatch no w).1 = .ok x → x.toList.filter Watch.isBinary = [w].filter Watch.isBinary := by
  unfold visitWatch
  cases w with
  | binary other r y =>
    dsimp only
    cases s.val other with
    | tt => exact fun x he => Except.ok.inj he ▸ rfl
    | ff => exact fun x he => by cases he
    | unassigned => exact fun x he => Except.ok.inj he ▸ rfl
  | large b r =>
    dsimp only
    split
    · exact fun x he => Except.ok.inj he ▸ rfl
    · cases onStore (Store.visit s.assignment no r) s with
      | error e s₁ => exact fun x he => by cases he
      | ok v s₁ =>
        cases v with
        | satisfied m => exact fun x he => Except.ok.inj he ▸ rfl
        | moved m o => exact fun x he => Except.ok.inj he ▸ rfl
        | forced m => exact fun x he => Except.ok.inj he ▸ rfl
        | conflict => exact fun x he => by cases he

theorem toList_elim_push (x : Option Watch) (kept : Array Watch) :
    (x.elim kept kept.push).toList = kept.toList ++ x.toList := by
  cases x <;> simp

/-- What holds before the first watch, and is kept by what becomes of each, holds to the end. -/
theorem propagateList_run {I : List Watch → Array Watch → Solver ε → Prop}
    {E : (Option Fault × Array Watch) × Solver ε → Prop} (hend : ∀ kept s, I [] kept s → E ((none, kept), s))
    (hstep : ∀ {w rest kept s x s'}, I (w :: rest) kept s → s.visitWatch no w = (.ok x, s') →
      I rest (x.elim kept kept.push) s')
    (hhalt : ∀ {w rest kept s e s'}, I (w :: rest) kept s → s.visitWatch no w = (.error e, s') →
      E ((some e, kept.push w ++ rest), s'))
    {ws : List Watch} {kept : Array Watch} {s : Solver ε} (h : I ws kept s) : E (propagateList no ws kept s) := by
  induction ws generalizing kept s with
  | nil => exact hend kept s h
  | cons w ws ih =>
    obtain ⟨out, s', he⟩ : ∃ out s', s.visitWatch no w = (out, s') := ⟨_, _, rfl⟩
    cases out with
    | ok x =>
      rw [propagateList_cons, he]
      exact ih (hstep h he)
    | error e =>
      rw [propagateList_cons, he]
      exact hhalt h he

/-! ## The list that is gone through -/

/-- The solver with a list of watches put back. -/
def heldBack (s : Solver ε) (no : Literal) (ws : List Watch) : Solver ε :=
  { s with watches := s.watches.restore no ws.toArray }

/-- A watch that stays in the list of a literal, which is taken out, guards its clause. -/
def Settles (lags : Prop) (s : Solver ε) (p : Nat) (no : Literal) : Watch → Prop
  | .binary o r _ => Guard s.trail s.assignment p (lags ∧ r = true) no o o no [no, o]
  | .large b r => ∀ y d, .large d r ∈ s.watches.view y → Guard s.trail s.assignment p
      (lags ∧ (s.store.flagsAt r.offset).redundant = true) no b y d (s.store.lits r.offset)

/-- What holds while the watches of the literal `no`, false by the literal at position `i`, are gone
through: those in `kept` were, and those in `rest` are still to come. -/
structure Visiting (lags : Prop) (i : Nat) (no : Literal) (kept rest : List Watch) (s : Solver ε) : Prop where
  /-- The tables fit together. -/
  frame : s.Frame
  /-- No mark is left behind. -/
  clean : s.Clean
  /-- With the list put back, the clauses are watched. -/
  wired : (s.heldBack no (kept ++ rest)).Wired lags i
  /-- The list is taken out. -/
  empty : s.watches.view no = []
  /-- The literal that is propagated is on the trail. -/
  inside : i < s.trail.size
  /-- It makes `no` false. -/
  here : s.trail.at' i = -no
  /-- It is on the current level. -/
  level : s.assignment.level no = s.trail.level
  /-- What was gone through is guarded. -/
  settled : ∀ w ∈ kept, s.Settles lags (i + 1) no w
  /-- In a derived clause one literal is true and the other one false, on the same level. -/
  derived : ∀ d ∈ s.derived, d.2 ∈ s.trail.literals ∧ -d.1 ∈ s.trail.literals ∧
    s.assignment.level d.2 = s.assignment.level d.1 ∧ d.1.var ≠ d.2.var

/-- The literals of a clause by its key. -/
def clauseOf (s : Solver ε) : Key → List Literal
  | .binary a b => [a, b]
  | .large r => s.store.lits r.offset

/-- A clause is false, and one of its literals is on the current level. -/
structure Conflict (s : Solver ε) (key : Key) : Prop where
  /-- A clause of the store is there. -/
  current : ∀ r, key = .large r → s.store.Current r
  /-- A binary clause is watched. -/
  watched : ∀ a b, key = .binary a b → ∃ r y, .binary b r y ∈ s.watches.view a
  /-- Its literals are false. -/
  falsified : ∀ l ∈ s.clauseOf key, -l ∈ s.trail.literals
  /-- One of them is on the current level. -/
  level : ∃ l ∈ s.clauseOf key, s.assignment.level l = s.trail.level

/-- The clause is one of those that are known. -/
theorem Conflict.satisfies {key : Key} (h : s.Conflict key) {v : Valuation} (hv : s.Holds v) :
    v.Satisfies (s.clauseOf key) := by
  cases key with
  | binary a b =>
    obtain ⟨r, y, hm⟩ := h.watched a b rfl
    exact hv.binary a b r y hm
  | large r => exact hv.large r.offset (h.current r rfl).2

/-- What propagation and everything like it leaves alone. -/
structure Steady (s s' : Solver ε) : Prop where
  /-- The level stays. -/
  level : s'.trail.level = s.trail.level
  /-- So many literals count as propagated. -/
  propagated : s'.trail.propagated = s.trail.propagated
  /-- Nothing is refuted. -/
  inconsistent : s'.inconsistent = s.inconsistent
  /-- The last learnt clause stays. -/
  learned : s'.learned = s.learned

theorem Steady.refl (s : Solver ε) : Steady s s := ⟨rfl, rfl, rfl, rfl⟩

theorem Steady.trans {s'' : Solver ε} (h : Steady s s') (h' : Steady s' s'') : Steady s s'' :=
  ⟨h'.level.trans h.level, h'.propagated.trans h.propagated,
    h'.inconsistent.trans h.inconsistent, h'.learned.trans h.learned⟩

theorem steady_assign (s : Solver ε) (l : Literal) (reason : Reason) :
    Steady s (s.assign l reason) := by
  obtain ⟨u, he⟩ := assign_eq s l reason
  rw [he]
  exact ⟨rfl, rfl, rfl, rfl⟩

namespace Visiting

theorem code_lt (h : Visiting lags i no kept rest s) : no.code < s.watches.lists.size := by
  have hmem : -no ∈ s.trail.literals := h.here ▸ Trail.at'_mem h.inside
  exact h.frame.code_lt (h.frame.usable_of_neg_mem hmem)

theorem view (h : Visiting lags i no kept rest s) (ws : List Watch) (l : Literal) :
    (s.heldBack no ws).watches.view l = if l = no then ws else s.watches.view l := by
  rw [heldBack, Watches.view_restore _ h.code_lt]
  split
  · next hl => rw [hl, h.empty, List.append_nil]
  · rfl

theorem neg_mem (h : Visiting lags i no kept rest s) : -no ∈ s.trail.literals :=
  h.here ▸ Trail.at'_mem h.inside

theorem val_no (h : Visiting lags i no kept rest s) : s.val no = .ff := h.frame.val_ff.2 h.neg_mem

/-- The literal counts as fallen only once all its watches were gone through. -/
theorem not_fallen (h : Visiting lags i no kept rest s) : ¬ Fallen s.trail i no := by
  intro hm
  obtain ⟨j, hj, hjs, he⟩ := Trail.mem_upTo.1 hm
  have := h.frame.trail.at'_inj hjs h.inside (by rw [he, h.here])
  omega

theorem ne_of_mem_view (h : Visiting lags i no kept rest s) {l : Literal} {w : Watch}
    (hw : w ∈ s.watches.view l) : l ≠ no := by
  rintro rfl
  rw [h.empty] at hw
  simp at hw

theorem level_le (h : Visiting lags i no kept rest s) {m : Literal} (hm : s.val m = .tt) :
    s.assignment.level m ≤ s.assignment.level no := by
  rw [h.level]
  exact h.frame.trail.level_le_of_mem (h.frame.val_tt.1 hm)

/-- Frame and wiring of the solver with the list put back. -/
theorem frame_heldBack (h : Visiting lags i no kept rest s) (ws : List Watch) :
    (s.heldBack no ws).Frame :=
  { h.frame with lists := by rw [heldBack, Watches.size_restore]; exact h.frame.lists }

/-- The watch which comes next was gone through, and stays as it is. -/
theorem keep {w : Watch} (h : Visiting lags i no kept (w :: rest) s) (hw : s.Settles lags (i + 1) no w) :
    Visiting lags i no (kept ++ [w]) rest s :=
  { h with
    wired := by
      have := h.wired
      rwa [List.append_cons] at this
    settled := fun x hx => by
      rcases List.mem_append.1 hx with hx | hx
      · exact h.settled x hx
      · rw [List.mem_singleton.1 hx]
        exact hw }

/-- A literal is assigned meanwhile, and a clause with it may be derived. -/
theorem assign_deriving (h : Visiting lags i no kept rest s) {l : Literal} {reason : Reason}
    {ds : Array (Literal × Literal)} (hu : s.numbering.Usable l.var) (hv : s.val l = .unassigned)
    (hj : Justifies { s with derived := ds } l reason) (hold : ∀ d ∈ s.derived, d ∈ ds)
    (hnew : ∀ d ∈ ds, d ∈ s.derived ∨ d.2 = l ∧ -d.1 ∈ s.trail.literals ∧
      s.assignment.level d.1 = s.trail.level ∧ d.1.var ≠ d.2.var) :
    Visiting lags i no kept rest { s.assign l reason with derived := ds } := by
  obtain ⟨u, he⟩ := assign_eq s l reason
  have hext := h.frame.trail.extends_push h.frame.sized hu.1 hv s.trail.level
    (if s.trail.level = 0 then .unit else reason)
  have hj' : Justifies (heldBack { s with derived := ds } no (kept ++ rest)) l reason := by
    cases reason with
    | binary o =>
      refine ⟨hj.1, hj.2.imp_left ?_⟩
      rintro ⟨r, y, hm⟩
      refine ⟨r, y, ?_⟩
      have hne : l ≠ no := h.ne_of_mem_view hm
      rw [← if_neg hne (c := l = no) (t := kept ++ rest) (e := s.watches.view l)] at hm
      rwa [← h.view] at hm
    | decision => exact hj
    | unit => exact hj
    | large r => exact hj
  have hwired : Wired lags (heldBack { s with derived := ds } no (kept ++ rest)) i :=
    { h.wired with reasons := fun m hm o ho => (h.wired.reasons m hm o ho).imp_right (hold _) }
  have hw := hwired.assign (s := heldBack { s with derived := ds } no (kept ++ rest)) hu hv
    { h.frame_heldBack (kept ++ rest) with } (Nat.le_of_lt h.inside) hj'
  obtain ⟨u', he'⟩ := assign_eq (heldBack { s with derived := ds } no (kept ++ rest)) l reason
  have hguard : ∀ {late x b y d c}, Guard s.trail s.assignment (i + 1) late x b y d c →
      Guard (s.trail.push l) (s.assignment.set l s.trail.level
        (if s.trail.level = 0 then .unit else reason)) (i + 1) late x b y d c :=
    fun hg => hext.guard h.frame.trail h.frame.sized h.inside hg
  refine ⟨{ h.frame.assign hu hv reason with }, { h.clean.assign hu h.frame reason with },
    ?_, ?_, ?_, ?_, ?_, ?_, ?_⟩
  · rw [he'] at hw
    rw [he]
    exact { hw with }
  · rw [he]
    exact h.empty
  · rw [he]
    exact Nat.lt_of_lt_of_eq (Nat.lt_succ_of_lt h.inside) (Trail.size_push _ _).symm
  · rw [he]
    exact (hext.at_eq i h.inside).trans h.here
  · rw [he]
    exact (hext.level_neg h.neg_mem).trans h.level
  · intro w hw'
    have := h.settled w hw'
    rw [he]
    cases w with
    | binary o r y => exact hguard this
    | large b r => exact fun y d hy => hguard (this y d hy)
  · intro d hd
    rw [he]
    rcases hnew d hd with hd | ⟨h1, h2, h3, h4⟩
    · obtain ⟨h1, h2, h3, h4⟩ := h.derived d hd
      refine ⟨Array.mem_push.2 (.inl h1), Array.mem_push.2 (.inl h2), ?_, h4⟩
      exact (hext.level h1).trans (h3.trans (hext.level_neg h2).symm)
    · refine ⟨h1 ▸ Array.mem_push_self, Array.mem_push.2 (.inl h2), ?_, h4⟩
      simp only
      rw [hext.level_neg h2, h3, h1, Assignment.level, Assignment.record_set h.frame.sized hu.1,
        if_pos rfl]

/-- A literal is assigned meanwhile. -/
theorem assign (h : Visiting lags i no kept rest s) {l : Literal} {reason : Reason}
    (hu : s.numbering.Usable l.var) (hv : s.val l = .unassigned) (hj : s.Justifies l reason) :
    Visiting lags i no kept rest (s.assign l reason) := by
  have hvis := h.assign_deriving hu hv hj (fun _ hd => hd) fun _ hd => .inl hd
  obtain ⟨u, he⟩ := assign_eq s l reason
  rw [he] at hvis ⊢
  exact hvis

/-- Once all watches were gone through, every clause is guarded. -/
theorem wired_succ (h : Visiting lags i no kept [] s) : (s.heldBack no kept).Wired lags (i + 1) := by
  have hw := h.wired
  rw [List.append_nil] at hw
  refine { hw with guarded := ⟨fun l o r y hm => ?_, fun r x b y d hx hy hne => ?_⟩ }
  · by_cases hl : l = no
    · rw [h.view, if_pos hl] at hm
      rw [hl]
      exact h.settled _ hm
    · by_cases ho : o = no
      · have hm' := hw.paired.mem_symm.1 hm
        rw [ho, h.view, if_pos rfl] at hm'
        rw [ho]
        have hs : Guard _ _ _ _ no l l no [no, l] := h.settled _ hm'
        exact hs.symm.of_mem (by simp)
      · exact (hw.guarded.binary l o r y hm).step_other h.here hl ho
  · by_cases hxn : x = no
    · have hyn : y ≠ no := fun he => hne (hxn.trans he.symm)
      rw [h.view, if_pos hxn] at hx
      rw [h.view, if_neg hyn] at hy
      rw [hxn]
      exact h.settled _ hx y d hy
    · by_cases hyn : y = no
      · rw [h.view, if_neg hxn] at hx
        rw [h.view, if_pos hyn] at hy
        rw [hyn]
        exact (h.settled _ hy x b hx).symm
      · exact (hw.guarded.large r x b y d hx hy hne).step_other h.here hxn hyn

end Visiting

/-! ## What is known meanwhile -/

/-- If the decision of the first level is true, then so is everything on that level. -/
theorem Holds.makesTrue_of_decision {v : Valuation} (h : s.Holds v) (hf : s.Frame) {p : Nat}
    (hw : s.Wired lags p) (hd : s.trail.level = 1 → v.makesTrue (s.trail.decision 1) = true) :
    ∀ i < s.trail.size, s.trail.level ≤ 1 → v.makesTrue (s.trail.at' i) = true := by
  intro i
  induction i using Nat.strongRecOn with
  | ind i ih =>
    intro hi h1
    have hbelow : ∀ m, -m ∈ s.trail.upTo i → v.makesTrue m = false := by
      intro m hm
      obtain ⟨j, hj, hjs, he⟩ := Trail.mem_upTo.1 hm
      have := ih j hj hjs h1
      rw [he, Valuation.makesTrue_negate] at this
      simpa using this
    have hmem := Trail.at'_mem hi
    have hlev := hf.trail.level_le hi
    have hg := hw.grounded i hi
    unfold Grounded at hg
    split at hg
    · obtain ⟨hg1, hg2⟩ := hg
      have hl1 : s.assignment.level (s.trail.at' i) = 1 := by omega
      have hlvl : s.trail.level = 1 := by omega
      have he := (hf.trail.decision 1 (Nat.le_refl _) (by omega)).2.1
      rw [hl1] at hg2
      rw [hg2] at he
      rw [he]
      exact hd hlvl
    · exact h.root _ hmem hg
    · next o he =>
      obtain ⟨m, hm, ht⟩ := h.reasons _ hmem o he
      rcases List.mem_cons.1 hm with rfl | hm
      · exact ht
      · rw [List.mem_singleton.1 hm, hbelow o hg.2.1] at ht
        simp at ht
    · next r he =>
      obtain ⟨-, hr, rest, hlits, hrest⟩ := hg
      obtain ⟨m, hm, ht⟩ := h.large _ hr.2
      rw [hlits] at hm
      rcases List.mem_cons.1 hm with rfl | hm
      · exact ht
      · rw [hbelow m (hrest m hm)] at ht
        simp at ht

/-- Other places of literals and of watches say nothing new. -/
theorem refines_permute (hc : s.store.Chain 0) {st' : Store} {w' : Watches} {o : Nat}
    (hp : Store.Permuted o s.store st') (ho : o ∈ s.store.offsets)
    (hb : ∀ l, (w'.view l).filter Watch.isBinary = (s.watches.view l).filter Watch.isBinary) :
    Refines s { s with store := st', watches := w' } := by
  have hoff := hp.offsets hc ho
  have hsat : ∀ v : Valuation, ∀ o' ∈ s.store.offsets,
      v.Satisfies (st'.lits o') ↔ v.Satisfies (s.store.lits o') := fun v o' ho' =>
    exists_congr fun l => and_congr_left fun _ => hp.mem_lits_iff hc ho ho' l
  have hflags : ∀ o' ∈ s.store.offsets, st'.flagsAt o' = s.store.flagsAt o' := fun _ ho' =>
    hp.flagsAt_eq hp.flags hc ho ho'
  refine ⟨rfl, rfl, rfl, rfl, rfl, rfl, rfl, id, fun v h => ?_, fun v h => ?_⟩
  · refine { h with large := fun o' ho' => ?_, binary := fun l o' r y hm => ?_ }
    · rw [hoff] at ho'
      exact (hsat v o' ho').2 (h.large o' ho')
    · exact h.binary l o' r y ((mem_of_isBinary (hb l)).1 hm)
  · refine { h with large := fun o' ho' hr hg => ?_, binary := fun l o' y hm => ?_ }
    · refine (hsat v o' ho').1 (h.large o' (hoff ▸ ho') ?_ ?_)
      · rw [hflags o' ho', hr]
      · rw [hflags o' ho', hg]
    · exact h.binary l o' y ((mem_of_isBinary (hb l)).2 hm)

theorem propagates_permute (hc : s.store.Chain 0) {st' : Store} {w' : Watches} {o : Nat}
    (hp : Store.Permuted o s.store st') (ho : o ∈ s.store.offsets)
    (hb : ∀ l, (w'.view l).filter Watch.isBinary = (s.watches.view l).filter Watch.isBinary) :
    Propagates s { s with store := st', watches := w' } :=
  ⟨refines_permute hc hp ho hb, leads_permute hc hp ho hb⟩

/-! ## One watch -/

namespace Visiting

variable {b other : Literal} {r : Reference} {st' : Store} {v : Visit}

/-- The clause of a watch that comes next, with its other watched literal. -/
theorem current (h : Visiting lags i no kept (.large b r :: rest) s) :
    s.store.Current r ∧ ∃ other, s.store.Front r.offset other no := by
  have hm : r ∈ ((s.heldBack no (kept ++ .large b r :: rest)).watches.view no).filterMap Watch.ref? := by
    rw [h.view, if_pos rfl]
    exact List.mem_filterMap.2 ⟨.large b r, by simp, rfl⟩
  obtain ⟨hr, h0 | h1⟩ := (h.wired.watched.mem_iff no r).1 hm
  · exact ⟨hr, _, .inr ⟨h0, rfl⟩⟩
  · exact ⟨hr, _, .inl ⟨rfl, h1⟩⟩

/-- Its other watched literal is another one. -/
theorem front_ne (h : Visiting lags i no kept (.large b r :: rest) s) (hw : s.store.Front r.offset other no) :
    other ≠ no :=
  hw.ne (h.wired.store.literalAt_ne h.current.1.2)

/-- No watch that was gone through is on the clause which comes next. -/
theorem kept_ne (h : Visiting lags i no kept (.large b r :: rest) s) {b' : Literal} {r' : Reference}
    (hm : .large b' r' ∈ kept) : s.store.Current r' ∧ r'.offset ≠ r.offset := by
  have hn := h.wired.watched.nodup no
  have hmem := h.wired.watched.mem_iff no r'
  rw [h.view, if_pos rfl] at hn hmem
  rw [List.filterMap_append, List.filterMap_cons_some (by rfl)] at hn
  have hk : r' ∈ kept.filterMap Watch.ref? := List.mem_filterMap.2 ⟨_, hm, rfl⟩
  have hr' := (hmem.1 (by
    rw [List.filterMap_append]
    exact List.mem_append_left _ hk)).1
  refine ⟨hr', fun he => ?_⟩
  have := h.current.1.ext hr' he
  exact (List.nodup_append.1 hn).2.2 r' hk r (List.mem_cons_self ..) this

/-- A clause that is a reason is not changed by a visit. -/
theorem reason_same (h : Visiting lags i no kept (.large b r :: rest) s)
    (hw : s.store.Front r.offset other no)
    (hv : Store.Visited s.assignment no other r.offset s.store v st') (j : Nat)
    (hj : j < s.trail.size) (r' : Reference)
    (hr' : s.assignment.reason (s.trail.at' j) = .large r') (ho : r'.offset = r.offset) :
    st'.lits r.offset = s.store.lits r.offset := by
  have hg : Grounded s.trail s.assignment s.store j := h.wired.grounded j hj
  obtain ⟨-, hcur, rest', hlits, -⟩ := hg.large hr'
  have hfirst : s.store.literalAt r'.offset 0 = s.trail.at' j := by
    have := Store.lits_eq_cons (h.wired.store.hasAt hcur.2).three
    rw [show (s.heldBack no _).store = s.store from rfl, hlits] at this
    exact (List.cons.inj this).1.symm
  have htt : s.val (s.trail.at' j) = .tt := h.frame.val_tt.2 (Trail.at'_mem hj)
  rw [ho] at hfirst
  have hother : s.store.literalAt r.offset 0 = other := by
    rcases hw with ⟨h0, -⟩ | ⟨h0, -⟩
    · exact h0
    · rw [h0] at hfirst
      have := h.val_no
      rw [hfirst, htt] at this
      simp at this
  rw [hv.same hother (by rw [← hother, hfirst]; exact htt)]

/-- What stays guarded when the clause which comes next is visited. -/
theorem settles_visited (h : Visiting lags i no kept (.large b r :: rest) s)
    (hp : Store.Permuted r.offset s.store st') {w : Watch} (hw : w ∈ kept) {w' : Watches}
    (hold : ∀ l d r', r'.offset ≠ r.offset → .large d r' ∈ w'.view l → .large d r' ∈ s.watches.view l) :
    ({ s with store := st', watches := w' } : Solver ε).Settles lags (i + 1) no w := by
  have hs := h.settled w hw
  cases w with
  | binary o r' y => exact hs
  | large b' r' =>
    obtain ⟨hr', hne⟩ := h.kept_ne hw
    have hc := h.wired.store.chain
    have hr := h.current.1
    intro y d hy
    have hs := hs y d (hold y d r' hne hy)
    simp only
    rwa [hp.flagsAt_other hc hr.2 hr'.2 hne, hp.lits_other hc hr.2 hr'.2 hne]

/-- No clause is pinned after a visit of the one which comes next. -/
theorem clean_visited (h : Visiting lags i no kept (.large b r :: rest) s)
    (hp : Store.Permuted r.offset s.store st') (w' : Watches) : Clean { s with store := st', watches := w' } := by
  have hr := h.current.1
  have hc := h.wired.store.chain
  refine ⟨h.clean.marks, h.clean.records, fun o ho => ?_⟩
  have ho' : o ∈ s.store.offsets := hp.offsets hc hr.2 ▸ ho
  rw [hp.flagsAt_eq hp.flags hc hr.2 ho']
  exact h.clean.unpinned o ho'

/-- The clause of the watch which comes next was visited, and is watched by its first two literals: by the one that it
was watched by before, and by a literal `m` which guards it. -/
theorem rewired (h : Visiting lags i no kept (.large b r :: rest) s) (hw : s.store.Front r.offset other no)
    (hv : Store.Visited s.assignment no other r.offset s.store v st') {m b' : Literal} {w' : Watches}
    {ws' : List Watch} (h1 : st'.literalAt r.offset 1 = m)
    (hwatched : st'.Watched (w'.restore no ws'.toArray).view)
    (hbin : ∀ l, ((w'.restore no ws'.toArray).view l).filter Watch.isBinary =
      ((s.heldBack no (kept ++ .large b r :: rest)).watches.view l).filter Watch.isBinary)
    (hold : ∀ l d r', r'.offset ≠ r.offset → .large d r' ∈ (w'.restore no ws'.toArray).view l →
      .large d r' ∈ (s.heldBack no (kept ++ .large b r :: rest)).watches.view l)
    (hnew : .large b' r ∈ (w'.restore no ws'.toArray).view m)
    (hside : ∀ d, .large d r ∈ (w'.restore no ws'.toArray).view other →
      Guard s.trail s.assignment i (lags ∧ (s.store.flagsAt r.offset).redundant = true) m b' other d
        (s.store.lits r.offset)) :
    Wired lags (heldBack { s with store := st', watches := w' } no ws') i ∧
      Propagates (s.heldBack no (kept ++ .large b r :: rest))
        (heldBack { s with store := st', watches := w' } no ws') := by
  have hr := h.current.1
  have hc := h.wired.store.chain
  have hp := hv.toPermuted
  have hcur := Store.current_iff hp.epoch (hp.offsets hc hr.2)
  have hguard : ∀ r' x b₁ y d, r'.offset = r.offset → .large b₁ r' ∈ (w'.restore no ws'.toArray).view x →
      .large d r' ∈ (w'.restore no ws'.toArray).view y → x ≠ y →
      Guard s.trail s.assignment i (lags ∧ (s.store.flagsAt r.offset).redundant = true) x b₁ y d
        (s.store.lits r.offset) := by
    intro r' x b₁ y d he hx hy hne
    obtain rfl : r' = r := hr.ext ((hcur r').1 (hwatched.current hx)) he
    rcases hwatched.front hx hy hne with ⟨h0, h1'⟩ | ⟨h0, h1'⟩
    · obtain rfl : other = x := hv.first.symm.trans h0
      obtain rfl : m = y := h1.symm.trans h1'
      obtain rfl := hwatched.blocking_unique hy hnew
      exact (hside b₁ hx).symm
    · obtain rfl : other = y := hv.first.symm.trans h0
      obtain rfl : m = x := h1.symm.trans h1'
      obtain rfl := hwatched.blocking_unique hx hnew
      exact hside d hy
  exact ⟨h.wired.permute hp hr.2 hwatched hbin (h.reason_same hw hv) hold hguard,
    propagates_permute (s := s.heldBack no (kept ++ .large b r :: rest)) hc hp hr.2 hbin⟩

/-! ### The watch stays -/

/-- Where the next watch gets another blocking literal, all other watches were there before. -/
theorem mem_reblocked (h : Visiting lags i no kept (.large b r :: rest) s) {b' d l : Literal} {r' : Reference}
    (hm : .large d r' ∈ (s.heldBack no (kept ++ .large b' r :: rest)).watches.view l) :
    .large d r' ∈ (s.heldBack no (kept ++ .large b r :: rest)).watches.view l ∨ d = b' ∧ r' = r := by
  rw [h.view] at hm ⊢
  split at hm
  · next hl =>
    rw [if_pos hl]
    rcases List.mem_append.1 hm with hm | hm
    · exact .inl (List.mem_append_left _ hm)
    · rcases List.mem_cons.1 hm with he | hm
      · exact .inr (Watch.large.inj he)
      · exact .inl (List.mem_append_right _ (List.mem_cons_of_mem _ hm))
  · next hl =>
    rw [if_neg hl]
    exact .inl hm

/-- The clause of the watch which comes next was visited, and stays watched by the same literals. -/
theorem watched_reblocked (h : Visiting lags i no kept (.large b r :: rest) s)
    (hw : s.store.Front r.offset other no) (hp : Store.Permuted r.offset s.store st')
    (hw' : st'.Front r.offset other no) {b' : Literal} (hb : b' = b ∨ b' = other) :
    st'.Watched (s.heldBack no (kept ++ .large b' r :: rest)).watches.view := by
  have hr := h.current.1
  have hc := h.wired.store.chain
  have h3 := (hc.mem hr.2).2.three
  have hview := h.view (kept ++ .large b r :: rest)
  have hview' := h.view (kept ++ .large b' r :: rest)
  refine h.wired.watched.kept (Store.current_iff hp.epoch (hp.offsets hc hr.2)) (fun r' l hr' => ?_)
    (fun r' l hr' hl => (hp.mem_lits_iff hc hr.2 hr'.2 l).2 hl) (fun l => ?_) fun l d r' hm => ?_
  · by_cases he : r'.offset = r.offset
    · rw [he, hw'.literalAt_iff]
      exact (hw.literalAt_iff l).symm
    · have h3' := (hc.mem hr'.2).2.three
      rw [hp.literalAt_other hc hr.2 hr'.2 he (Nat.lt_of_lt_of_le (by decide) h3'),
        hp.literalAt_other hc hr.2 hr'.2 he (Nat.lt_of_lt_of_le (by decide) h3')]
      exact Iff.rfl
  · rw [hview, hview']
    split
    · simp [List.filterMap_append]
    · rfl
  · have hblocking := h.wired.watched.blocking
    rcases h.mem_reblocked hm with hm | ⟨rfl, rfl⟩
    · exact hblocking l d r' hm
    · rcases hb with rfl | rfl
      · exact hblocking no d r' (by rw [hview, if_pos rfl]; simp)
      · exact (hw.mem (Nat.lt_of_lt_of_le (by decide) h3)).1

/-- The clause of the watch which comes next was visited, and its watch stays in the list. -/
theorem stays (h : Visiting lags i no kept (.large b r :: rest) s) (hw : s.store.Front r.offset other no)
    (hv : Store.Visited s.assignment no other r.offset s.store v st')
    (h1 : st'.literalAt r.offset 1 = no) {b' : Literal} (hb : b' = b ∨ b' = other) :
    Visiting lags i no kept (.large b' r :: rest) { s with store := st' } ∧
      Propagates (s.heldBack no (kept ++ .large b r :: rest))
        (heldBack { s with store := st' } no (kept ++ .large b' r :: rest)) := by
  have hp := hv.toPermuted
  have hone := h.front_ne hw
  have hview := h.view (kept ++ .large b r :: rest)
  have hview' := h.view (kept ++ .large b' r :: rest)
  have hbin : ∀ l, ((s.heldBack no (kept ++ .large b' r :: rest)).watches.view l).filter Watch.isBinary =
      ((s.heldBack no (kept ++ .large b r :: rest)).watches.view l).filter Watch.isBinary := fun l => by
    rw [hview, hview']
    split
    · simp [List.filter_append, Watch.isBinary]
    · rfl
  have hmem : .large b r ∈ (s.heldBack no (kept ++ .large b r :: rest)).watches.view no := by
    rw [hview, if_pos rfl]
    simp
  have hnew : .large b' r ∈ (s.heldBack no (kept ++ .large b' r :: rest)).watches.view no := by
    rw [hview', if_pos rfl]
    simp
  have hsame : (s.heldBack no (kept ++ .large b' r :: rest)).watches.view other =
      (s.heldBack no (kept ++ .large b r :: rest)).watches.view other := by
    rw [hview, hview', if_neg hone, if_neg hone]
  obtain ⟨hwired, hprop⟩ := h.rewired hw hv h1 (h.watched_reblocked hw hp (.inl ⟨hv.first, h1⟩) hb) hbin
    (fun l d r' hne hm => (h.mem_reblocked hm).resolve_right fun he => hne (congrArg Reference.offset he.2)) hnew
    fun d hd => by
      have hother : .large d r ∈ (s.heldBack no (kept ++ .large b r :: rest)).watches.view other := hsame ▸ hd
      exact (h.wired.guarded.large r no b other d hmem hother hone.symm).reblock h.not_fallen hb
  exact ⟨{ h with
    frame := { h.frame with }
    clean := h.clean_visited hp s.watches
    wired := hwired
    settled := fun w hw' => h.settles_visited hp hw' fun _ _ _ _ hm => hm }, hprop⟩

/-! ### The watch moves -/

/-- The lists once the watch which comes next has moved to the list of `m`. -/
theorem view_moved (h : Visiting lags i no kept (.large b r :: rest) s) (other : Literal) {m : Literal}
    (hm : m.code < s.watches.lists.size) (hmno : m ≠ no) (l : Literal) :
    ((s.watches.add m (.large other r)).restore no (kept ++ rest).toArray).view l =
      if l = no then kept ++ rest
      else if l = m then (s.heldBack no (kept ++ .large b r :: rest)).watches.view l ++ [.large other r]
      else (s.heldBack no (kept ++ .large b r :: rest)).watches.view l := by
  rw [Watches.view_restore _ (by rw [Watches.size_add]; exact h.code_lt), Watches.view_add _ hm, h.view]
  by_cases hl : l = no
  · subst hl
    rw [if_pos rfl, if_pos rfl, if_neg (Ne.symm hmno), h.empty, List.append_nil]
  · rw [if_neg hl, if_neg hl, if_neg hl]

/-- The watch which comes next has moved to another literal of its clause. -/
theorem moves (h : Visiting lags i no kept (.large b r :: rest) s) (hw : s.store.Front r.offset other no)
    {m : Literal} (hv : Store.Visited s.assignment no other r.offset s.store v st')
    (h1 : st'.literalAt r.offset 1 = m) (hmno : m ≠ no) (hmo : m ≠ other)
    (hm : s.assignment.value m ≠ .ff) :
    Visiting lags i no kept rest
        { s with store := st', watches := s.watches.add m (.large other r) } ∧
      Propagates (s.heldBack no (kept ++ .large b r :: rest))
        (heldBack { s with store := st', watches := s.watches.add m (.large other r) } no
          (kept ++ rest)) := by
  have hr := h.current.1
  have hc := h.wired.store.chain
  have hp := hv.toPermuted
  have hone := h.front_ne hw
  have hmem : m ∈ s.store.lits r.offset := by
    have h3 := (hc.mem hr.2).2.three
    rw [← hp.mem_lits, ← h1]
    exact Store.literalAt_mem (by rw [hp.sizeAt_self]; exact Nat.lt_of_lt_of_le (by decide) h3)
  have hmlt : m.code < s.watches.lists.size :=
    h.frame.code_lt (h.wired.store.usable _ hr.2 m hmem)
  have hview := h.view (kept ++ .large b r :: rest)
  have hview' := h.view_moved other hmlt hmno
  have hno : (s.heldBack no (kept ++ .large b r :: rest)).watches.view no = kept ++ .large b r :: rest := by
    rw [hview, if_pos rfl]
  have hwatched := h.wired.watched.moved hno hview' (fun o ho => h.wired.store.literalAt_ne ho) hc hr hp hw
    hv.first h1 hmno hmo
  have hnew : .large other r ∈ ((s.watches.add m (.large other r)).restore no (kept ++ rest).toArray).view m := by
    rw [hview', if_neg hmno, if_pos rfl]
    simp
  obtain ⟨hwired, hprop⟩ := h.rewired hw hv h1 hwatched (Store.Watched.isBinary_moved hno hview')
    (fun l d r' hne hd => (Store.Watched.mem_of_moved hno hview' hd).resolve_right fun he =>
      hne (congrArg Reference.offset he.2)) hnew
    fun d hd => by
      rw [hview', if_neg hone, if_neg hmo.symm] at hd
      exact (h.wired.guarded.large r no b other d (by rw [hno]; simp) hd hone.symm).moved h.val_no
        (fun hf => hm (h.frame.val_ff.2 (Trail.mem_of_mem_upTo hf))) hm hmem hmno
  have hadd : ∀ l d r', r'.offset ≠ r.offset → .large d r' ∈ (s.watches.add m (.large other r)).view l →
      .large d r' ∈ s.watches.view l := by
    intro l d r' hne hd
    rw [Watches.view_add _ hmlt] at hd
    split at hd
    · rcases List.mem_append.1 hd with hd | hd
      · exact hd
      · exact absurd (congrArg Reference.offset (Watch.large.inj (List.mem_singleton.1 hd)).2) hne
    · exact hd
  exact ⟨{ h with
    frame := { h.frame with lists := by rw [Watches.size_add]; exact h.frame.lists }
    clean := h.clean_visited hp _
    wired := hwired
    empty := by
      rw [Watches.view_add _ hmlt, if_neg (Ne.symm hmno)]
      exact h.empty
    settled := fun w hw' => h.settles_visited hp hw' hadd }, hprop⟩

end Visiting

end Solver

end ClauseLearning

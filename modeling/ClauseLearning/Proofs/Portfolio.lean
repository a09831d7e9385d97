import ClauseLearning.Portfolio.Outcome
import ClauseLearning.Proofs.Model
import ClauseLearning.Proofs.Sharing

/-!
# Portfolios are sound

Whatever the engines of a portfolio and its sharer do, and in whatever order, every clause on its way between them is
entailed by the formula.  An engine that eliminated a variable has lost clauses, but it knows only what is entailed;
so what it hands out is entailed, and what it takes over from others is a consequence of the formula it began with.
Therefore each answer is right, and no two of them are opposite.

* `Contract.endpoint` — the queues of an engine, as a model of the formula sees them.
* `Engine.Sound` — what is so of an engine, by how far it has come.
* `Engine.Good.start`, `Engine.Good.pass` — an engine works.
* `Team.Sound`, `Team.Sound.act` — one action of a team.
* `Team.run_sound` — every run of a portfolio.
-/

namespace ClauseLearning

open Solver

/-! ## The queues of an engine -/

/-- A valuation that satisfies a clause satisfies what it says if it is handed in. -/
theorem Numbering.satisfies_toClause {v : Valuation} {c : List Int} (h : v.Satisfies (c.map toLiteral)) :
    v.Satisfies (toClause c) := by
  unfold toClause
  split
  · cases hv : v 0 with
    | true => exact ⟨.make 0 true, by simp, by simp [Valuation.makesTrue, hv]⟩
    | false => exact ⟨.make 0 false, by simp, by simp [Valuation.makesTrue, hv]⟩
  · exact h

/-- All clauses in the queues are satisfied. -/
def Contract.endpoint (v : Valuation) : Contract Endpoint.hooks v where
  trusts _ := True
  sound e := ∀ c ∈ e.held, v.Satisfies (c.map Numbering.toLiteral)
  terminate f hf := by simp [Endpoint.hooks] at hf
  exportClause f hf ls glue e he hsat := by
    obtain rfl := Option.some.inj hf
    refine ⟨fun c hc => ?_, id⟩
    rcases Endpoint.mem_held_offer hc with hc | rfl
    · exact he c hc
    · exact hsat trivial
  units src hsrc e he := by
    obtain rfl := Option.some.inj hsrc
    refine ⟨fun c hc => he c (Endpoint.mem_held_nextUnit (u := 0) (.inr hc)), fun _ => ⟨trivial, fun u hu => ?_⟩⟩
    exact Numbering.satisfies_toClause (he [u] (Endpoint.mem_held_nextUnit (.inl ⟨hu, rfl⟩)))
  clauses src hsrc e he := by
    obtain rfl := Option.some.inj hsrc
    refine ⟨fun c hc => he c (Endpoint.mem_held_nextClause (x := default) (.inr hc)),
      fun _ => ⟨trivial, fun x hx => ?_⟩⟩
    exact Numbering.satisfies_toClause (he x.literals (Endpoint.mem_held_nextClause (.inl ⟨hx, rfl⟩)))

variable {F : List (List Literal)} {clauses : List (List Int)}

/-- The clauses of some external literals are entailed by a formula. -/
def EntailsAll (F : List (List Literal)) (cs : List (List Int)) : Prop :=
  ∀ c ∈ cs, Entails F (c.map Numbering.toLiteral)

/-! ## Engines -/

/-- A list of external literals is a model of clauses on `n` variables: there is a literal for each variable, and one of
each clause. -/
structure IsModel (clauses : List (List Int)) (n : Nat) (m : List Int) : Prop where
  /-- Each variable from one to `n` has a literal. -/
  covers : m.map Int.natAbs = (List.range n).map (· + 1)
  /-- These are all variables of the clauses. -/
  known : ∀ c ∈ clauses, ∀ e ∈ c, e.natAbs ∈ m.map Int.natAbs
  /-- Each clause has a literal. -/
  satisfied : ∀ c ∈ clauses, ∃ e ∈ c, e ∈ m

/-- Clauses that have a model are satisfiable. -/
theorem IsModel.satisfiable {n : Nat} {m : List Int} (h : IsModel clauses n m) :
    Satisfiable (clauses.map (List.map Numbering.toLiteral)) := by
  refine ⟨fun x => decide ((x : Int) + 1 ∈ m), fun c hc => ?_⟩
  obtain ⟨c, hcm, rfl⟩ := List.mem_map.1 hc
  obtain ⟨e, he, hm⟩ := h.satisfied c hcm
  refine ⟨_, List.mem_map_of_mem he, ?_⟩
  have hnodup : (m.map Int.natAbs).Nodup := by
    rw [h.covers]
    exact List.nodup_range.map fun a b hab => by simpa using hab
  have hpos : 1 ≤ e.natAbs := by
    have := List.mem_map_of_mem (f := Int.natAbs) hm
    rw [h.covers] at this
    obtain ⟨i, -, hi⟩ := List.mem_map.1 this
    omega
  have hx : ((e.natAbs - 1 : Nat) : Int) + 1 = e.natAbs := by omega
  simp only [Valuation.makesTrue, Numbering.toLiteral, Literal.var_make, Literal.positive_make, hx]
  rcases Int.natAbs_eq e with hp | hn
  · rw [← hp]
    simp [hm, show 0 < e by omega]
  · have hnot : (e.natAbs : Int) ∉ m := fun hmem => by
      have := List.inj_on_of_nodup_map hnodup hmem hm (Int.natAbs_natCast _)
      omega
    simp only [decide_eq_false hnot, decide_eq_false (show ¬ 0 < e by omega), beq_self_eq_true]

namespace Engine

/-- What is so of the solver of an engine that searches: it knows what is entailed, and lost nothing but what is on its
extension stack. -/
structure Searching (clauses : List (List Int)) (s : Solver Endpoint) : Prop where
  /-- The invariant. -/
  live : s.Live True
  /-- The outside is an endpoint. -/
  hooks : s.hooks = Endpoint.hooks
  /-- What is known. -/
  holds : ∀ v : Valuation, v.Models (clauses.map (List.map Numbering.toLiteral)) → s.Holds v
  /-- The clause learnt last. -/
  learned : ∀ v : Valuation, v.Models (clauses.map (List.map Numbering.toLiteral)) →
    s.learned = #[] ∨ v.Satisfies s.learned.toList
  /-- The solver came from one to which the clauses were added. -/
  grows : ∃ s₀ : Solver Endpoint, s₀.Loaded True (clauses.map (List.map Numbering.toLiteral)) ∧ Grows s₀ s
  /-- The literals of the clauses were checked. -/
  checked : ∀ c ∈ clauses, ∀ e ∈ c, Numbering.check e = .ok ()

/-- What is so of an engine, by how far it has come. -/
def Sound (clauses : List (List Int)) (e : Engine) : Prop :=
  match e.stage with
  | .waiting => ∃ C stopped, e.solver = fresh C Endpoint.hooks {} stopped e.solver.outside
  | .searching => Searching clauses e.solver
  | .done .satisfiable => ∃ m, e.model? = some m ∧ IsModel clauses e.solver.numbering.size m
  | .done .unsatisfiable => ¬ Satisfiable (clauses.map (List.map Numbering.toLiteral))
  | .done .unknown => True
  | .failed _ => True

variable {e : Engine} {s s₀ : Solver Endpoint}

/-- Neither the queues nor a request to stop matter to that. -/
theorem Sound.set (h : e.Sound clauses) (outside : Endpoint) (stopped : Bool) :
    Sound clauses { e with solver := { e.solver with outside, stopped } } := by
  obtain ⟨s, stage⟩ := e
  match stage with
  | .waiting =>
    obtain ⟨C, _, he⟩ := h
    exact ⟨C, stopped, by rw [he]; rfl⟩
  | .searching =>
    have h : Searching clauses s := h
    obtain ⟨s₀, h₀, hg⟩ := h.grows
    obtain ⟨ws, hstack, hk, hb⟩ := hg.stack
    exact {
      live := ⟨{ h.live.inv with
        toFrame := { h.live.inv.toFrame with }
        toWired := { h.live.inv.toWired with }
        toClean := { h.live.inv.toClean with } }, h.live.consistent⟩
      hooks := h.hooks
      holds := fun v hv => { h.holds v hv with }
      learned := h.learned
      grows := ⟨s₀, h₀, { hg with stack := ⟨ws, hstack, hk, fun v hv => hb v { hv with }⟩ }⟩
      checked := h.checked }
  | .done .satisfiable => exact h
  | .done .unsatisfiable => exact h
  | .done .unknown => trivial
  | .failed _ => trivial

/-- An engine that searches keeps the contract of every model, if all that is in its queues is entailed. -/
theorem Searching.told (h : Searching clauses s)
    (hheld : EntailsAll (clauses.map (List.map Numbering.toLiteral)) s.outside.held) {v : Valuation}
    (hv : v.Models (clauses.map (List.map Numbering.toLiteral))) : Told (Contract.endpoint v) s :=
  ⟨h.hooks, fun c hc => hheld c hc v hv, fun _ => h.holds v hv, fun _ => h.learned v hv⟩

/-- What holds after a part of a solve, by the engine that it leaves behind. -/
theorem of_ends {x : SolverM Endpoint (Option Report)} {P : Engine → Prop}
    (h : Ends x s (fun report s' => P { solver := s', stage := report.elim .searching .done })
      fun fault s' => P { solver := s', stage := .failed fault }) : P (after x s) := by
  unfold after
  unfold Ends at h
  cases hx : x s with
  | ok report s' =>
    rw [hx] at h
    cases report with
    | none => exact h
    | some r => exact h
  | error fault s' =>
    rw [hx] at h
    exact h

/-- What an engine is to be after each of its steps: it is sound, and all that is in its queues is entailed. -/
def Good (clauses : List (List Int)) (e : Engine) : Prop :=
  e.Sound clauses ∧ EntailsAll (clauses.map (List.map Numbering.toLiteral)) e.solver.outside.held

theorem held_of_told (h : ∀ v : Valuation, v.Models F → Told (Contract.endpoint v) s) : EntailsAll F s.outside.held :=
  fun c hc v hv => (h v hv).sound c hc

/-- An engine is good after a fault if its solver kept its contracts. -/
theorem good_failed (h : ∀ v : Valuation, v.Models (clauses.map (List.map Numbering.toLiteral)) →
    Told (Contract.endpoint v) s) (fault : Fault) : Good clauses { solver := s, stage := .failed fault } :=
  ⟨trivial, held_of_told h⟩

/-- The literals of a model. -/
theorem model?_of_answers {v : Valuation} (h : s.Answers v) :
    model? { solver := s, stage := .done .satisfiable } = some ((List.range s.numbering.size).map fun (i : Nat) =>
      if v.makesTrue (Numbering.toLiteral (i + 1)) then (i + 1 : Int) else -(i + 1)) := by
  have hmap : ∀ is : List Nat, (∀ i ∈ is, i < s.numbering.size) →
      (is.mapM fun (i : Nat) => (s.value? (i + 1)).map fun b => if b = some false then -(i + 1 : Int) else i + 1) =
        .ok (is.map fun (i : Nat) =>
          if v.makesTrue (Numbering.toLiteral (i + 1)) then (i + 1 : Int) else -(i + 1)) := by
    intro is his
    induction is with
    | nil => rfl
    | cons i is ih =>
      have hi := his i (List.mem_cons_self ..)
      rw [List.mapM_cons, ih fun j hj => his j (List.mem_cons_of_mem _ hj),
        h.value? (Numbering.knows_iff.2 ⟨by omega, by omega⟩), List.map_cons]
      cases v.makesTrue (Numbering.toLiteral (i + 1)) <;> rfl
  simp only [model?, modelLiterals]
  rw [hmap _ fun i hi => List.mem_range.1 hi]
  rfl

/-- They are a model of the clauses if the valuation satisfies these. -/
theorem isModel_of_models {v : Valuation} {n : Nat} (hv : v.Models (clauses.map (List.map Numbering.toLiteral)))
    (hk : ∀ c ∈ clauses, ∀ e ∈ c, e ≠ 0 ∧ e.natAbs ≤ n) :
    IsModel clauses n ((List.range n).map fun (i : Nat) =>
      if v.makesTrue (Numbering.toLiteral (i + 1)) then (i + 1 : Int) else -(i + 1)) := by
  have hvars : ((List.range n).map fun (i : Nat) =>
      if v.makesTrue (Numbering.toLiteral (i + 1)) then (i + 1 : Int) else -(i + 1)).map Int.natAbs =
        (List.range n).map (· + 1) := by
    rw [List.map_map]
    refine List.map_congr_left fun i _ => ?_
    simp only [Function.comp_apply]
    split <;> omega
  refine ⟨hvars, fun c hc e he => ?_, fun c hc => ?_⟩
  · obtain ⟨h0, hle⟩ := hk c hc e he
    rw [hvars]
    exact List.mem_map.2 ⟨e.natAbs - 1, List.mem_range.2 (by omega), by omega⟩
  · obtain ⟨l, hl, ht⟩ := hv _ (List.mem_map_of_mem hc)
    obtain ⟨e, he, rfl⟩ := List.mem_map.1 hl
    obtain ⟨h0, hle⟩ := hk c hc e he
    refine ⟨e, he, List.mem_map.2 ⟨e.natAbs - 1, List.mem_range.2 (by omega), ?_⟩⟩
    have hi : ((e.natAbs - 1 : Nat) : Int) + 1 = e.natAbs := by omega
    rw [hi]
    rcases Int.natAbs_eq e with hpos | hneg
    · rw [← hpos, if_pos ht]
    · have hne : (e.natAbs : Int) = -e := by omega
      rw [hne, v.makesTrue_neg h0, ht]
      simp

/-- An engine that ends with a report is good. -/
theorem good_done {report : Report} (h₀ : s₀.Loaded True (clauses.map (List.map Numbering.toLiteral)))
    (hg : Grows s₀ s) (hc : ∀ c ∈ clauses, ∀ e ∈ c, Numbering.check e = .ok ()) (ha : After True (some report) s)
    (ht : ∀ v : Valuation, v.Models (clauses.map (List.map Numbering.toLiteral)) → Told (Contract.endpoint v) s) :
    Good clauses { solver := conclude report s, stage := .done report } := by
  refine ⟨?_, ?_⟩
  · cases report with
    | satisfiable =>
      obtain ⟨v, hans, hv⟩ := h₀.conclude_answers hg ha.1 ha.2
      refine ⟨_, model?_of_answers hans, isModel_of_models hv fun c hcm e he => ?_⟩
      have h0 := (Numbering.check_ok (hc c hcm e he)).1
      have hsize : (conclude .satisfiable s).numbering.size = s₀.numbering.size := hg.size
      have hknown := h₀.known _ (List.mem_map_of_mem hcm) _ (List.mem_map_of_mem he)
      rw [Numbering.toLiteral, Literal.var_make] at hknown
      rw [hsize]
      exact ⟨h0, by omega⟩
    | unsatisfiable =>
      rintro ⟨v, hv⟩
      have := ((ht v hv).holds trivial).consistent
      rw [ha.2] at this
      exact Bool.noConfusion this
    | unknown => trivial
  · have hout : (conclude report s).outside = s.outside := by
      unfold conclude
      split <;> rfl
    rw [hout]
    exact held_of_told ht

/-- A pass of an engine that searches. -/
theorem good_pass (h : Searching clauses s)
    (hheld : EntailsAll (clauses.map (List.map Numbering.toLiteral)) s.outside.held) :
    Good clauses (pass { solver := s, stage := .searching }) := by
  obtain ⟨s₀, h₀, hg⟩ := h.grows
  have htold : ∀ {s'}, Advances s s' → ∀ v : Valuation,
      v.Models (clauses.map (List.map Numbering.toLiteral)) → Told (Contract.endpoint v) s' :=
    fun hadv v hv => hadv.told _ (h.told hheld hv)
  refine of_ends (ends_ending.2 ((goes_pass trivial h.live).imp (fun report s' h' => ?_) fun fault s' h' => ?_))
  · obtain ⟨ha, hadv⟩ := h'
    have hg' := hg.trans hadv.evolves.toGrows
    cases report with
    | none =>
      exact ⟨{
        live := ha
        hooks := hadv.hooks.trans h.hooks
        holds := fun v hv => (htold hadv v hv).holds trivial
        learned := fun v hv => (htold hadv v hv).learned trivial
        grows := ⟨s₀, h₀, hg'⟩
        checked := h.checked }, held_of_told (htold hadv)⟩
    | some report => exact good_done h₀ hg' h.checked ha (htold hadv)
  · exact good_failed (fun v hv => (evolves_status s' .unknown).told _ (htold h'.2.2 v hv)) fault

/-- An engine that waits begins. -/
theorem good_start {C : Settings} {stopped : Bool} {outside : Endpoint}
    (hheld : EntailsAll (clauses.map (List.map Numbering.toLiteral)) outside.held) :
    Good clauses (after (begin clauses) (fresh C Endpoint.hooks {} stopped outside)) := by
  have hfresh : (fresh C Endpoint.hooks {} stopped outside).Loaded True [] :=
    (loaded_ofSettings C outside).configure Endpoint.hooks {} stopped
  refine of_ends ?_
  unfold begin
  simp only [ends_bind]
  refine (hfresh.ends_addClauses clauses).imp (fun _ s₀ h₀ => ?_) fun fault s₀ hout => ?_
  swap
  · refine ⟨trivial, ?_⟩
    simp only
    rw [hout]
    exact hheld
  obtain ⟨h₀, hp, hapart, hchecked⟩ := h₀
  rw [List.nil_append] at h₀
  have htold₀ : ∀ v : Valuation, v.Models (clauses.map (List.map Numbering.toLiteral)) →
      Told (Contract.endpoint v) s₀ := fun v hv =>
    ⟨hapart.hooks, fun c hc => hheld c (by rw [hapart.outside] at hc; exact hc) v hv, fun _ => h₀.holds v hv,
      fun _ => .inl h₀.learned⟩
  refine h₀.ends_startSolve.imp (fun report s h => ?_) fun fault s h => ?_
  · obtain ⟨-, hc, -⟩ := h
    cases report with
    | none =>
      obtain ⟨hl, hev⟩ := hc
      have htold := fun v hv => hev.told _ (htold₀ v hv)
      exact ⟨{
        live := hl
        hooks := hev.hooks.trans hapart.hooks
        holds := fun v hv => (htold v hv).holds trivial
        learned := fun v hv => (htold v hv).learned trivial
        grows := ⟨s₀, h₀, hev.toGrows⟩
        checked := hchecked }, held_of_told htold⟩
    | some report =>
      obtain ⟨s₁, ha, hev, rfl⟩ := hc
      exact good_done h₀ hev.toGrows hchecked ha fun v hv => hev.told _ (htold₀ v hv)
  · obtain ⟨-, -, rfl⟩ := h
    exact good_failed htold₀ fault

/-- An engine that begins, or does not wait. -/
theorem Good.start (h : e.Good clauses) : (e.start clauses).Good clauses := by
  obtain ⟨s, stage⟩ := e
  match stage with
  | .waiting =>
    obtain ⟨⟨C, stopped, he⟩, hheld⟩ := h
    have he : s = fresh C Endpoint.hooks {} stopped s.outside := he
    simp only [Engine.start]
    rw [he]
    exact good_start hheld
  | .searching => exact h
  | .done _ => exact h
  | .failed _ => exact h

/-- An engine that does a pass, or does not search. -/
theorem Good.pass (h : e.Good clauses) : e.pass.Good clauses := by
  obtain ⟨s, stage⟩ := e
  match stage with
  | .waiting => exact h
  | .searching => exact good_pass h.1 h.2
  | .done _ => exact h
  | .failed _ => exact h

/-- An engine that is asked to stop. -/
theorem Good.interrupt (h : e.Good clauses) : e.interrupt.Good clauses :=
  ⟨h.1.set e.solver.outside true, h.2⟩

end Engine

/-! ## Teams -/

namespace Team

/-- The external literals of all clauses that are held: in the queues between engines and the sharer, in its pool, and
among its deliveries. -/
def held (t : Team) : List (List Int) := Exchange.held Engine.endpoint t

/-- What is so of a team at any time: all clauses that are held are entailed, and its engines are sound. -/
structure Sound (clauses : List (List Int)) (t : Team) : Prop where
  /-- The clauses that are held. -/
  held : EntailsAll (clauses.map (List.map Numbering.toLiteral)) t.held
  /-- The engines. -/
  members : ∀ e ∈ t.members, e.Sound clauses

variable {t : Team}

theorem Sound.good (h : t.Sound clauses) {e : Engine} (he : e ∈ t.members) : e.Good clauses :=
  ⟨h.members e he, fun c hc => h.held c (Exchange.mem_held.2 (.inl ⟨e, he, hc⟩))⟩

/-- One of the engines does something. -/
theorem Sound.modify (h : t.Sound clauses) (i : Nat) {f : Engine → Engine}
    (hf : ∀ e : Engine, e.Good clauses → (f e).Good clauses) : Sound clauses (t.modify i f) where
  held c hc := by
    rcases Exchange.mem_held.1 hc with ⟨e, he, hc⟩ | hc | hc
    · rcases Exchange.mem_modify he with he | ⟨u, hu, rfl⟩
      · exact (h.good he).2 c hc
      · exact (hf u (h.good (Array.mem_of_getElem? hu))).2 c hc
    · exact h.held c (Exchange.mem_held.2 (.inr (.inl hc)))
    · exact h.held c (Exchange.mem_held.2 (.inr (.inr hc)))
  members e he := by
    rcases Exchange.mem_modify he with he | ⟨u, hu, rfl⟩
    · exact h.members e he
    · exact (hf u (h.good (Array.mem_of_getElem? hu))).1

/-- One action. -/
theorem Sound.act (h : t.Sound clauses) (a : Action) : Sound clauses (t.act clauses a) := by
  cases a with
  | start i => exact h.modify i fun _ he => he.start
  | pass i => exact h.modify i fun _ he => he.pass
  | interrupt i =>
    rw [Team.act]
    split
    · exact h.modify i fun _ he => he.interrupt
    · exact h
  | share step =>
    refine ⟨fun c hc => h.held c (Exchange.held_act hc), fun e he => ?_⟩
    rcases Exchange.mem_act he with he | ⟨u, hu, endpoint, rfl⟩
    · exact h.members e he
    · exact (h.members u hu).set endpoint u.solver.stopped

/-- Several actions. -/
theorem Sound.run (h : t.Sound clauses) (actions : List Action) : Sound clauses (t.run clauses actions) := by
  induction actions generalizing t with
  | nil => exact h
  | cons a actions ih => exact ih (h.act a)

/-- The team of a portfolio, before anything has happened. -/
theorem sound_team (p : Portfolio) (clauses : List (List Int)) : p.team.Sound clauses := by
  have hmem : ∀ e ∈ p.team.members, ∃ C i, e = Engine.ofSettings C { id := i, glueLimit := p.glueLimit } :=
    fun e he => by
      simp only [Portfolio.team, List.mem_toArray, List.mem_map] at he
      obtain ⟨⟨C, i⟩, -, rfl⟩ := he
      exact ⟨C, i, rfl⟩
  refine ⟨fun c hc => ?_, fun e he => ?_⟩
  · rcases Exchange.mem_held.1 hc with ⟨e, he, hc⟩ | ⟨x, hx, -⟩ | ⟨d, hd, -⟩
    · obtain ⟨C, i, rfl⟩ := hmem e he
      rw [show Engine.endpoint.get (Engine.ofSettings C { id := i, glueLimit := p.glueLimit }) =
        { id := i, glueLimit := p.glueLimit } from rfl] at hc
      simp [Endpoint.mem_held] at hc
    · simp [Portfolio.team, Sharer.ofLimits, Pool.ofMaxSize, Pool.ofBounds, Pool.mem_toList] at hx
    · simp [Portfolio.team] at hd
  · obtain ⟨C, i, rfl⟩ := hmem e he
    exact ⟨C, false, rfl⟩

/-- The answer of a team is that of one of its engines. -/
theorem exists_of_answer? {o : Outcome} (h : t.answer? = some o) : ∃ e ∈ t.members, e.stage = .done o.report ∧
    (o.report = .satisfiable → o.model = e.model?) ∧ (o.report = .satisfiable ∨ o.report = .unsatisfiable) := by
  obtain ⟨⟨e, i⟩, he, ho⟩ := List.exists_of_findSome?_eq_some h
  have hmem : e ∈ t.members := by
    have := (List.mem_zipIdx he).2.2
    rw [this]
    exact Array.mem_toList_iff.1 (List.getElem_mem _)
  obtain ⟨r, hr, rfl⟩ := Option.map_eq_some_iff.1 ho
  refine ⟨e, hmem, ?_⟩
  unfold Engine.answer? at hr
  split at hr
  · next hs =>
    obtain rfl := Option.some.inj hr
    exact ⟨hs, fun _ => by simp, .inl rfl⟩
  · next hs =>
    obtain rfl := Option.some.inj hr
    exact ⟨hs, fun h => by simp at h, .inr rfl⟩
  · simp at hr

/-- At any time in any run of a portfolio, all clauses that are held are entailed by the formula.  An engine that ends
with a refutation is right, one that ends with a model has a model, so that no two engines end with opposite answers,
and the outcome is right too. -/
theorem run_sound (p : Portfolio) (clauses : List (List Int)) (actions : List Action) :
    EntailsAll (clauses.map (List.map Numbering.toLiteral)) (p.team.run clauses actions).held ∧
    (∀ e ∈ (p.team.run clauses actions).members, e.stage = .done .unsatisfiable →
      ¬ Satisfiable (clauses.map (List.map Numbering.toLiteral))) ∧
    (∀ e ∈ (p.team.run clauses actions).members, e.stage = .done .satisfiable →
      ∃ m, e.model? = some m ∧ IsModel clauses e.solver.numbering.size m) ∧
    (∀ e ∈ (p.team.run clauses actions).members, ∀ e' ∈ (p.team.run clauses actions).members,
      ¬ (e.stage = .done .satisfiable ∧ e'.stage = .done .unsatisfiable)) ∧
    ∀ o, (p.team.run clauses actions).outcome = .ok o →
      (o.report = .unsatisfiable → ¬ Satisfiable (clauses.map (List.map Numbering.toLiteral))) ∧
      (o.report = .satisfiable → ∃ m n, o.model = some m ∧ IsModel clauses n m) := by
  have hs := (sound_team p clauses).run actions
  generalize p.team.run clauses actions = t at hs ⊢
  have hunsat : ∀ e ∈ t.members, e.stage = .done .unsatisfiable →
      ¬ Satisfiable (clauses.map (List.map Numbering.toLiteral)) := fun e he hst => by
    have := hs.members e he
    rwa [Engine.Sound, hst] at this
  have hsat : ∀ e ∈ t.members, e.stage = .done .satisfiable →
      ∃ m, e.model? = some m ∧ IsModel clauses e.solver.numbering.size m := fun e he hst => by
    have := hs.members e he
    rwa [Engine.Sound, hst] at this
  refine ⟨hs.held, hunsat, hsat, fun e he e' he' ⟨h1, h2⟩ => ?_, fun o ho => ?_⟩
  · obtain ⟨m, -, hm⟩ := hsat e he h1
    exact hunsat e' he' h2 hm.satisfiable
  · unfold outcome at ho
    split at ho
    · next o' _ ha =>
      obtain rfl := Except.ok.inj ho
      obtain ⟨e, he, hst, hmodel, -⟩ := exists_of_answer? ha
      refine ⟨fun hr => hunsat e he (hr ▸ hst), fun hr => ?_⟩
      obtain ⟨m, hm, hmod⟩ := hsat e he (hr ▸ hst)
      exact ⟨m, _, (hmodel hr).trans hm, hmod⟩
    · simp at ho
    · obtain rfl := Except.ok.inj ho
      simp

/-- Two engines, of which the second eliminates pure literals. -/
def pair : Portfolio := { settings := [{}, { preprocessing := .switch true }] }

/-- Four clauses, which have no model. -/
def fourClauses : List (List Int) := [[1, 2], [1, -2], [-1, 2], [-1, -2]]

/-- The first engine learns a unit, which is on its way while the engine goes on. -/
def unitOnItsWay : List Action :=
  [.start 0, .start 1, .pass 0, .pass 0, .share (.gather 0), .share .select, .pass 0]

/-- Two engines refute the four clauses, the second of them once it has taken over the unit. -/
theorem run_sound_refutation :
    (pair.team.run fourClauses unitOnItsWay).held = [[-2]] ∧
      Entails (fourClauses.map (List.map Numbering.toLiteral)) [Numbering.toLiteral (-2)] ∧
    (pair.team.run fourClauses (unitOnItsWay ++ [.share .deliver, .pass 1])).members.toList.map Engine.stage =
        [.done .unsatisfiable, .done .unsatisfiable] ∧
      ¬ Satisfiable (fourClauses.map (List.map Numbering.toLiteral)) := by
  have hstages : (pair.team.run fourClauses (unitOnItsWay ++ [.share .deliver, .pass 1])).members.toList.map
      Engine.stage = [.done .unsatisfiable, .done .unsatisfiable] := by decide +kernel
  refine ⟨by decide +kernel, ?_, hstages, ?_⟩
  · exact (run_sound pair fourClauses unitOnItsWay).1 [-2] (by decide +kernel)
  · obtain ⟨e, he, hst⟩ := List.mem_map.1 (hstages ▸ List.mem_cons_self .. :
      Stage.done .unsatisfiable ∈ List.map Engine.stage _)
    exact (run_sound pair fourClauses _).2.1 e (Array.mem_toList_iff.1 he) hst

end Team

end ClauseLearning

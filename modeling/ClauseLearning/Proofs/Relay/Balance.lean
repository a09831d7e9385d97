import ClauseLearning.Proofs.Relay.Conservation
import Mathlib.Data.List.Perm.Basic
import Mathlib.Algebra.BigOperators.Group.List.Basic
import Mathlib.Algebra.GroupWithZero.Nat

/-!
# Where the exported clauses are

What the books of a relay say about it as a whole: which clauses wait, which the sharer holds, how many were dropped,
what was handed to whom and in which order, and that the counts add up.

* `perm_of_filter_isOf` — clauses that are the same for each engine and size are the same.
* `InOrder.sublist` — clauses of one engine and size leave in the order in which they came.
* `sum_countP_isFrom` — clauses are counted engine by engine.
* `Relay.Accounted` — what is known at every moment.
* `Relay.run_accounted` — it is known after everything that engines and the sharer can do.
-/

namespace ClauseLearning

variable {es : Fates} {id k : Nat}

/-! ## From one engine and size to all -/

/-- Clauses that are the same for each engine and size are the same, up to order. -/
theorem perm_of_filter_isOf {l r : List SharedClause}
    (h : ∀ id k, l.filter (·.isOf id k) = r.filter (·.isOf id k)) : l.Perm r := by
  rw [List.perm_iff_count]
  intro c
  rw [← List.count_filter (l := l) c.isOf_self, h, List.count_filter c.isOf_self]

theorem filter_having (f : Fate) (q : SharedClause → Bool) : (having f anyClause es).filter q = having f q es := by
  induction es with
  | nil => rfl
  | cons e es ih =>
    rw [having_cons, having_cons, List.filter_append, ih]
    by_cases hf : e.2 = f <;> by_cases hq : q e.1 = true <;> simp [anyClause, hf, hq]

/-- Every clause has one fate. -/
theorem length_eq_having (es : Fates) : es.length = (having .waiting anyClause es).length +
    (having .taken anyClause es).length + (having .stored anyClause es).length +
    (having .dropped anyClause es).length + (having .distributed anyClause es).length := by
  induction es with
  | nil => rfl
  | cons e es ih =>
    obtain ⟨c, f⟩ := e
    simp only [having_cons, List.length_cons, List.length_append, anyClause, and_true]
    cases f <;> simp <;> omega

/-- Clauses of one engine and size leave in the order in which they were accepted. -/
theorem InOrder.sublist (h : InOrder es) : (having .distributed (·.isOf id k) es ++
    having .stored (·.isOf id k) es).Sublist ((es.map Prod.fst).filter (·.isOf id k)) := by
  induction es with
  | nil => exact .slnil
  | cons e es ih =>
    obtain ⟨c, f⟩ := e
    have ih := ih (List.pairwise_cons.1 h).2
    rw [having_cons, having_cons, List.map_cons]
    by_cases hof : c.isOf id k = true
    · rw [List.filter_cons_of_pos hof]
      cases f with
      | distributed => simpa [hof] using ih
      | stored =>
        -- what was distributed came before what is stored
        obtain ⟨rfl, rfl⟩ : c.source = id ∧ c.size = k := of_decide_eq_true hof
        have hnil : having .distributed (·.isOf c.source c.size) es = [] :=
          InOrder.having_after (l := []) h (by decide) (by decide) (by decide)
        rw [hnil] at ih ⊢
        simpa [hof] using ih
      | waiting => simpa using ih.cons c
      | taken => simpa using ih.cons c
      | dropped => simpa using ih.cons c
    · rw [List.filter_cons_of_neg hof]
      simpa [hof] using ih

/-- The engine of a clause is found as often as it is listed. -/
theorem sum_isFrom (ids : List Nat) (c : SharedClause) :
    (ids.map fun id => if c.isFrom id = true then 1 else 0).sum = ids.count c.source := by
  induction ids with
  | nil => rfl
  | cons id ids ih =>
    rw [List.map_cons, List.sum_cons, ih, List.count_cons, Nat.add_comm]
    by_cases h : c.source = id
    · simp [SharedClause.isFrom, h]
    · simp [SharedClause.isFrom, h, Ne.symm h]

/-- Clauses are counted engine by engine. -/
theorem sum_countP_isFrom {ids : List Nat} (h : ids.Nodup) {cs : List SharedClause} (hcs : ∀ c ∈ cs, c.source ∈ ids) :
    (ids.map fun id => cs.countP (·.isFrom id)).sum = cs.length := by
  induction cs with
  | nil => simp
  | cons c cs ih =>
    simp only [List.countP_cons, List.length_cons, List.sum_map_add]
    rw [ih fun c' hc' => hcs c' (List.mem_cons_of_mem _ hc'), sum_isFrom,
      List.count_eq_one_of_mem h (hcs c (List.mem_cons_self ..))]

namespace Relay

variable {x : Relay} {journal : List Seen} {done : List SharedClause}

/-! ## What is known at every moment -/

/-- The clauses that the sharer has: the one it is about to put into the pool, those it is about to hand out, and the
pool. -/
def held (x : Relay) : List SharedClause := x.hand ++ (x.selected ++ x.sharer.pool.toList)

/-- The clauses that were handed to the port at a position, where `done` were handed to all ports but their own. -/
def handed (x : Relay) (done : List SharedClause) (a : Nat) (p : Port) : List SharedClause :=
  (done ++ x.current a).filter fun c => !c.isFrom p.id

/-- Every clause that was accepted has one fate, its fate is where it is, and what was distributed is what arrives. -/
structure Accounted (x : Relay) (journal : List Seen) (es : Fates) (done : List SharedClause) : Prop where
  /-- Every clause that was accepted for export has one fate. -/
  fates : es.map Prod.fst = acceptedIn journal
  /-- It was exported by one of the engines. -/
  sources : ∀ c ∈ es.map Prod.fst, c.source ∈ x.ports.map Port.id
  /-- The clauses that wait are in the queues of exports. -/
  waiting : ∀ p ∈ x.ports, p.endpoint.exported.toList = having .waiting (·.isFrom p.id) es
  /-- The clauses that were taken or stored are held by the sharer. -/
  held : (having .taken anyClause es ++ having .stored anyClause es).Perm x.held
  /-- The clauses that were dropped are counted. -/
  dropped : x.sharer.dropped = (having .dropped anyClause es).length
  /-- The clauses that were distributed were handed to all ports. -/
  distributed : (having .distributed anyClause es).Perm done
  /-- The clauses with one literal arrive once at every other engine, as units. -/
  units : ∀ a p, x.ports[a]? = some p → journal.filterMap (Seen.unitFor p.id) ++ p.endpoint.units.toList =
    (x.handed done a p).filterMap SharedClause.unit?
  /-- The other clauses arrive once at every other engine, as clauses. -/
  clauses : ∀ a p, x.ports[a]? = some p → journal.filterMap (Seen.clauseFor p.id) ++ p.endpoint.clauses.toList =
    (x.handed done a p).filter fun c => !c.isUnit
  /-- Clauses of one engine and one size arrive in the order in which they were exported. -/
  order : ∀ a p, x.ports[a]? = some p → ∀ id k,
    ((x.handed done a p).filter (·.isOf id k)).Sublist ((acceptedIn journal).filter (·.isOf id k))
  /-- The clauses of an engine that were rejected are counted. -/
  rejected : ∀ p ∈ x.ports, p.endpoint.rejected = journal.countP (Seen.rejects p.id)
  /-- The clauses of an engine that were accepted are counted, or are about to be. -/
  accepted : ∀ p ∈ x.ports, p.endpoint.accepted + p.uncounted = (acceptedIn journal).countP (·.isFrom p.id)
  /-- When nothing is under way, the counts add up. -/
  balance : x.phase = .idle → (∀ p ∈ x.ports, p.uncounted = 0) →
    (x.ports.map fun p => p.endpoint.accepted).sum =
      (x.ports.map fun p => p.endpoint.exported.size).sum + x.sharer.pool.size + x.sharer.dropped + x.sharer.shared

/-- The clauses of some kind are counted port by port. -/
theorem Books.sum_ports (h : Books x journal es done) {cs : List SharedClause}
    (hcs : ∀ c ∈ cs, c ∈ es.map Prod.fst) {count : Port → Nat}
    (hcount : ∀ p ∈ x.ports, count p = cs.countP (·.isFrom p.id)) : (x.ports.map count).sum = cs.length := by
  rw [← sum_countP_isFrom h.ids fun c hc => h.sources c (hcs c hc), List.map_map]
  exact congrArg List.sum (List.map_congr_left hcount)

theorem Books.port (h : Books x journal es done) {p : Port} (hp : p ∈ x.ports) :
    ∃ a, PortBooks journal es (done ++ x.current a) p := by
  obtain ⟨a, ha⟩ := List.mem_iff_getElem?.1 hp
  exact ⟨a, h.ports a p ha⟩

/-- The clauses that were stored are selected, or in the pool. -/
theorem Books.perm_stored (h : Books x journal es done) :
    (having .stored anyClause es).Perm (x.selected ++ x.sharer.pool.toList) :=
  perm_of_filter_isOf fun id k => by rw [filter_having, h.stored]

/-- The clauses that were distributed were handed to all ports. -/
theorem Books.perm_distributed (h : Books x journal es done) : (having .distributed anyClause es).Perm done :=
  perm_of_filter_isOf fun id k => by rw [filter_having, h.distributed]

/-- The clauses that are accepted are those which wait, are held, were dropped, or are handed to all ports. -/
theorem Books.sum_accepted (h : Books x journal es done) :
    (x.ports.map fun p => p.endpoint.accepted + p.uncounted).sum =
      (x.ports.map fun p => p.endpoint.exported.size).sum + x.held.length + x.sharer.dropped + done.length := by
  have hall : (x.ports.map fun p => p.endpoint.accepted + p.uncounted).sum = es.length := by
    rw [h.sum_ports (fun c hc => hc) fun p hp => (h.port hp).choose_spec.accepted, List.length_map]
  have hwaiting : (x.ports.map fun p => p.endpoint.exported.size).sum = (having .waiting anyClause es).length := by
    refine h.sum_ports (fun c hc => List.mem_map_of_mem (mem_having.1 hc).1) fun p hp => ?_
    rw [← Fifo.length_toList, (h.port hp).choose_spec.waiting, List.countP_eq_length_filter, filter_having]
  have hstored := h.perm_stored.length_eq
  have hdistributed := h.perm_distributed.length_eq
  rw [hall, hwaiting, length_eq_having, held, List.length_append, h.dropped, ← hstored, hdistributed, h.hand]
  omega

/-- The clause that is being handed to the ports was selected. -/
theorem current_sublist (x : Relay) (a : Nat) : (x.current a).Sublist x.selected := by
  obtain ⟨ports, s, phase⟩ := x
  rcases phase with _ | _ | _ | ⟨count, _ | ⟨c, cs⟩, n⟩
  case delivering.cons =>
    show (if a < n then [c] else []).Sublist (c :: cs)
    split <;> simp
  all_goals exact List.nil_sublist _

/-- What the clauses handed to all ports, and to some of them, have in common with those accepted. -/
theorem Books.handed_sublist (h : Books x journal es done) (a : Nat) (p : Port) :
    ((x.handed done a p).filter (·.isOf id k)).Sublist ((acceptedIn journal).filter (·.isOf id k)) := by
  have hcurrent : (x.current a).Sublist (x.selected ++ x.sharer.pool.toList) :=
    (x.current_sublist a).trans (List.sublist_append_left ..)
  have hsub : ((done ++ x.current a).filter (·.isOf id k)).Sublist
      (having .distributed (·.isOf id k) es ++ having .stored (·.isOf id k) es) := by
    rw [h.distributed, h.stored, List.filter_append]
    exact (List.Sublist.refl _).append (hcurrent.filter _)
  rw [← h.fates]
  exact ((List.filter_sublist.filter _).trans hsub).trans h.order.sublist

/-- What the books say of the whole. -/
theorem Books.accounted (h : Books x journal es done) : Accounted x journal es done where
  fates := h.fates
  sources := h.sources
  waiting p hp := (h.port hp).choose_spec.waiting
  held := by
    rw [h.hand]
    exact h.perm_stored.append_left x.hand
  dropped := h.dropped
  distributed := h.perm_distributed
  units a p hp := (h.ports a p hp).units
  clauses a p hp := (h.ports a p hp).clauses
  order a p _ _ _ := h.handed_sublist a p
  rejected p hp := (h.port hp).choose_spec.rejected
  accepted p hp := by
    rw [← h.fates]
    exact (h.port hp).choose_spec.accepted
  balance hidle hcounted := by
    have hsum := h.sum_accepted
    have hshared := h.shared
    have hcount : (x.ports.map fun p => p.endpoint.accepted + p.uncounted) = x.ports.map fun p => p.endpoint.accepted :=
      List.map_congr_left fun p hp => by rw [hcounted p hp, Nat.add_zero]
    simp only [Relay.held, Relay.hand, selected, pending, hidle, List.nil_append, List.length_nil, Nat.add_zero]
      at hsum hshared
    rw [hcount, ← Pool.size_eq] at hsum
    rw [hsum, hshared]

/-- Whatever the engines and the sharer do, in whatever order, every clause that was accepted for export is accounted
for: it waits, is held, was dropped or was distributed, and what was distributed arrives once at every other engine,
and never at its own. -/
theorem run_accounted {members : List (Nat × Nat)} (h : (members.map Prod.fst).Nodup) (maxSize literalLimit : Nat)
    (actions : List Action) :
    ∃ es done, Accounted ((start members maxSize literalLimit).run actions).2
      ((start members maxSize literalLimit).run actions).1 es done := by
  obtain ⟨es, done, hbooks⟩ := (books_start h maxSize literalLimit).run actions
  exact ⟨es, done, hbooks.accounted⟩

/-- Two engines that export and import while a round is under way: one clause is rejected, one is dropped, two are
distributed, and one was exported too late for the round. -/
def twoEngines : List Action :=
  [.offer 0 [3, -5] 2, .offer 0 [3, 5] 9, .sharer, .count 0, .sharer, .offer 1 [-7] 4, .sharer, .sharer, .count 1,
    .offer 0 [-3, 5] 1, .sharer, .sharer, .offer 1 [1, 2, 3] 5, .sharer, .count 0, .sharer, .sharer, .sharer,
    .sharer, .nextUnit 0, .count 1, .sharer, .sharer, .sharer, .sharer, .nextClause 1, .nextClause 0, .sharer, .sharer]

theorem run_accounted_twoEngines :
    ([1, 4].Nodup) ∧
    (∃ es done, Accounted ((start [(1, 2), (4, 5)] 2 10).run twoEngines).2
      ((start [(1, 2), (4, 5)] 2 10).run twoEngines).1 es done) ∧
    ((start [(1, 2), (4, 5)] 2 10).run twoEngines).2.phase = .idle ∧
    ((start [(1, 2), (4, 5)] 2 10).run twoEngines).2.sharer.shared = 2 ∧
    ((start [(1, 2), (4, 5)] 2 10).run twoEngines).2.sharer.dropped = 1 ∧
    ((start [(1, 2), (4, 5)] 2 10).run twoEngines).2.ports.map (fun p => p.endpoint.exported.size) = [1, 0] :=
  ⟨by decide, run_accounted (by decide) 2 10 twoEngines, by decide +kernel, by decide +kernel, by decide +kernel,
    by decide +kernel⟩

end Relay

end ClauseLearning

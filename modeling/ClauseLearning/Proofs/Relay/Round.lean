import ClauseLearning.Sharing.Relay
import Mathlib.Data.List.Basic

/-!
# Rounds with nothing in between

Where the engines wait while the sharer works, its pieces of work make up a round, and where the sharer waits, the
two halves of an export make up one.

* `Port.offer_count` — the two halves of an export.
* `Relay.Reaches` — what the sharer comes to when the engines wait.
* `Relay.reaches_gatherAll`, `Relay.reaches_distribute` — the two halves of a round.
* `Relay.reaches_round` — a round.
-/

namespace ClauseLearning

/-- A clause that is offered and then counted is exported. -/
theorem Port.offer_count {p : Port} (h : p.uncounted = 0) (literals : List Int) (glue : Nat) :
    ((p.offer literals glue).1, (p.offer literals glue).2.count) =
      ((p.endpoint.offer literals glue).1, { endpoint := (p.endpoint.offer literals glue).2 }) := by
  obtain ⟨e, n⟩ := p
  obtain rfl : n = 0 := h
  by_cases hreject : 1 < literals.length ∧ e.glueLimit < glue <;> simp [offer, count, Endpoint.offer, hreject]

/-- Ports with other endpoints. -/
def Port.withEndpoints (ports : List Port) (es : List Endpoint) : List Port :=
  ports.zipWith (fun p e => { p with endpoint := e }) es

theorem Port.withEndpoints_map (ports : List Port) (es : List Endpoint) (f : Endpoint → Endpoint) :
    withEndpoints ports (es.map f) = (withEndpoints ports es).map fun p => { p with endpoint := f p.endpoint } := by
  rw [withEndpoints, withEndpoints, List.zipWith_map_right, List.map_zipWith]

namespace Relay

/-- One relay becomes another by work of the sharer only. -/
def Reaches (x y : Relay) : Prop := ∃ n, (x.run (List.replicate n .sharer)).2 = y

variable {x y z : Relay} {ports pre post : List Port} {s : Sharer} {c : SharedClause} {k n : Nat}

theorem Reaches.refl (x : Relay) : Reaches x x := ⟨0, rfl⟩

theorem Reaches.of_eq (h : x = y) : Reaches x y := ⟨0, h⟩

theorem Reaches.head (h : Reaches x.sharerStep y) : Reaches x y := by
  obtain ⟨n, rfl⟩ := h
  exact ⟨n + 1, rfl⟩

theorem Reaches.trans (h : Reaches x y) (h' : Reaches y z) : Reaches x z := by
  obtain ⟨n, rfl⟩ := h
  induction n generalizing x with
  | zero => exact h'
  | succ n ih => exact (ih h').head

theorem getElem?_append_cons (pre post : List Port) (p : Port) : (pre ++ p :: post)[pre.length]? = some p := by simp

theorem set_append_cons (pre post : List Port) (p q : Port) :
    (pre ++ p :: post).set pre.length q = pre ++ q :: post := by simp

/-! ## Gathering -/

/-- All that one engine exported is gathered. -/
theorem reaches_gather (p : Port) (s : Sharer) :
    Reaches ⟨pre ++ p :: post, s, .gathering pre.length⟩
      ⟨pre ++ { p with endpoint := (s.gather p.endpoint).2 } :: post, (s.gather p.endpoint).1,
        .gathering (pre.length + 1)⟩ := by
  -- one clause is taken and stored after the other
  induction hlist : p.endpoint.exported.toList generalizing p s with
  | nil =>
    obtain ⟨⟨id, limit, exported, units, clauses, accepted, rejected⟩, uncounted⟩ := p
    obtain rfl : exported = {} := Fifo.eq_empty hlist
    refine .head (.of_eq ?_)
    simp only [sharerStep, getElem?_append_cons]
    rfl
  | cons c cs ih =>
    obtain ⟨hc, hcs⟩ := Fifo.take_of_toList hlist
    have htake : p.endpoint.takeExported =
        (some c, { p.endpoint with exported := p.endpoint.exported.take.2 }) :=
      congrArg (fun o => (o, { p.endpoint with exported := p.endpoint.exported.take.2 })) hc
    have hgather : s.gather p.endpoint =
        (s.receive c).gather { p.endpoint with exported := p.endpoint.exported.take.2 } := by
      rw [Sharer.gather, Sharer.gather, hlist, hcs, List.foldl_cons]
    have hstep : Reaches ⟨pre ++ p :: post, s, .gathering pre.length⟩
        ⟨pre ++ { p with endpoint := { p.endpoint with exported := p.endpoint.exported.take.2 } } :: post, s.receive c,
          .gathering pre.length⟩ := by
      refine .head (.head (.of_eq ?_))
      simp only [sharerStep, getElem?_append_cons, htake, set_append_cons]
    rw [hgather]
    exact hstep.trans (ih _ _ hcs)

/-- All that the engines exported is gathered. -/
theorem reaches_gatherAll (pre post : List Port) (s : Sharer) :
    Reaches ⟨pre ++ post, s, .gathering pre.length⟩
      ⟨pre ++ Port.withEndpoints post (s.gatherAll (post.map Port.endpoint)).2,
        (s.gatherAll (post.map Port.endpoint)).1, .gathering (pre.length + post.length)⟩ := by
  induction post generalizing pre s with
  | nil => exact .refl _
  | cons p post ih =>
    refine (reaches_gather p s).trans ?_
    have h := ih (pre ++ [{ p with endpoint := (s.gather p.endpoint).2 }]) (s.gather p.endpoint).1
    simp only [List.append_assoc, List.singleton_append, List.length_append, List.length_singleton] at h
    rw [List.length_cons, Nat.add_comm post.length, ← Nat.add_assoc]
    exact h

/-! ## Delivering -/

/-- A clause is handed to the ports from a position on. -/
theorem reaches_deliver (pre post : List Port) (s : Sharer) (k : Nat) (c : SharedClause) (cs : List SharedClause) :
    Reaches ⟨pre ++ post, s, .delivering k (c :: cs) pre.length⟩
      ⟨pre ++ post.map fun p => { p with endpoint := Sharer.deliverTo c p.endpoint }, s, .delivering k cs 0⟩ := by
  induction post generalizing pre with
  | nil =>
    refine .head (.of_eq ?_)
    simp [sharerStep]
  | cons p post ih =>
    have h := ih (pre ++ [{ p with endpoint := Sharer.deliverTo c p.endpoint }])
    simp only [List.append_assoc, List.singleton_append, List.length_append, List.length_singleton] at h
    refine Reaches.trans (.head (.of_eq ?_)) h
    simp only [sharerStep, getElem?_append_cons, set_append_cons]

/-- A selection is handed to the ports. -/
theorem reaches_deliverAll (ports : List Port) (s : Sharer) (k : Nat) (cs : List SharedClause) :
    Reaches ⟨ports, s, .delivering k cs 0⟩
      ⟨ports.map fun p => { p with endpoint := cs.foldl (fun e c => Sharer.deliverTo c e) p.endpoint },
        { s with rounds := s.rounds + 1, shared := s.shared + k }, .idle⟩ := by
  induction cs generalizing ports with
  | nil => exact .head (.of_eq (by simp [sharerStep]))
  | cons c cs ih =>
    refine (reaches_deliver [] ports s k c cs).trans ?_
    have h := ih (ports.map fun p => { p with endpoint := Sharer.deliverTo c p.endpoint })
    rw [List.map_map] at h
    exact h

/-- A selection of the pool is handed to the ports. -/
theorem reaches_distribute (ports : List Port) (s : Sharer) (es : List Endpoint)
    (h : (Port.withEndpoints ports es).length ≤ n) :
    Reaches ⟨Port.withEndpoints ports es, s, .gathering n⟩
      ⟨Port.withEndpoints ports (s.distribute es).2.2, (s.distribute es).2.1, .idle⟩ := by
  refine .head ?_
  simp only [sharerStep, List.getElem?_eq_none h]
  have hdeliver := reaches_deliverAll (Port.withEndpoints ports es)
    { s with pool := (s.pool.give s.literalLimit).2 } (s.pool.give s.literalLimit).1.length
    (s.pool.give s.literalLimit).1
  rwa [← Port.withEndpoints_map ports es fun e =>
    (s.pool.give s.literalLimit).1.foldl (fun e c => Sharer.deliverTo c e) e] at hdeliver

/-! ## A round -/

theorem length_gatherAll (s : Sharer) (es : List Endpoint) : (s.gatherAll es).2.length = es.length := by
  induction es generalizing s with
  | nil => rfl
  | cons e es ih => exact congrArg (· + 1) (ih (s.gather e).1)

/-- While the engines wait, the sharer makes a round. -/
theorem reaches_round (ports : List Port) (s : Sharer) :
    Reaches ⟨ports, s, .idle⟩
      ⟨Port.withEndpoints ports (s.round (ports.map Port.endpoint)).2.2, (s.round (ports.map Port.endpoint)).2.1,
        .idle⟩ := by
  have hgather := reaches_gatherAll [] ports s
  rw [List.nil_append, List.nil_append, List.length_nil, Nat.zero_add] at hgather
  have hlength : (Port.withEndpoints ports (s.gatherAll (ports.map Port.endpoint)).2).length = ports.length := by
    rw [Port.withEndpoints, List.length_zipWith, length_gatherAll, List.length_map, Nat.min_self]
  exact .head (hgather.trans (reaches_distribute ports _ _ (Nat.le_of_eq hlength)))

end Relay

end ClauseLearning

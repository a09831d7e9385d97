import ClauseLearning.Proofs.Relay.Pool
import Mathlib.Data.List.Nodup

/-!
# No clause is lost, duplicated or echoed

However the engines and the sharer take turns, every clause that was accepted for export is in one place, or has
gone to one end, and the queues of the engines hold what was handed to all of them but the one it came from.

* `Relay.acceptedIn`, `Relay.Seen.unitFor`, `Relay.Seen.clauseFor` — what engines have seen.
* `Relay.Books` — where every accepted clause is, after some pieces of work.
* `Relay.Acts` — what an engine may do at its port, with `Relay.Books.act`.
* `Relay.Books.sharerStep` — the pieces of a round keep the books.
* `Relay.Books.step`, `Relay.Books.run` — and so does everything that happens.
-/

namespace ClauseLearning

namespace SharedClause

/-- The literal of a unit. -/
def unit? (c : SharedClause) : Option Int :=
  match c.literals with
  | [u] => some u
  | _ => none

/-- Whether a clause has one literal. -/
def isUnit (c : SharedClause) : Bool := c.size = 1

end SharedClause

namespace Relay

/-! ## What was seen -/

namespace Seen

/-- The clause that was accepted for export. -/
def accepted? : Seen → Option SharedClause
  | offered id literals glue true => some { literals, glue, source := id }
  | _ => none

/-- The unit that an engine imported. -/
def unitFor (id : Nat) : Seen → Option Int
  | unit id' u => if id' = id then some u else none
  | _ => none

/-- The clause of another size that an engine imported. -/
def clauseFor (id : Nat) : Seen → Option SharedClause
  | clause id' c => if id' = id then some c else none
  | _ => none

/-- Whether a clause of an engine was rejected. -/
def rejects (id : Nat) : Seen → Bool
  | offered id' _ _ accepted => id' = id ∧ accepted = false
  | _ => false

/-- Whether something was seen by an engine. -/
def isBy (id : Nat) : Seen → Bool
  | offered id' .. => id' = id
  | unit id' _ => id' = id
  | clause id' _ => id' = id

theorem of_isBy_eq_false {id : Nat} {s : Seen} (h : s.isBy id = false) :
    s.unitFor id = none ∧ s.clauseFor id = none ∧ s.rejects id = false := by
  cases s with
  | offered id' literals glue accepted =>
    refine ⟨rfl, rfl, decide_eq_false fun he => ?_⟩
    exact of_decide_eq_false h he.1
  | unit id' u => exact ⟨if_neg (of_decide_eq_false h), rfl, rfl⟩
  | clause id' c => exact ⟨rfl, if_neg (of_decide_eq_false h), rfl⟩

end Seen

/-- The clauses that were accepted for export, in order. -/
def acceptedIn (journal : List Seen) : List SharedClause := journal.filterMap Seen.accepted?

/-! ## The state of a round -/

/-- The clause that was taken from a port and is not in the pool yet. -/
def hand (x : Relay) : List SharedClause :=
  match x.phase with
  | .storing c _ => [c]
  | _ => []

/-- The clauses that were selected, and not yet handed to all ports. -/
def selected (x : Relay) : List SharedClause :=
  match x.phase with
  | .delivering _ selection _ => selection
  | _ => []

/-- The clause that is being handed to the ports, if the one at a position has had its turn. -/
def current (x : Relay) (a : Nat) : List SharedClause :=
  match x.phase with
  | .delivering _ (c :: _) n => if a < n then [c] else []
  | _ => []

/-- How many clauses were selected that are not counted as shared yet. -/
def pending (x : Relay) : Nat :=
  match x.phase with
  | .delivering count _ _ => count
  | _ => 0

/-! ## The books -/

/-- What is known of one port, where `served` was handed to all ports, or to all up to this one. -/
structure PortBooks (journal : List Seen) (es : Fates) (served : List SharedClause) (p : Port) : Prop where
  /-- The exports that wait are in the queue, in order. -/
  waiting : p.endpoint.exported.toList = having .waiting (·.isFrom p.id) es
  /-- The units from other engines were imported, or are in the queue. -/
  units : journal.filterMap (Seen.unitFor p.id) ++ p.endpoint.units.toList =
    (served.filter fun c => !c.isFrom p.id).filterMap SharedClause.unit?
  /-- And so are other clauses. -/
  clauses : journal.filterMap (Seen.clauseFor p.id) ++ p.endpoint.clauses.toList =
    (served.filter fun c => !c.isFrom p.id).filter fun c => !c.isUnit
  /-- How many clauses were rejected. -/
  rejected : p.endpoint.rejected = journal.countP (Seen.rejects p.id)
  /-- How many clauses were accepted. -/
  accepted : p.endpoint.accepted + p.uncounted = (es.map Prod.fst).countP (·.isFrom p.id)

/-- Where every accepted clause is, where `done` are the clauses that were handed to all ports, in order. -/
structure Books (x : Relay) (journal : List Seen) (es : Fates) (done : List SharedClause) : Prop where
  /-- The engines have numbers of their own. -/
  ids : (x.ports.map Port.id).Nodup
  /-- Every accepted clause has a fate. -/
  fates : es.map Prod.fst = acceptedIn journal
  /-- Every clause comes from one of the ports. -/
  sources : ∀ c ∈ es.map Prod.fst, c.source ∈ x.ports.map Port.id
  /-- What is known of each port. -/
  ports : ∀ a p, x.ports[a]? = some p → PortBooks journal es (done ++ x.current a) p
  /-- The clause that was taken last. -/
  hand : having .taken anyClause es = x.hand
  /-- The clauses in the pool, and those selected, in order for each engine and size. -/
  stored : ∀ id k, having .stored (·.isOf id k) es = (x.selected ++ x.sharer.pool.toList).filter (·.isOf id k)
  /-- Clauses that were accepted first have come furthest. -/
  order : InOrder es
  /-- Every clause of the pool is in the bucket for its size. -/
  sorted : x.sharer.pool.Sorted
  /-- How many clauses there was no room for. -/
  dropped : x.sharer.dropped = (having .dropped anyClause es).length
  /-- The clauses handed to all ports, in order for each engine and size. -/
  distributed : ∀ id k, having .distributed (·.isOf id k) es = done.filter (·.isOf id k)
  /-- How many clauses were shared. -/
  shared : x.sharer.shared + x.pending = done.length + x.selected.length

variable {x : Relay} {journal seen : List Seen} {es es' : Fates} {done served : List SharedClause} {p p' : Port}
  {a : Nat} {c : SharedClause}

theorem books_start {members : List (Nat × Nat)} (h : (members.map Prod.fst).Nodup) (maxSize literalLimit : Nat) :
    Books (start members maxSize literalLimit) [] [] [] where
  ids := by
    show ((members.map _).map Port.id).Nodup
    rwa [List.map_map]
  fates := rfl
  sources _ hc := nomatch hc
  ports a p hp := by
    obtain ⟨m, -, rfl⟩ := List.mem_map.1 (List.mem_of_getElem? hp)
    exact ⟨rfl, rfl, rfl, rfl, rfl⟩
  hand := rfl
  stored id k := by
    show [] = ([] ++ (Pool.ofBounds maxSize _).toList).filter _
    rw [Pool.toList_ofBounds]
    rfl
  order := .nil
  sorted := Pool.sorted_ofBounds maxSize _
  dropped := rfl
  distributed _ _ := rfl
  shared := rfl

/-! ## Engines -/

/-- The other ports after a change of one of them. -/
theorem getElem?_set_elim {ports : List Port} {b : Nat} {r : Port} (h : (ports.set a p')[b]? = some r) :
    (b = a ∧ r = p') ∨ (b ≠ a ∧ ports[b]? = some r) := by
  rw [List.getElem?_set] at h
  split at h
  · next hab =>
    split at h
    · exact .inl ⟨hab.symm, (Option.some.inj h).symm⟩
    · cases h
  · next hab => exact .inr ⟨Ne.symm hab, h⟩

/-- Ports at different positions have different numbers. -/
theorem Books.id_ne (h : Books x journal es done) {b : Nat} {r : Port} (hp : x.ports[a]? = some p)
    (hr : x.ports[b]? = some r) (hne : b ≠ a) : r.id ≠ p.id := by
  have hid : ∀ {i : Nat} {q : Port}, x.ports[i]? = some q → (x.ports.map Port.id)[i]? = some q.id := fun hq => by
    rw [List.getElem?_map, hq]
    rfl
  have hlt : ∀ {i j : Nat} {q r : Port}, i < j → x.ports[i]? = some q → x.ports[j]? = some r → q.id ≠ r.id :=
      fun hij hq hr he =>
    List.nodup_iff_getElem?_ne_getElem?.1 h.ids _ _ hij (List.getElem?_eq_some_iff.1 (hid hr)).1
      ((hid hq).trans (he ▸ (hid hr).symm))
  rcases Nat.lt_or_gt_of_ne hne with hba | hab
  · exact hlt hba hr hp
  · exact (hlt hab hp hr).symm

theorem map_id_set {ports : List Port} (hp : ports[a]? = some p) (hid : p'.id = p.id) :
    (ports.set a p').map Port.id = ports.map Port.id := by
  rw [List.map_set, hid]
  obtain ⟨ha, rfl⟩ := List.getElem?_eq_some_iff.1 hp
  have hlt : a < (ports.map Port.id).length := by simpa using ha
  rw [← List.getElem_map Port.id (h := hlt), List.set_getElem_self]

/-- What an engine may do at its port: `seen` is what it sees, and `new` the clauses it exports. -/
structure Acts (p p' : Port) (seen : List Seen) (new : Fates) : Prop where
  /-- The engine is the same. -/
  id : p'.id = p.id
  /-- What is seen is seen by this engine only. -/
  own : ∀ s ∈ seen, ∀ id, id ≠ p.id → s.isBy id = false
  /-- The clauses that are exported wait, and come from this engine. -/
  fresh : ∀ e ∈ new, e.2 = .waiting ∧ e.1.source = p.id
  /-- They were seen to be accepted. -/
  fates : new.map Prod.fst = acceptedIn seen
  /-- They are put into the queue. -/
  waiting : p'.endpoint.exported.toList = p.endpoint.exported.toList ++ new.map Prod.fst
  /-- Units that are imported were first in their queue. -/
  units : seen.filterMap (Seen.unitFor p.id) ++ p'.endpoint.units.toList = p.endpoint.units.toList
  /-- And so were other clauses. -/
  clauses : seen.filterMap (Seen.clauseFor p.id) ++ p'.endpoint.clauses.toList = p.endpoint.clauses.toList
  /-- Clauses that are rejected are counted. -/
  rejected : p'.endpoint.rejected = p.endpoint.rejected + seen.countP (Seen.rejects p.id)
  /-- Clauses that are accepted are counted, or will be. -/
  accepted : p'.endpoint.accepted + p'.uncounted = p.endpoint.accepted + p.uncounted + new.length

theorem acts_offer (p : Port) (literals : List Int) (glue : Nat) :
    ∃ new, Acts p (p.offer literals glue).2 [.offered p.id literals glue (p.offer literals glue).1] new := by
  have hown : ∀ b, ∀ s ∈ [Seen.offered p.id literals glue b], ∀ id, id ≠ p.id → s.isBy id = false := by
    intro b s hs id hne
    rw [List.mem_singleton.1 hs]
    exact decide_eq_false (Ne.symm hne)
  simp only [Port.offer, Endpoint.offer]
  by_cases hreject : 1 < literals.length ∧ p.endpoint.glueLimit < glue
  · simp only [if_pos hreject, Bool.false_eq_true, if_false]
    exact ⟨[], rfl, hown _, fun e he => (nomatch he), rfl, (List.append_nil _).symm, rfl, rfl,
      by simp [Seen.rejects], rfl⟩
  · simp only [if_neg hreject, if_true]
    refine ⟨[(⟨literals, glue, p.id⟩, .waiting)], rfl, hown _, fun e he => ?_, rfl, Fifo.toList_push .., rfl, rfl,
      by simp [Seen.rejects], rfl⟩
    rw [List.mem_singleton.1 he]
    exact ⟨rfl, rfl⟩

theorem acts_count (p : Port) : Acts p p.count [] [] := by
  unfold Port.count
  split
  · exact ⟨rfl, fun s hs => (nomatch hs), fun e he => (nomatch he), rfl, (List.append_nil _).symm, rfl, rfl, rfl, rfl⟩
  · next n hn =>
    refine ⟨rfl, fun s hs => (nomatch hs), fun e he => (nomatch he), rfl, (List.append_nil _).symm, rfl, rfl, rfl, ?_⟩
    show p.endpoint.accepted + 1 + n = p.endpoint.accepted + p.uncounted + 0
    omega

theorem acts_nextUnit {u : Int} {e : Endpoint} (h : p.endpoint.nextUnit = (some u, e)) :
    Acts p { p with endpoint := e } [.unit p.id u] [] := by
  simp only [Endpoint.nextUnit, Prod.mk.injEq] at h
  obtain ⟨hu, rfl⟩ := h
  refine ⟨rfl, fun s hs id hne => ?_, fun e he => (nomatch he), rfl, (List.append_nil _).symm, ?_, rfl, rfl, rfl⟩
  · rw [List.mem_singleton.1 hs]
    exact decide_eq_false (Ne.symm hne)
  · rw [Fifo.toList_take hu]
    simp [Seen.unitFor]

theorem acts_nextClause {e : Endpoint} (h : p.endpoint.nextClause = (some c, e)) :
    Acts p { p with endpoint := e } [.clause p.id c] [] := by
  simp only [Endpoint.nextClause, Prod.mk.injEq] at h
  obtain ⟨hc, rfl⟩ := h
  refine ⟨rfl, fun s hs id hne => ?_, fun e he => (nomatch he), rfl, (List.append_nil _).symm, rfl, ?_, rfl, rfl⟩
  · rw [List.mem_singleton.1 hs]
    exact decide_eq_false (Ne.symm hne)
  · rw [Fifo.toList_take hc]
    simp [Seen.clauseFor]

/-- What is known of a port when more was seen, and more clauses were accepted. -/
theorem PortBooks.extend (h : PortBooks journal es served p) (hid : p'.id = p.id) {new : Fates}
    (hw : p'.endpoint.exported.toList = p.endpoint.exported.toList ++ having .waiting (·.isFrom p.id) new)
    (hu : seen.filterMap (Seen.unitFor p.id) ++ p'.endpoint.units.toList = p.endpoint.units.toList)
    (hc : seen.filterMap (Seen.clauseFor p.id) ++ p'.endpoint.clauses.toList = p.endpoint.clauses.toList)
    (hr : p'.endpoint.rejected = p.endpoint.rejected + seen.countP (Seen.rejects p.id))
    (ha : p'.endpoint.accepted + p'.uncounted =
      p.endpoint.accepted + p.uncounted + (new.map Prod.fst).countP (·.isFrom p.id)) :
    PortBooks (journal ++ seen) (es ++ new) served p' where
  waiting := by rw [hw, h.waiting, hid, having_append]
  units := by rw [hid, List.filterMap_append, List.append_assoc, hu, h.units]
  clauses := by rw [hid, List.filterMap_append, List.append_assoc, hc, h.clauses]
  rejected := by rw [hr, h.rejected, hid, List.countP_append]
  accepted := by rw [ha, h.accepted, hid, List.map_append, List.countP_append]

theorem PortBooks.act (h : PortBooks journal es served p) {new : Fates} (ha : Acts p p' seen new) :
    PortBooks (journal ++ seen) (es ++ new) served p' := by
  have hfrom : ∀ e ∈ new, e.1.isFrom p.id = true := fun e he => decide_eq_true (ha.fresh e he).2
  refine h.extend ha.id ?_ ha.units ha.clauses ha.rejected ?_
  · have hall : new.filter (fun e => decide (e.2 = .waiting ∧ e.1.isFrom p.id)) = new :=
      List.filter_eq_self.2 fun e he => decide_eq_true ⟨(ha.fresh e he).1, hfrom e he⟩
    rw [ha.waiting, having, hall]
  · have hall : new.countP (SharedClause.isFrom p.id ∘ Prod.fst) = new.length :=
      List.countP_eq_length.2 hfrom
    rw [ha.accepted, List.countP_map, hall]

/-- What an engine does is no matter of other ports. -/
theorem PortBooks.elsewhere {r : Port} (h : PortBooks journal es served r) {new : Fates} (ha : Acts p p' seen new)
    (hne : r.id ≠ p.id) : PortBooks (journal ++ seen) (es ++ new) served r := by
  have hseen : ∀ s ∈ seen, s.unitFor r.id = none ∧ s.clauseFor r.id = none ∧ s.rejects r.id = false := fun s hs =>
    Seen.of_isBy_eq_false (ha.own s hs r.id hne)
  have hfrom : ∀ e ∈ new, e.1.isFrom r.id = false := fun e he =>
    decide_eq_false fun hr => hne (hr.symm.trans (ha.fresh e he).2)
  have hwait : having .waiting (·.isFrom r.id) new = [] := by
    rw [List.eq_nil_iff_forall_not_mem]
    intro c hc
    obtain ⟨hmem, hc⟩ := mem_having.1 hc
    exact absurd hc (by rw [hfrom _ hmem]; decide)
  have hunits : seen.filterMap (Seen.unitFor r.id) = [] := List.filterMap_eq_nil_iff.2 fun s hs => (hseen s hs).1
  have hclauses : seen.filterMap (Seen.clauseFor r.id) = [] :=
    List.filterMap_eq_nil_iff.2 fun s hs => (hseen s hs).2.1
  have hrejects : seen.countP (Seen.rejects r.id) = 0 :=
    List.countP_eq_zero.2 fun s hs => by rw [(hseen s hs).2.2]; decide
  have hcount : (new.map Prod.fst).countP (·.isFrom r.id) = 0 := by
    rw [List.countP_map]
    exact List.countP_eq_zero.2 fun e he => by rw [Function.comp_apply, hfrom e he]; decide
  exact h.extend rfl (by rw [hwait, List.append_nil]) (by rw [hunits, List.nil_append])
    (by rw [hclauses, List.nil_append]) (by rw [hrejects, Nat.add_zero]) (by rw [hcount, Nat.add_zero])

/-- What an engine does keeps the books. -/
theorem Books.act (h : Books x journal es done) (hp : x.ports[a]? = some p) {new : Fates}
    (ha : Acts p p' seen new) : Books { x with ports := x.ports.set a p' } (journal ++ seen) (es ++ new) done := by
  have hother : ∀ {f q}, f ≠ .waiting → having f q (es ++ new) = having f q es := fun {f q} hf => by
    have hnil : having f q new = [] := by
      rw [List.eq_nil_iff_forall_not_mem]
      exact fun c hc => hf (ha.fresh _ (mem_having.1 hc).1).1
    rw [having_append, hnil, List.append_nil]
  refine {
    ids := by
      show ((x.ports.set a p').map Port.id).Nodup
      rw [map_id_set hp ha.id]
      exact h.ids
    fates := by rw [List.map_append, h.fates, ha.fates, acceptedIn, acceptedIn, acceptedIn, List.filterMap_append]
    sources := fun c hc => ?_
    ports := fun b r hr => ?_
    hand := (hother (by decide)).trans h.hand
    stored := fun id k => (hother (by decide)).trans (h.stored id k)
    order := ?_
    sorted := h.sorted
    dropped := h.dropped.trans (by rw [hother (by decide)])
    distributed := fun id k => (hother (by decide)).trans (h.distributed id k)
    shared := h.shared }
  · show c.source ∈ (x.ports.set a p').map Port.id
    rw [map_id_set hp ha.id]
    rw [List.map_append] at hc
    rcases List.mem_append.1 hc with hc | hc
    · exact h.sources c hc
    · obtain ⟨e, he, rfl⟩ := List.mem_map.1 hc
      exact (ha.fresh e he).2 ▸ List.mem_map_of_mem (List.mem_of_getElem? hp)
  · rcases getElem?_set_elim hr with ⟨rfl, rfl⟩ | ⟨hne, hr⟩
    · exact (h.ports b p hp).act ha
    · exact (h.ports b r hr).elsewhere ha (h.id_ne hp hr hne)
  · exact h.order.accept fun e he => (ha.fresh e he).1

/-! ## The sharer -/

/-- A clause gets another fate, which is no matter of a port where it neither waited nor will. -/
theorem PortBooks.moved {l r : Fates} {f g : Fate} (h : PortBooks journal (l ++ (c, f) :: r) served p)
    (hf : f ≠ .waiting ∨ c.isFrom p.id = false) (hg : g ≠ .waiting) :
    PortBooks journal (l ++ (c, g) :: r) served p where
  waiting := by
    rw [h.waiting]
    rcases hf with hf | hf
    · exact (having_other (Ne.symm hf) (Ne.symm hg)).symm
    · exact (having_untouched hf).symm
  units := h.units
  clauses := h.clauses
  rejected := h.rejected
  accepted := by rw [h.accepted, map_fst_moved]

section Sharer

variable {ports : List Port} {s : Sharer} {n k : Nat} {cs : List SharedClause}

/-- A round begins. -/
theorem Books.begin (h : Books ⟨ports, s, .idle⟩ journal es done) : Books ⟨ports, s, .gathering 0⟩ journal es done :=
  ⟨h.ids, h.fates, h.sources, h.ports, h.hand, h.stored, h.order, h.sorted, h.dropped, h.distributed, h.shared⟩

/-- The exports of one more port were taken. -/
theorem Books.skip (h : Books ⟨ports, s, .gathering n⟩ journal es done) :
    Books ⟨ports, s, .gathering (n + 1)⟩ journal es done :=
  ⟨h.ids, h.fates, h.sources, h.ports, h.hand, h.stored, h.order, h.sorted, h.dropped, h.distributed, h.shared⟩

/-- The count of clauses that were shared is brought up to date. -/
theorem Books.finish (h : Books ⟨ports, s, .delivering k [] n⟩ journal es done) :
    Books ⟨ports, { s with rounds := s.rounds + 1, shared := s.shared + k }, .idle⟩ journal es done :=
  ⟨h.ids, h.fates, h.sources, h.ports, h.hand, h.stored, h.order, h.sorted, h.dropped, h.distributed, h.shared⟩

/-- Clauses are selected. -/
theorem Books.select (h : Books ⟨ports, s, .gathering n⟩ journal es done) (limit : Nat) :
    Books ⟨ports, { s with pool := (s.pool.give limit).2 },
      .delivering (s.pool.give limit).1.length (s.pool.give limit).1 0⟩ journal es done := by
  refine {
    ids := h.ids
    fates := h.fates
    sources := h.sources
    ports := fun a p hp => ?_
    hand := h.hand
    stored := fun id m => ?_
    order := h.order
    sorted := Pool.sorted_give h.sorted limit
    dropped := h.dropped
    distributed := h.distributed
    shared := ?_ }
  · have hcurrent : Relay.current ⟨ports, { s with pool := (s.pool.give limit).2 },
        .delivering (s.pool.give limit).1.length (s.pool.give limit).1 0⟩ a = [] := by
      unfold current
      cases (s.pool.give limit).1 <;> rfl
    rw [hcurrent]
    exact h.ports a p hp
  · refine (h.stored id m).trans ?_
    show s.pool.toList.filter _ = ((s.pool.give limit).1 ++ (s.pool.give limit).2.toList).filter _
    rw [List.filter_append]
    exact (Pool.filter_give (fun _ => SharedClause.size_of_isOf) h.sorted limit).symm
  · show s.shared + (s.pool.give limit).1.length = done.length + (s.pool.give limit).1.length
    have hshared : s.shared + 0 = done.length + 0 := h.shared
    omega

/-- A clause is taken from a port. -/
theorem Books.take (h : Books ⟨ports, s, .gathering n⟩ journal es done) (hp : ports[n]? = some p) {e : Endpoint}
    (he : p.endpoint.takeExported = (some c, e)) :
    ∃ es', Books ⟨ports.set n { p with endpoint := e }, s, .storing c n⟩ journal es' done := by
  simp only [Endpoint.takeExported, Prod.mk.injEq] at he
  obtain ⟨hc, rfl⟩ := he
  have hwaiting := (h.ports n p hp).waiting
  rw [Fifo.toList_take hc] at hwaiting
  obtain ⟨l, r, rfl, hl, hr, hfrom⟩ := exists_first hwaiting.symm
  have hsource : c.source = p.id := of_decide_eq_true hfrom
  have htaken : having .taken anyClause (l ++ (c, .waiting) :: r) = [] := h.hand
  have hset : (ports.set n { p with endpoint := { p.endpoint with exported := p.endpoint.exported.take.2 } }).map
      Port.id = ports.map Port.id := map_id_set hp rfl
  refine ⟨l ++ (c, .taken) :: r, {
    ids := by
      show (List.map Port.id (ports.set n _)).Nodup
      rw [hset]
      exact h.ids
    fates := by rw [← h.fates, map_fst_moved]
    sources := fun c' hc' => ?_
    ports := fun b q hq => ?_
    hand := ?_
    stored := fun id m => (having_other (by decide) (by decide)).trans (h.stored id m)
    order := h.order.advance hl (fun y hy _ => decide_eq_true (hy.trans hsource)) (by decide) (.inr rfl)
    sorted := h.sorted
    dropped := h.dropped.trans (congrArg _ (having_other (by decide) (by decide)).symm)
    distributed := fun id m => (having_other (by decide) (by decide)).trans (h.distributed id m)
    shared := h.shared }⟩
  · show c'.source ∈ List.map Port.id (ports.set n _)
    rw [hset]
    exact h.sources c' (map_fst_moved ▸ hc')
  · rcases getElem?_set_elim hq with ⟨rfl, rfl⟩ | ⟨hne, hq⟩
    · have hb := h.ports b p hp
      refine ⟨?_, hb.units, hb.clauses, hb.rejected, by rw [map_fst_moved]; exact hb.accepted⟩
      show p.endpoint.exported.take.2.toList = having .waiting (·.isFrom p.id) _
      rw [having_left (by decide) hl, hr]
    · refine (h.ports b q hq).moved (.inr (decide_eq_false fun he => ?_)) (by decide)
      exact h.id_ne hp hq hne (he.symm.trans hsource)
  · have hr : having .taken anyClause r = [] := by
      rw [having_append, having_cons] at htaken
      exact (List.append_eq_nil_iff.1 (List.append_eq_nil_iff.1 htaken).2).2
    rw [having_entered (f := .waiting) (by decide) rfl hr, htaken]
    rfl

/-- A clause that was taken is put into the pool, or dropped. -/
theorem Books.store (h : Books ⟨ports, s, .storing c n⟩ journal es done) :
    ∃ es', Books ⟨ports, s.receive c, .gathering n⟩ journal es' done := by
  obtain ⟨l, r, rfl, hl, hr, -⟩ := exists_first (h.hand : having .taken anyClause es = [c])
  have hmoved : ∀ {g : Fate}, g ≠ .waiting → ∀ a p, ports[a]? = some p →
      PortBooks journal (l ++ (c, g) :: r) (done ++ []) p := fun hg a p hp =>
    (h.ports a p hp).moved (.inl (by decide)) hg
  have hhand : ∀ {g : Fate}, g ≠ .taken → having .taken anyClause (l ++ (c, g) :: r) = [] := fun hg => by
    rw [having_left (Ne.symm hg) hl, hr]
  by_cases hc : s.pool.accepts c = true
  · have hreceive : s.receive c = { s with pool := (s.pool.add c).2 } := by
      rw [Sharer.receive, Pool.add, if_pos hc]
    rw [hreceive]
    refine ⟨l ++ (c, .stored) :: r, {
      ids := h.ids
      fates := by rw [← h.fates, map_fst_moved]
      sources := fun c' hc' => h.sources c' (map_fst_moved ▸ hc')
      ports := hmoved (by decide)
      hand := hhand (by decide)
      stored := fun id m => ?_
      order := h.order.advance hl (fun _ _ _ => rfl) (by decide) (.inr rfl)
      sorted := Pool.sorted_add h.sorted c
      dropped := h.dropped.trans (congrArg _ (having_other (by decide) (by decide)).symm)
      distributed := fun id m => (having_other (by decide) (by decide)).trans (h.distributed id m)
      shared := h.shared }⟩
    have hstored : having .stored (·.isOf id m) (l ++ (c, .taken) :: r) = s.pool.toList.filter (·.isOf id m) :=
      h.stored id m
    show _ = (s.pool.add c).2.toList.filter (·.isOf id m)
    rw [Pool.filter_add (fun _ => SharedClause.size_of_isOf) h.sorted hc, ← hstored]
    by_cases hof : c.isOf id m = true
    · obtain ⟨rfl, rfl⟩ : c.source = id ∧ c.size = m := of_decide_eq_true hof
      rw [having_entered (f := .taken) (by decide) hof (h.order.having_after (by decide) (by decide) (by decide)),
        List.filter_cons_of_pos hof, List.filter_nil]
    · rw [having_untouched (Bool.eq_false_iff.2 hof), List.filter_cons_of_neg hof, List.filter_nil, List.append_nil]
  · have hreceive : s.receive c = { s with dropped := s.dropped + 1 } := by
      rw [Sharer.receive, Pool.add, if_neg hc]
    rw [hreceive]
    refine ⟨l ++ (c, .dropped) :: r, {
      ids := h.ids
      fates := by rw [← h.fates, map_fst_moved]
      sources := fun c' hc' => h.sources c' (map_fst_moved ▸ hc')
      ports := hmoved (by decide)
      hand := hhand (by decide)
      stored := fun id m => (having_other (by decide) (by decide)).trans (h.stored id m)
      order := h.order.advance hl (fun _ _ _ => rfl) (by decide) (.inl rfl)
      sorted := h.sorted
      dropped := ?_
      distributed := fun id m => (having_other (by decide) (by decide)).trans (h.distributed id m)
      shared := h.shared }⟩
    rw [length_having_entered (f := .taken) (by decide) rfl]
    exact congrArg (· + 1) h.dropped

/-- What is known of a port when one more clause was handed to it, if it is from another engine. -/
theorem PortBooks.deliver (h : PortBooks journal es served p) (c : SharedClause) :
    PortBooks journal es (served ++ [c]) { p with endpoint := Sharer.deliverTo c p.endpoint } := by
  by_cases hfrom : p.endpoint.id = c.source
  · have hnot : [c].filter (fun c => !c.isFrom p.id) = [] := by
      rw [List.filter_cons_of_neg, List.filter_nil]
      simp [SharedClause.isFrom, Port.id, hfrom]
    rw [Sharer.deliverTo, if_pos hfrom]
    exact ⟨h.waiting, by rw [List.filter_append, hnot, List.append_nil]; exact h.units,
      by rw [List.filter_append, hnot, List.append_nil]; exact h.clauses, h.rejected, h.accepted⟩
  · have hnot : [c].filter (fun c => !c.isFrom p.id) = [c] := by
      rw [List.filter_cons_of_pos, List.filter_nil]
      simp [SharedClause.isFrom, Port.id, Ne.symm hfrom]
    rw [Sharer.deliverTo, if_neg hfrom]
    have hid : (p.endpoint.deliver c).id = p.id := by
      unfold Endpoint.deliver
      split <;> rfl
    obtain ⟨literals, glue, source⟩ := c
    have hother : ∀ e : Endpoint, e.id = p.id → e.exported = p.endpoint.exported → e.accepted = p.endpoint.accepted →
        e.rejected = p.endpoint.rejected →
        (journal.filterMap (Seen.unitFor p.id) ++ e.units.toList =
          ((served ++ [(⟨literals, glue, source⟩ : SharedClause)]).filter fun c => !c.isFrom p.id).filterMap SharedClause.unit?) →
        (journal.filterMap (Seen.clauseFor p.id) ++ e.clauses.toList =
          ((served ++ [(⟨literals, glue, source⟩ : SharedClause)]).filter fun c => !c.isFrom p.id).filter fun c => !c.isUnit) →
        PortBooks journal es (served ++ [⟨literals, glue, source⟩]) { p with endpoint := e } := by
      intro e hid he ha hr hu hc
      have hid' : Port.id { p with endpoint := e } = p.id := hid
      exact ⟨by rw [hid']; exact he ▸ h.waiting, by rw [hid']; exact hu, by rw [hid']; exact hc,
        by rw [hid']; exact hr ▸ h.rejected, by rw [hid']; exact ha ▸ h.accepted⟩
    rcases literals with _ | ⟨u, _ | ⟨v, rest⟩⟩
    · refine hother _ hid rfl rfl rfl ?_ ?_
      · rw [List.filter_append, hnot, List.filterMap_append, ← h.units]
        exact (List.append_nil _).symm
      · rw [List.filter_append, hnot, List.filter_append, ← h.clauses]
        simp [SharedClause.isUnit, SharedClause.size, Endpoint.deliver]
    · refine hother _ hid rfl rfl rfl ?_ ?_
      · rw [List.filter_append, hnot, List.filterMap_append, ← h.units]
        simp [SharedClause.unit?, Endpoint.deliver]
      · rw [List.filter_append, hnot, List.filter_append, ← h.clauses]
        simp [SharedClause.isUnit, SharedClause.size, Endpoint.deliver]
    · refine hother _ hid rfl rfl rfl ?_ ?_
      · rw [List.filter_append, hnot, List.filterMap_append, ← h.units]
        simp [SharedClause.unit?, Endpoint.deliver]
      · rw [List.filter_append, hnot, List.filter_append, ← h.clauses]
        simp [SharedClause.isUnit, SharedClause.size, Endpoint.deliver]

/-- A clause is handed to one more port. -/
theorem Books.deliver (h : Books ⟨ports, s, .delivering k (c :: cs) n⟩ journal es done) (hp : ports[n]? = some p) :
    Books ⟨ports.set n { p with endpoint := Sharer.deliverTo c p.endpoint }, s, .delivering k (c :: cs) (n + 1)⟩
      journal es done := by
  have hid : Port.id { p with endpoint := Sharer.deliverTo c p.endpoint } = p.id := by
    show (Sharer.deliverTo c p.endpoint).id = p.endpoint.id
    unfold Sharer.deliverTo Endpoint.deliver
    split
    · rfl
    · split <;> rfl
  have hset := map_id_set hp hid
  refine ⟨?_, h.fates, fun c' hc' => ?_, fun b q hq => ?_, h.hand, h.stored, h.order, h.sorted, h.dropped,
    h.distributed, h.shared⟩
  · show (List.map Port.id (ports.set n _)).Nodup
    rw [hset]
    exact h.ids
  · show c'.source ∈ List.map Port.id (ports.set n _)
    rw [hset]
    exact h.sources c' hc'
  · rcases getElem?_set_elim hq with ⟨rfl, rfl⟩ | ⟨hne, hq⟩
    · have hb : PortBooks journal es (done ++ if b < b then [c] else []) p := h.ports b p hp
      rw [if_neg (Nat.lt_irrefl b), List.append_nil] at hb
      show PortBooks journal es (done ++ if b < b + 1 then [c] else []) _
      rw [if_pos (Nat.lt_succ_self b)]
      exact hb.deliver c
    · have hb : PortBooks journal es (done ++ if b < n then [c] else []) q := h.ports b q hq
      show PortBooks journal es (done ++ if b < n + 1 then [c] else []) q
      rwa [if_congr (by omega : b < n + 1 ↔ b < n) rfl rfl]

/-- A clause was handed to all ports. -/
theorem Books.next (h : Books ⟨ports, s, .delivering k (c :: cs) n⟩ journal es done) (hn : ports[n]? = none) :
    ∃ es', Books ⟨ports, s, .delivering k cs 0⟩ journal es' (done ++ [c]) := by
  have hstored : ∀ id m, having .stored (·.isOf id m) es = (c :: (cs ++ s.pool.toList)).filter (·.isOf id m) :=
    h.stored
  have hself := hstored c.source c.size
  rw [List.filter_cons_of_pos c.isOf_self] at hself
  obtain ⟨l, r, rfl, hl, hr, hof⟩ := exists_first hself
  refine ⟨l ++ (c, .distributed) :: r, {
    ids := h.ids
    fates := by rw [← h.fates, map_fst_moved]
    sources := fun c' hc' => h.sources c' (map_fst_moved ▸ hc')
    ports := fun a p hp => ?_
    hand := (having_other (by decide) (by decide)).trans h.hand
    stored := fun id m => ?_
    order := h.order.advance hl (fun y hy hy' => decide_eq_true ⟨hy, hy'⟩) (by decide) (.inr rfl)
    sorted := h.sorted
    dropped := h.dropped.trans (congrArg _ (having_other (by decide) (by decide)).symm)
    distributed := fun id m => ?_
    shared := ?_ }⟩
  · have hlt : a < n := Nat.lt_of_lt_of_le (List.getElem?_eq_some_iff.1 hp).1 (List.getElem?_eq_none_iff.1 hn)
    have hb : PortBooks journal _ (done ++ if a < n then [c] else []) p := h.ports a p hp
    rw [if_pos hlt] at hb
    have hcurrent : Relay.current ⟨ports, s, .delivering k cs 0⟩ a = [] := by
      unfold current
      cases cs <;> rfl
    rw [hcurrent, List.append_nil]
    exact hb.moved (.inl (by decide)) (by decide)
  · show _ = (cs ++ s.pool.toList).filter (·.isOf id m)
    by_cases hof : c.isOf id m = true
    · obtain ⟨rfl, rfl⟩ : c.source = id ∧ c.size = m := of_decide_eq_true hof
      rw [having_left (by decide) hl, hr]
    · have := hstored id m
      rw [List.filter_cons_of_neg hof] at this
      rw [having_untouched (Bool.eq_false_iff.2 hof), this]
  · rw [List.filter_append]
    by_cases hof : c.isOf id m = true
    · obtain ⟨rfl, rfl⟩ : c.source = id ∧ c.size = m := of_decide_eq_true hof
      rw [having_entered (f := .stored) (by decide) hof (h.order.having_after (by decide) (by decide) (by decide)),
        List.filter_cons_of_pos hof, List.filter_nil, h.distributed]
    · rw [having_untouched (Bool.eq_false_iff.2 hof), List.filter_cons_of_neg hof, List.filter_nil,
        List.append_nil, h.distributed]
  · have hshared : s.shared + k = done.length + (cs.length + 1) := h.shared
    show s.shared + k = (done ++ [c]).length + cs.length
    rw [List.length_append]
    simp only [List.length_cons, List.length_nil]
    omega

end Sharer

/-- The next piece of a round keeps the books. -/
theorem Books.sharerStep (h : Books x journal es done) : ∃ es' done', Books x.sharerStep journal es' done' := by
  obtain ⟨ports, s, phase⟩ := x
  unfold Relay.sharerStep
  cases phase with
  | idle => exact ⟨es, done, h.begin⟩
  | gathering n =>
    dsimp only
    split
    · next p hp =>
      split
      · next c e he =>
        obtain ⟨es', h'⟩ := h.take hp he
        exact ⟨es', done, h'⟩
      · exact ⟨es, done, h.skip⟩
    · exact ⟨es, done, h.select s.literalLimit⟩
  | storing c n =>
    obtain ⟨es', h'⟩ := h.store
    exact ⟨es', done, h'⟩
  | delivering k selection n =>
    cases selection with
    | nil => exact ⟨es, done, h.finish⟩
    | cons c cs =>
      dsimp only
      split
      · next p hp => exact ⟨es, done, h.deliver hp⟩
      · next hp =>
        obtain ⟨es', h'⟩ := h.next hp
        exact ⟨es', done ++ [c], h'⟩

/-! ## Everything that happens -/

/-- Whatever happens next keeps the books. -/
theorem Books.step (h : Books x journal es done) (action : Action) :
    ∃ es' done', Books (x.step action).2 (journal ++ (x.step action).1) es' done' := by
  have hstill : ∃ es' done', Books x (journal ++ []) es' done' := ⟨es, done, by rwa [List.append_nil]⟩
  unfold Relay.step
  cases action with
  | offer a literals glue =>
    dsimp only
    split
    · next p hp =>
      obtain ⟨new, ha⟩ := acts_offer p literals glue
      exact ⟨es ++ new, done, h.act hp ha⟩
    · exact hstill
  | count a =>
    dsimp only
    split
    · next p hp => exact ⟨es ++ [], done, h.act hp (acts_count p)⟩
    · exact hstill
  | nextUnit a =>
    dsimp only
    split
    · next p hp =>
      split
      · next u e he => exact ⟨es ++ [], done, h.act hp (acts_nextUnit he)⟩
      · exact hstill
    · exact hstill
  | nextClause a =>
    dsimp only
    split
    · next p hp =>
      split
      · next c e he => exact ⟨es ++ [], done, h.act hp (acts_nextClause he)⟩
      · exact hstill
    · exact hstill
  | sharer =>
    obtain ⟨es', done', h'⟩ := h.sharerStep
    exact ⟨es', done', by rwa [List.append_nil]⟩

/-- The books are kept all along. -/
theorem Books.run (h : Books x journal es done) (actions : List Action) :
    ∃ es' done', Books (x.run actions).2 (journal ++ (x.run actions).1) es' done' := by
  induction actions generalizing x journal es done with
  | nil => exact ⟨es, done, by rwa [Relay.run, List.append_nil]⟩
  | cons action actions ih =>
    obtain ⟨es', done', h'⟩ := h.step action
    obtain ⟨es'', done'', h''⟩ := ih h'
    refine ⟨es'', done'', ?_⟩
    rw [List.append_assoc] at h''
    exact h''

end Relay

end ClauseLearning

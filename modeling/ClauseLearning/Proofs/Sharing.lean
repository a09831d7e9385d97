import ClauseLearning.Sharing.Exchange

/-!
# What is on its way

Clauses that engines hand to one another are kept in queues, in the pool of the sharer, and among its deliveries.  On
the way from one place to another nothing is added to them: what is held after a step of the sharer was held before.
Only an engine puts new clauses into a queue, and each of those it was offered.

* `Endpoint.held`, `Exchange.held` — the external literals of all that is held.
* `Endpoint.mem_held_offer`, … — what the queues hold after an operation on one of them.
* `Pool.mem_add`, `Pool.mem_give` — what a pool holds after a clause was added, or a selection taken out.
* `Exchange.held_act` — steps of the sharer.
-/

namespace ClauseLearning

variable {c : List Int}

namespace Fifo

variable {α : Type} {a : α} {q : Fifo α}

/-- What is taken was in the queue, and so was what is left. -/
theorem mem_of_take (h : q.take.1 = some a ∨ a ∈ q.take.2.toList) : a ∈ q.toList := by
  unfold take at h
  cases hp : q.pop? with
  | none =>
    simp only [hp, reduceCtorEq, false_or] at h
    exact h
  | some x =>
    obtain ⟨b, q'⟩ := x
    simp only [hp, Option.some.injEq] at h
    rw [toList_of_pop? hp, List.mem_cons]
    exact h.imp_left Eq.symm

end Fifo

/-! ## Queues -/

namespace Endpoint

variable {e : Endpoint}

/-- The external literals of the clauses in the queues. -/
def held (e : Endpoint) : List (List Int) :=
  e.exported.toList.map SharedClause.literals ++ e.units.toList.map (fun u => [u]) ++
    e.clauses.toList.map SharedClause.literals

theorem mem_held : c ∈ e.held ↔
    (∃ x ∈ e.exported.toList, x.literals = c) ∨ (∃ u ∈ e.units.toList, [u] = c) ∨
      ∃ x ∈ e.clauses.toList, x.literals = c := by
  simp [held]

/-- A clause is put into a queue only if it was offered. -/
theorem mem_held_offer {ls : List Int} {glue : Nat} (h : c ∈ (e.offer ls glue).2.held) : c ∈ e.held ∨ c = ls := by
  unfold offer at h
  split at h
  · exact .inl h
  · rw [mem_held] at h ⊢
    rcases h with ⟨x, hx, rfl⟩ | h | h
    · rw [Fifo.toList_push, List.mem_append, List.mem_singleton] at hx
      rcases hx with hx | rfl
      · exact .inl (.inl ⟨x, hx, rfl⟩)
      · exact .inr rfl
    · exact .inl (.inr (.inl h))
    · exact .inl (.inr (.inr h))

theorem mem_held_takeExported {x : SharedClause}
    (h : e.takeExported.1 = some x ∧ x.literals = c ∨ c ∈ e.takeExported.2.held) : c ∈ e.held := by
  rw [mem_held]
  rcases h with ⟨hx, rfl⟩ | h
  · exact .inl ⟨x, Fifo.mem_of_take (.inl hx), rfl⟩
  · rw [mem_held] at h
    exact h.imp_left fun ⟨x, hx, he⟩ => ⟨x, Fifo.mem_of_take (.inr hx), he⟩

theorem mem_held_nextUnit {u : Int} (h : e.nextUnit.1 = some u ∧ [u] = c ∨ c ∈ e.nextUnit.2.held) : c ∈ e.held := by
  rw [mem_held]
  rcases h with ⟨hu, rfl⟩ | h
  · exact .inr (.inl ⟨u, Fifo.mem_of_take (.inl hu), rfl⟩)
  · rw [mem_held] at h
    exact h.imp_right (Or.imp_left fun ⟨u, hu, he⟩ => ⟨u, Fifo.mem_of_take (.inr hu), he⟩)

theorem mem_held_nextClause {x : SharedClause}
    (h : e.nextClause.1 = some x ∧ x.literals = c ∨ c ∈ e.nextClause.2.held) : c ∈ e.held := by
  rw [mem_held]
  rcases h with ⟨hx, rfl⟩ | h
  · exact .inr (.inr ⟨x, Fifo.mem_of_take (.inl hx), rfl⟩)
  · rw [mem_held] at h
    exact h.imp_right (Or.imp_right fun ⟨x, hx, he⟩ => ⟨x, Fifo.mem_of_take (.inr hx), he⟩)

/-- A clause that is delivered is put into one of the queues. -/
theorem mem_held_deliver {x : SharedClause} (h : c ∈ (e.deliver x).held) : c ∈ e.held ∨ c = x.literals := by
  unfold deliver at h
  rw [mem_held]
  split at h
  · next u hu =>
    rw [mem_held, Fifo.toList_push] at h
    rcases h with h | ⟨w, hw, rfl⟩ | h
    · exact .inl (.inl h)
    · rw [List.mem_append, List.mem_singleton] at hw
      rcases hw with hw | rfl
      · exact .inl (.inr (.inl ⟨w, hw, rfl⟩))
      · exact .inr hu.symm
    · exact .inl (.inr (.inr h))
  · rw [mem_held, Fifo.toList_push] at h
    rcases h with h | h | ⟨y, hy, rfl⟩
    · exact .inl (.inl h)
    · exact .inl (.inr (.inl h))
    · rw [List.mem_append, List.mem_singleton] at hy
      rcases hy with hy | rfl
      · exact .inl (.inr (.inr ⟨y, hy, rfl⟩))
      · exact .inr rfl

end Endpoint

/-! ## The pool -/

namespace Pool

variable {p : Pool} {x y : SharedClause}

/-- What is in a part of an array is in the array. -/
theorem mem_of_mem_extract {α : Type} {xs : Array α} {a : α} {i j : Nat} (h : a ∈ xs.extract i j) : a ∈ xs := by
  obtain ⟨k, hk, rfl⟩ := Array.mem_extract_iff_getElem.1 h
  exact Array.getElem_mem _

theorem mem_toList : x ∈ p.toList ↔ ∃ bucket ∈ p.buckets, x ∈ bucket := by
  simp [toList]

/-- A pool holds one more clause at most. -/
theorem mem_add (h : x ∈ (p.add y).2.toList) : x ∈ p.toList ∨ x = y := by
  unfold add at h
  split at h
  · rw [mem_toList] at h ⊢
    obtain ⟨bucket, hb, hx⟩ := h
    obtain ⟨i, hi, rfl⟩ := Array.mem_iff_getElem.1 hb
    rw [Array.getElem_modify] at hx
    have hi' : i < p.buckets.size := by simpa using hi
    split at hx
    · rcases Array.mem_push.1 hx with hx | rfl
      · exact .inl ⟨_, Array.getElem_mem hi', hx⟩
      · exact .inr rfl
    · exact .inl ⟨_, Array.getElem_mem hi', hx⟩
  · exact .inl h

/-- What is selected was in one of the buckets, and so was what stays. -/
theorem mem_select {limit size literals : Nat} {buckets : List (Array SharedClause)}
    (h : x ∈ (select limit buckets size literals).1 ∨ ∃ bucket ∈ (select limit buckets size literals).2, x ∈ bucket) :
    ∃ bucket ∈ buckets, x ∈ bucket := by
  induction buckets generalizing size literals with
  | nil => simp [select] at h
  | cons bucket rest ih =>
    have hrest : ∀ {size literals}, (x ∈ (select limit rest size literals).1 ∨
        ∃ b ∈ (select limit rest size literals).2, x ∈ b) → ∃ b ∈ bucket :: rest, x ∈ b := fun h =>
      let ⟨b, hb, hx⟩ := ih h
      ⟨b, List.mem_cons_of_mem _ hb, hx⟩
    have hfirst : x ∈ bucket → ∃ b ∈ bucket :: rest, x ∈ b := fun hx => ⟨bucket, List.mem_cons_self .., hx⟩
    rw [select] at h
    split at h
    · simp only [List.mem_append, Array.mem_toList_iff, List.mem_cons] at h
      rcases h with (hx | hx) | ⟨b, rfl | hb, hx⟩
      · exact hfirst hx
      · exact hrest (.inl hx)
      · simp at hx
      · exact hrest (.inr ⟨b, hb, hx⟩)
    · dsimp only at h
      split at h
      · simpa using h
      · simp only [List.mem_append, Array.mem_toList_iff, List.mem_cons] at h
        rcases h with (hx | hx) | ⟨b, rfl | hb, hx⟩
        · exact hfirst (mem_of_mem_extract (Array.take_eq_extract ▸ hx))
        · exact hrest (.inl hx)
        · exact hfirst (mem_of_mem_extract (Array.drop_eq_extract ▸ hx))
        · exact hrest (.inr ⟨b, hb, hx⟩)

/-- A selection was in the pool, and so was what stays in it. -/
theorem mem_give {limit : Nat} (h : x ∈ (p.give limit).1 ∨ x ∈ (p.give limit).2.toList) : x ∈ p.toList := by
  rw [mem_toList] at h ⊢
  simp only [give, List.mem_toArray] at h
  obtain ⟨bucket, hb, hx⟩ := mem_select h
  exact ⟨bucket, Array.mem_toList_iff.1 hb, hx⟩

end Pool

/-! ## Steps of the sharer -/

namespace Exchange

variable {τ : Type} {p : Part τ Endpoint} {x : Exchange τ}

/-- The external literals of all clauses that are held: in the queues of the members, in the pool of the sharer, and
among its deliveries. -/
def held (p : Part τ Endpoint) (x : Exchange τ) : List (List Int) :=
  x.members.toList.flatMap (fun t => (p.get t).held) ++ x.sharer.pool.toList.map SharedClause.literals ++
    x.deliveries.map fun d => d.2.literals

theorem mem_held : c ∈ x.held p ↔ (∃ t ∈ x.members, c ∈ (p.get t).held) ∨
    (∃ y ∈ x.sharer.pool.toList, y.literals = c) ∨ ∃ d ∈ x.deliveries, d.2.literals = c := by
  simp only [held, List.mem_append, List.mem_flatMap, Array.mem_toList_iff, List.mem_map, or_assoc]

/-- One of the members after a change of one of them. -/
theorem mem_modify {i : Nat} {f : τ → τ} {t : τ} (h : t ∈ (x.modify i f).members) :
    t ∈ x.members ∨ ∃ u, x.members[i]? = some u ∧ t = f u := by
  obtain ⟨j, hj, rfl⟩ := Array.mem_iff_getElem.1 h
  simp only [modify] at hj ⊢
  have hj' : j < x.members.size := by simpa using hj
  rw [Array.getElem_modify]
  split
  · next he =>
    subst he
    exact .inr ⟨_, Array.getElem?_eq_getElem hj', rfl⟩
  · exact .inl (Array.getElem_mem hj')

theorem held_gather {i : Nat} (h : c ∈ (x.gather p i).held p) : c ∈ x.held p := by
  unfold gather at h
  split at h
  · next y e hy =>
    obtain ⟨t, ht, he⟩ := Option.map_eq_some_iff.1 hy
    have htm := Array.mem_of_getElem? ht
    -- the clause that was taken, and what is left in its queue
    have hmember : ∀ {c}, y.literals = c ∨ c ∈ e.held → c ∈ (p.get t).held := fun {c} h' => by
      refine Endpoint.mem_held_takeExported (x := y) ?_
      rw [he]
      exact h'.imp_left fun hc => ⟨rfl, hc⟩
    rw [mem_held] at h ⊢
    rcases h with ⟨u, hu, hc⟩ | ⟨z, hz, hc⟩ | h
    · rcases mem_modify hu with hu | ⟨w, hw, rfl⟩
      · exact .inl ⟨u, hu, hc⟩
      · rw [p.get_set] at hc
        exact .inl ⟨t, htm, hmember (.inr hc)⟩
    · have hz' : z ∈ (x.sharer.pool.add y).2.toList := by
        simp only [Sharer.receive] at hz
        split at hz <;> next hadd => rw [hadd]; exact hz
      rcases Pool.mem_add hz' with hz' | rfl
      · exact .inr (.inl ⟨z, hz', hc⟩)
      · exact .inl ⟨t, htm, hmember (.inl hc)⟩
    · exact .inr (.inr h)
  · exact h

theorem held_select (h : c ∈ x.select.held p) : c ∈ x.held p := by
  unfold select at h
  split at h
  · rw [mem_held] at h ⊢
    rcases h with h | ⟨y, hy, hc⟩ | ⟨d, hd, hc⟩
    · exact .inl h
    · exact .inr (.inl ⟨y, Pool.mem_give (.inr hy), hc⟩)
    · simp only [addressed, List.mem_flatMap, List.mem_map] at hd
      obtain ⟨y, hy, i, -, rfl⟩ := hd
      exact .inr (.inl ⟨y, Pool.mem_give (.inl hy), hc⟩)
  · exact h

theorem held_deliver (h : c ∈ (x.deliver p).held p) : c ∈ x.held p := by
  unfold deliver at h
  split at h
  · exact h
  · next i y deliveries hx =>
    rw [mem_held] at h ⊢
    rw [hx]
    rcases h with ⟨t, ht, hc⟩ | h | ⟨d, hd, hc⟩
    · rcases mem_modify ht with ht | ⟨u, hu, rfl⟩
      · exact .inl ⟨t, ht, hc⟩
      · rw [Part.modify, p.get_set] at hc
        rcases Endpoint.mem_held_deliver hc with hc | rfl
        · exact .inl ⟨u, Array.mem_of_getElem? hu, hc⟩
        · exact .inr (.inr ⟨_, List.mem_cons_self .., rfl⟩)
    · exact .inr (.inl h)
    · exact .inr (.inr ⟨d, List.mem_cons_of_mem _ hd, hc⟩)

/-- What is held after a step of the sharer was held before. -/
theorem held_act {step : SharerStep} (h : c ∈ (x.act p step).held p) : c ∈ x.held p := by
  cases step with
  | gather i => exact held_gather h
  | select => exact held_select h
  | deliver => exact held_deliver h

/-- A step of the sharer changes nothing of the members but their endpoints. -/
theorem mem_act {step : SharerStep} {t : τ} (h : t ∈ (x.act p step).members) :
    t ∈ x.members ∨ ∃ u ∈ x.members, ∃ e, t = p.set e u := by
  cases step with
  | gather i =>
    simp only [act, gather] at h
    split at h
    · rcases mem_modify h with h | ⟨u, hu, rfl⟩
      · exact .inl h
      · exact .inr ⟨u, Array.mem_of_getElem? hu, _, rfl⟩
    · exact .inl h
  | select =>
    simp only [act, select] at h
    split at h <;> exact .inl h
  | deliver =>
    simp only [act, deliver] at h
    split at h
    · exact .inl h
    · rcases mem_modify h with h | ⟨u, hu, rfl⟩
      · exact .inl h
      · exact .inr ⟨u, Array.mem_of_getElem? hu, _, rfl⟩

end Exchange

end ClauseLearning

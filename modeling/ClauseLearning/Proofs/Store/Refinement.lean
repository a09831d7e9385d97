import ClauseLearning.Proofs.Store.Compaction
import Mathlib.Data.List.Forall2
import Mathlib.Data.List.Induction

/-!
# A store refines a list of clauses

Whatever is done with a store through references, what is seen of it is what its ledger says.  The words of
the store move and are reused, so what ties the two together has to say where each clause was in each epoch.

* `Store.Mirrors` — what is seen of a store is what a ledger says.
* `Store.Tied` — a store with its references, and a ledger, as one step after another leaves them.
* `Store.Tied.step` — every operation that is allowed is answered alike, and keeps the two tied.
* `Store.run_mirrors` — so does every list of operations.
-/

namespace ClauseLearning

namespace Store

/-! ## What is seen -/

/-- What is seen of a store through its references is what a ledger says. -/
structure Mirrors (c : Client) (l : Ledger) : Prop where
  /-- The references to all clauses are, in order, to the clauses of the ledger. -/
  references : c.store.references.map c.store.record? = l.entries.map fun e => .ok e.clause
  /-- The clauses of the ledger are in the order in which they were stored. -/
  ordered : (l.entries.map Entry.token).Pairwise (· < ·)
  /-- A reference that was obtained since the last sweep is to the clause that it names. -/
  current : List.Forall₂ (fun r n => n.age = l.age →
    ∃ e ∈ l.entries, e.token = n.token ∧ c.store.record? r = .ok e.clause) c.held l.held
  /-- Every access through a reference from before the last sweep is refused. -/
  stale : List.Forall₂ (fun r n => n.age ≠ l.age → c.store.size? r = .error .staleReference) c.held l.held
  /-- There is a relocation for every sweep. -/
  moves : c.moves.length = l.stayed.length
  /-- A reference is carried over a sweep if it was obtained in the epoch before, and its clause was before the
  start. -/
  retag : ∀ m t tokens, c.moves[m]? = some t → l.stayed[m]? = some tokens →
    List.Forall₂ (fun r n => (t.retag r).isSome ↔ n.age = m ∧ n.token ∈ tokens) c.held l.held
  /-- No word belongs to two clauses. -/
  apart : ∀ o ∈ c.store.offsets, ∀ o' ∈ c.store.offsets, o < o' → o + headerWords + c.store.sizeAt o ≤ o'
  /-- Every word belongs to a clause or is padding. -/
  covered : ∀ i < c.store.words.size,
    (∃ o ∈ c.store.offsets, o ≤ i ∧ i < o + headerWords + c.store.sizeAt o) ∨ c.store.word i = padding

/-! ## Where the clauses were -/

/-- The numbers and the offsets of the clauses, for each epoch. -/
abbrev Roll := Nat → List (Nat × Nat)

variable {roll roll' : Roll} {c : Client} {l : Ledger}

/-- A reference is to the clause that a name names, in the epoch of the name. -/
structure Names (roll : Roll) (age : Nat) (r : Reference) (n : Name) : Prop where
  /-- The epoch of the reference. -/
  epoch : r.epoch = n.age
  /-- The epoch has come. -/
  le : n.age ≤ age
  /-- Where the clause was. -/
  mem : (n.token, r.offset) ∈ roll n.age

/-- A relocation tells the clauses before the start of a sweep from those after it. -/
structure Moved (roll : Roll) (m : Nat) (t : Relocation) (tokens : List Nat) : Prop where
  /-- The epoch before. -/
  old : t.oldEpoch = m
  /-- The epoch after. -/
  new : t.newEpoch = m + 1
  /-- Which clauses were before the start. -/
  stays : ∀ x ∈ roll m, x.2 < t.start ↔ x.1 ∈ tokens
  /-- Those did not move. -/
  carried : ∀ x ∈ roll m, x.1 ∈ tokens → x ∈ roll (m + 1)

/-- A store with its references, and a ledger, as one step after another leaves them. -/
structure Tied (roll : Roll) (c : Client) (l : Ledger) : Prop where
  /-- The walk over the store is good. -/
  chain : c.store.Chain 0
  /-- No epoch has come back. -/
  epoch : c.store.epoch = l.age
  /-- How many words are taken. -/
  words : c.store.words.size = l.words
  /-- No clause is as long as padding. -/
  room : ∀ o ∈ c.store.offsets, c.store.sizeAt o < padding
  /-- Where the clauses are. -/
  offsets : (roll l.age).map Prod.snd = c.store.offsets
  /-- What the clauses are. -/
  entries : l.entries = (roll l.age).map fun x => ⟨x.1, c.store.recordAt x.2⟩
  /-- The clauses are in the order in which they were stored. -/
  ordered : ((roll l.age).map Prod.fst).Pairwise (· < ·)
  /-- The next clause has a number of its own. -/
  issued : ∀ x ∈ roll l.age, x.1 < l.issued
  /-- What the references name. -/
  held : List.Forall₂ (Names roll l.age) c.held l.held
  /-- There is a relocation for every sweep. -/
  moves : c.moves.length = l.stayed.length
  /-- Which clauses did not move in each sweep. -/
  moved : ∀ m t tokens, c.moves[m]? = some t → l.stayed[m]? = some tokens → Moved roll m t tokens

/-- Of pairs whose first components ascend, one with a given first component is found by it. -/
theorem find?_token {β : Type} (f : Nat × Nat → β) (token : β → Nat) (hf : ∀ x, token (f x) = x.1)
    {xs : List (Nat × Nat)} (h : (xs.map Prod.fst).Pairwise (· < ·)) {x : Nat × Nat} (hx : x ∈ xs) :
    (xs.map f).find? (fun e => decide (token e = x.1)) = some (f x) := by
  induction xs with
  | nil => cases hx
  | cons y ys ih =>
    rw [List.map_cons, List.pairwise_cons] at h
    rw [List.map_cons, List.find?_cons]
    rcases List.mem_cons.1 hx with rfl | hx
    · rw [decide_eq_true (hf x)]
    · have hlt := h.1 x.1 (List.mem_map_of_mem hx)
      rw [decide_eq_false (by rw [hf]; omega)]
      exact ih h.2 hx

/-- A reference can be carried over a sweep just if it was obtained in the epoch before and its clause was
before the start. -/
theorem Names.retag_iff {age : Nat} {r : Reference} {n : Name} (hn : Names roll age r n) {m : Nat}
    {t : Relocation} {tokens : List Nat} (ht : Moved roll m t tokens) :
    (r.epoch = t.oldEpoch ∧ r.offset < t.start) ↔ n.age = m ∧ n.token ∈ tokens := by
  rw [ht.old, hn.epoch]
  refine and_congr_right fun he => ?_
  exact ht.stays _ (he ▸ hn.mem)

namespace Tied

theorem current (h : Tied roll c l) {r : Reference} {n : Name} (hn : Names roll l.age r n) (he : n.age = l.age) :
    c.store.Current r := by
  refine ⟨by rw [hn.epoch, he, h.epoch], ?_⟩
  rw [← h.offsets, ← he]
  exact List.mem_map_of_mem (f := Prod.snd) hn.mem

theorem stale (h : Tied roll c l) {r : Reference} {n : Name} (hn : Names roll l.age r n) (he : n.age ≠ l.age) :
    c.store.size? r = .error .staleReference := by
  rw [size?, if_pos (by rw [hn.epoch, h.epoch]; exact he)]

/-- The clause that is found under the number of a current reference. -/
theorem find? (h : Tied roll c l) {r : Reference} {n : Name} (hn : Names roll l.age r n) (he : n.age = l.age) :
    l.entries.find? (fun e => e.token = n.token) = some ⟨n.token, c.store.recordAt r.offset⟩ := by
  rw [h.entries]
  exact find?_token (fun x => (⟨x.1, c.store.recordAt x.2⟩ : Entry)) Entry.token (fun _ => rfl)
    h.ordered (he ▸ hn.mem)

/-- What is read through a reference is what the ledger says. -/
theorem read (h : Tied roll c l) {r : Reference} {n : Name} (hn : Names roll l.age r n) :
    c.store.record? r = l.clause? n := by
  rw [Ledger.clause?]
  by_cases he : n.age = l.age
  · rw [if_neg (not_not.2 he), h.find? hn he, record?_of_current h.chain (h.current hn he)]
  · rw [if_pos he, record?, h.stale hn he]
    rfl

/-- A number that counts references stands for one in both, or in neither. -/
theorem name (h : Tied roll c l) (i : Nat) :
    (∃ r n, c.held[i]? = some r ∧ l.held[i]? = some n ∧ Names roll l.age r n) ∨
      c.held[i]? = none ∧ l.held[i]? = none := by
  have hlen := h.held.length_eq
  by_cases hi : i < c.held.length
  · have hi' : i < l.held.length := hlen ▸ hi
    exact .inl ⟨_, _, List.getElem?_eq_getElem hi, List.getElem?_eq_getElem hi', h.held.get hi hi'⟩
  · exact .inr ⟨List.getElem?_eq_none (by omega), List.getElem?_eq_none (by omega)⟩

/-- A number that counts sweeps stands for one in both, or in neither. -/
theorem move (h : Tied roll c l) (m : Nat) :
    (∃ t tokens, c.moves[m]? = some t ∧ l.stayed[m]? = some tokens ∧ m < l.age ∧ Moved roll m t tokens) ∨
      c.moves[m]? = none ∧ l.stayed[m]? = none := by
  have hlen := h.moves
  by_cases hm : m < c.moves.length
  · have hm' : m < l.stayed.length := hlen ▸ hm
    have ht := List.getElem?_eq_getElem hm
    have hs := List.getElem?_eq_getElem hm'
    exact .inl ⟨_, _, ht, hs, hm', h.moved m _ _ ht hs⟩
  · exact .inr ⟨List.getElem?_eq_none (by omega), List.getElem?_eq_none (by omega)⟩

/-- The clauses of a ledger have three literals or more, and are not as long as padding. -/
theorem size_entry (h : Tied roll c l) {e : Entry} (he : e ∈ l.entries) :
    3 ≤ e.clause.literals.size ∧ e.clause.literals.size < padding := by
  rw [h.entries] at he
  obtain ⟨x, hx, rfl⟩ := List.mem_map.1 he
  have hx2 : x.2 ∈ c.store.offsets := h.offsets ▸ List.mem_map_of_mem (f := Prod.snd) hx
  show 3 ≤ (c.store.recordAt x.2).literals.size ∧ (c.store.recordAt x.2).literals.size < padding
  rw [(h.chain.mem hx2).2.size_recordAt]
  exact ⟨(h.chain.mem hx2).2.three, h.room _ hx2⟩

/-- What is seen of a store is what its ledger says. -/
theorem mirrors (h : Tied roll c l) : Mirrors c l where
  references := by
    have hread : ∀ o ∈ c.store.offsets, c.store.record? ⟨o, c.store.epoch⟩ = .ok (c.store.recordAt o) :=
      fun o ho => record?_of_current h.chain ⟨rfl, ho⟩
    rw [references, referencesFrom, List.map_map, h.entries, List.map_map]
    show c.store.offsets.map _ = _
    rw [← h.offsets, List.map_map]
    exact List.map_congr_left fun x hx => hread x.2 (h.offsets ▸ List.mem_map_of_mem (f := Prod.snd) hx)
  ordered := by
    rw [h.entries, List.map_map]
    exact h.ordered
  current := h.held.imp fun r n hn he => by
    refine ⟨_, List.mem_of_find?_eq_some (h.find? hn he), rfl, ?_⟩
    exact record?_of_current h.chain (h.current hn he)
  stale := h.held.imp fun r n hn he => h.stale hn he
  moves := h.moves
  retag m t tokens ht hs := h.held.imp fun r n hn => by
    rw [← hn.retag_iff (h.moved m t tokens ht hs), Relocation.retag]
    split <;> simp_all
  apart o ho o' ho' hlt := h.chain.apart ho ho' hlt
  covered i hi := h.chain.covered (Nat.zero_le i) hi

end Tied

/-! ## Steps that leave the clauses alone -/

/-- More references are obtained. -/
theorem Tied.hold (h : Tied roll c l) {rs : List Reference} {ns : List Name}
    (hr : List.Forall₂ (Names roll l.age) rs ns) :
    Tied roll { c with held := c.held ++ rs } { l with held := l.held ++ ns } :=
  { h with held := List.rel_append h.held hr }

/-- References to all clauses name them. -/
theorem Tied.references (h : Tied roll c l) :
    List.Forall₂ (Names roll l.age) c.store.references (l.entries.map fun e => ⟨e.token, l.age⟩) := by
  rw [Store.references, referencesFrom, h.entries, List.map_map]
  show List.Forall₂ _ (c.store.offsets.map _) _
  rw [← h.offsets, List.map_map, List.forall₂_map_left_iff, List.forall₂_map_right_iff, List.forall₂_same]
  exact fun x hx => ⟨h.epoch, Nat.le_refl _, hx⟩

/-! ## Changes of one clause -/

/-- One clause is another one, in the store and in the ledger. -/
theorem Tied.amend (h : Tied roll c l) {r : Reference} {n : Name} (hn : Names roll l.age r n) (he : n.age = l.age)
    {rec : Record} {s : Store} (ha : Amended r.offset rec c.store s)
    (hsize : rec.literals.size ≤ (c.store.recordAt r.offset).literals.size) :
    Tied roll { c with store := s } (l.amend n.token rec) := by
  have hmem := he ▸ hn.mem
  have hr := (h.current hn he).2
  have hnodup : c.store.offsets.Nodup := h.chain.nodup
  have hsizes : ∀ o ∈ c.store.offsets, s.sizeAt o ≤ c.store.sizeAt o := fun o ho => by
    have hat := (h.chain.mem ho).2
    have hat' := (ha.chain.mem (ha.offsets.symm ▸ ho : o ∈ s.offsets)).2
    rw [← hat.size_recordAt, ← hat'.size_recordAt]
    by_cases hne : o = r.offset
    · rw [hne, ha.self]
      exact hsize
    · exact Nat.le_of_eq (by rw [ha.other o ho hne])
  refine { h with
    chain := ha.chain
    epoch := ha.epoch.trans h.epoch
    words := ha.size.trans h.words
    room := fun o ho => ?_
    offsets := h.offsets.trans ha.offsets.symm
    entries := ?_ }
  · rw [ha.offsets] at ho
    exact Nat.lt_of_le_of_lt (hsizes o ho) (h.room o ho)
  · show l.entries.map _ = _
    rw [h.entries, List.map_map]
    refine List.map_congr_left fun x hx => ?_
    have hx2 : x.2 ∈ c.store.offsets := h.offsets ▸ List.mem_map_of_mem (f := Prod.snd) hx
    show (if x.1 = n.token then _ else _) = _
    by_cases hxn : x.1 = n.token
    · have hxr : x.2 = r.offset := by
        have h1 := find?_token id Prod.fst (fun _ => rfl) h.ordered hx
        have h2 := find?_token id Prod.fst (fun _ => rfl) h.ordered hmem
        rw [hxn] at h1
        exact congrArg Prod.snd (Option.some.inj (h1.symm.trans h2))
      rw [if_pos hxn, hxr, ha.self]
    · have hxr : x.2 ≠ r.offset := fun heq => by
        rw [← h.offsets] at hnodup
        exact hxn (congrArg Prod.fst (List.inj_on_of_nodup_map hnodup hx hmem heq))
      rw [if_neg hxn, ha.other x.2 hx2 hxr]

/-- A change through a reference that was obtained is answered as the ledger says, and keeps the two tied. -/
theorem Tied.through (h : Tied roll c l) {α : Type} (i : Nat) {x : Reference → StoreM α} {answer : α → Answer}
    {y : Record → Except Fault (Answer × Record)}
    (hstale : ∀ r, c.store.size? r = .error .staleReference → x r c.store = .error .staleReference c.store)
    (hx : ∀ r, c.store.Current r → Ends (x r) c.store
      (fun a s => ∃ rec, y (c.store.recordAt r.offset) = .ok (answer a, rec) ∧
        Amended r.offset rec c.store s ∧ rec.literals.size ≤ (c.store.recordAt r.offset).literals.size)
      (fun e s => y (c.store.recordAt r.offset) = .error e ∧ s = c.store)) :
    (c.through i x answer).1 = (l.through i y).1 ∧ Tied roll (c.through i x answer).2 (l.through i y).2 := by
  rw [Client.through, Ledger.through]
  rcases h.name i with ⟨r, n, hr, hl, hn⟩ | ⟨hr, hl⟩
  · rw [hr, hl]
    simp only [← h.read hn]
    by_cases he : n.age = l.age
    · rw [record?_of_current h.chain (h.current hn he)]
      have hends := hx r (h.current hn he)
      cases hxs : x r c.store with
      | ok a s =>
        obtain ⟨rec, hy, ha, hsize⟩ := hends.of_ok hxs
        simp only [Except.bind, hy]
        exact ⟨trivial, h.amend hn he ha hsize⟩
      | error e s =>
        obtain ⟨hy, rfl⟩ := hends.of_error hxs
        simp only [Except.bind, hy]
        exact ⟨trivial, h⟩
    · rw [hstale r (h.stale hn he), record?, h.stale hn he]
      exact ⟨rfl, h⟩
  · rw [hr, hl]
    exact ⟨rfl, h⟩

theorem Tied.edit (h : Tied roll c l) (i : Nat) (e : Edit) :
    (c.step (.edit i e)).1 = (l.step (.edit i e)).1 ∧ Tied roll (c.step (.edit i e)).2 (l.step (.edit i e)).2 := by
  refine h.through i (fun r hr => ?_) fun r hr => (ends_edit h.chain hr e).imp (fun _ s ha => ?_)
    fun _ _ (hf : False) => hf.elim
  · cases e <;> exact bind_locate_of_error hr
  · exact ⟨_, rfl, ha, Nat.le_of_eq (e.size_apply _)⟩

theorem Tied.markGarbage (h : Tied roll c l) (i : Nat) :
    (c.step (.markGarbage i)).1 = (l.step (.markGarbage i)).1 ∧
      Tied roll (c.step (.markGarbage i)).2 (l.step (.markGarbage i)).2 := by
  refine h.through i (fun r hr => bind_locate_of_error hr) fun r hr =>
    (ends_markGarbage_amended h.chain hr).imp (fun fresh s ha => ?_) fun _ _ (hf : False) => hf.elim
  obtain ⟨rfl, ha⟩ := ha
  refine ⟨_, rfl, ha, Nat.le_of_eq ?_⟩
  rw [Record.trashed]
  split <;> rfl

theorem Tied.shrink (h : Tied roll c l) (i n : Nat) :
    (c.step (.shrink i n)).1 = (l.step (.shrink i n)).1 ∧
      Tied roll (c.step (.shrink i n)).2 (l.step (.shrink i n)).2 := by
  refine h.through i (fun r hr => bind_locate_of_error hr) fun r hr =>
    (ends_shrink_amended h.chain hr (h.room _ hr.2)).imp (fun _ s ha => ?_) fun e s he => ?_
  · have hsize := (h.chain.mem hr.2).2.size_recordAt
    obtain ⟨h3, ha⟩ := ha
    rw [← hsize] at ha
    refine ⟨_, if_neg (by omega), ha, ?_⟩
    split
    · simp only [Record.shortened, Array.take_eq_extract,
        Array.size_extract]
      omega
    · exact Nat.le_refl _
  · obtain ⟨h3, rfl, rfl⟩ := he
    exact ⟨if_pos h3, rfl⟩

/-! ## One more clause -/

theorem allocate_eq (s : Store) (ls : Array Literal) (redundant : Bool) (glue : Nat) :
    allocate ls redundant glue s =
      if ls.size < 3 then .error .tooShort s
      else if padding ≤ s.words.size + headerWords + ls.size then .error .exhausted s
      else .ok s.nextReference (s.append (.fresh ls redundant glue)) := by
  unfold allocate
  split
  · rfl
  · show (if padding ≤ s.words.size + headerWords + ls.size then _ else _ : StoreM Reference) s = _
    split <;> rfl

/-- The numbers and offsets of the clauses, when one more was stored. -/
def Roll.add (roll : Roll) (age : Nat) (x : Nat × Nat) : Roll := fun m => if m = age then roll m ++ [x] else roll m

theorem Roll.mem_add {age m : Nat} {x y : Nat × Nat} (h : y ∈ roll m) : y ∈ roll.add age x m := by
  rw [Roll.add]
  split
  · exact List.mem_append_left _ h
  · exact h

theorem Roll.add_self (roll : Roll) (age : Nat) (x : Nat × Nat) : roll.add age x age = roll age ++ [x] := if_pos rfl

theorem Roll.add_other {age m : Nat} (h : m ≠ age) (x : Nat × Nat) : roll.add age x m = roll m := if_neg h

theorem Names.add {age : Nat} {r : Reference} {n : Name} (h : Names roll age r n) (x : Nat × Nat) :
    Names (roll.add age x) age r n := ⟨h.epoch, h.le, Roll.mem_add h.mem⟩

theorem Moved.add {age m : Nat} {t : Relocation} {tokens : List Nat} (h : Moved roll m t tokens) (hlt : m < age)
    (x : Nat × Nat) : Moved (roll.add age x) m t tokens where
  old := h.old
  new := h.new
  stays := by
    rw [Roll.add_other (Nat.ne_of_lt hlt)]
    exact h.stays
  carried := by
    rw [Roll.add_other (Nat.ne_of_lt hlt)]
    exact fun x hx hx' => Roll.mem_add (h.carried x hx hx')

theorem Tied.allocate (h : Tied roll c l) (ls : Array Literal) (redundant : Bool) (glue : Nat) :
    (c.step (.allocate ls redundant glue)).1 = (l.step (.allocate ls redundant glue)).1 ∧
      ∃ roll, Tied roll (c.step (.allocate ls redundant glue)).2 (l.step (.allocate ls redundant glue)).2 := by
  simp only [Client.step, Ledger.step, allocate_eq, h.words]
  by_cases h3 : ls.size < 3
  · simp only [if_pos h3]
    exact ⟨trivial, roll, h⟩
  have hfull : 2 ^ 32 - 1 ≤ l.words + 4 + ls.size ↔ padding ≤ l.words + headerWords + ls.size := Iff.rfl
  by_cases hroom : padding ≤ l.words + headerWords + ls.size
  · simp only [if_neg h3, if_pos hroom, if_pos (hfull.2 hroom)]
    exact ⟨trivial, roll, h⟩
  simp only [if_neg h3, if_neg hroom, if_neg (hfull.not.2 hroom)]
  have happ := appended_append (c := Record.fresh ls redundant glue) h.chain (by show 3 ≤ ls.size; omega)
    (by show ls.size ≠ padding; omega)
  have hold : ∀ o ∈ c.store.offsets, (c.store.append (.fresh ls redundant glue)).recordAt o = c.store.recordAt o :=
    fun o ho => happ.recordAt_old h.chain ho
  have hnew : (c.store.append (.fresh ls redundant glue)).recordAt c.store.words.size = .fresh ls redundant glue :=
    recordAt_append h.chain (by show 3 ≤ ls.size; omega) (by show ls.size ≠ padding; omega)
  have hself : roll.add l.age (l.issued, c.store.words.size) l.age = roll l.age ++ [(l.issued, c.store.words.size)] :=
    Roll.add_self ..
  refine ⟨trivial, roll.add l.age (l.issued, c.store.words.size), ?_⟩
  refine {
    chain := happ.chain
    epoch := happ.epoch.trans h.epoch
    words := by rw [happ.size, h.words]; rfl
    room := fun o ho => ?_
    offsets := by
      show (roll.add l.age _ l.age).map _ = _
      rw [hself, List.map_append, h.offsets, happ.offsets]
      rfl
    entries := ?_
    ordered := ?_
    issued := fun x hx => ?_
    held := ?_
    moves := h.moves
    moved := fun m t tokens ht hs => ?_ }
  · rw [happ.offsets] at ho
    rcases List.mem_append.1 ho with ho | ho
    · rw [happ.sizeAt h.chain ho]
      exact h.room o ho
    · obtain rfl := List.mem_singleton.1 ho
      rw [← length_lits, happ.lits]
      show ls.toList.length < padding
      rw [Array.length_toList]
      omega
  · show l.entries ++ _ = (roll.add l.age _ l.age).map _
    rw [hself, List.map_append, h.entries]
    refine congrArg₂ _ (List.map_congr_left fun x hx => ?_) (congrArg (fun c => [(⟨l.issued, c⟩ : Entry)]) hnew.symm)
    rw [hold x.2 (h.offsets ▸ List.mem_map_of_mem (f := Prod.snd) hx)]
  · show ((roll.add l.age _ l.age).map Prod.fst).Pairwise _
    rw [hself, List.map_append, List.pairwise_append]
    refine ⟨h.ordered, List.pairwise_singleton _ _, fun a ha b hb => ?_⟩
    obtain ⟨x, hx, rfl⟩ := List.mem_map.1 ha
    rw [List.mem_singleton.1 hb]
    exact h.issued x hx
  · replace hx : x ∈ roll.add l.age _ l.age := hx
    rw [hself] at hx
    rcases List.mem_append.1 hx with hx | hx
    · exact Nat.lt_succ_of_lt (h.issued x hx)
    · rw [List.mem_singleton.1 hx]
      exact Nat.lt_succ_self _
  · refine List.rel_append (h.held.imp fun r n hn => hn.add _) (.cons ?_ .nil)
    exact ⟨h.epoch, Nat.le_refl _, hself.symm ▸ List.mem_append_right _ (List.mem_singleton_self _)⟩
  · exact (h.moved m t tokens ht hs).add (List.getElem?_eq_some_iff.1 hs).1 _

/-! ## A sweep -/

theorem Judge.token_kept (judge : Judge) (es : List Entry) :
    ((judge.kept es).map Entry.token).Sublist (es.map Entry.token) := by
  induction es using List.reverseRecOn with
  | nil => exact .refl _
  | append_singleton es e ih =>
    rw [Judge.kept_append, List.map_append, List.map_append]
    refine ih.append ?_
    cases judge.outcome es.length e.clause with
    | none => exact List.nil_sublist _
    | some c => exact .refl _

/-- A clause that is kept is not longer than it was. -/
theorem Judge.size_kept {judge : Judge} {es : List Entry} {n : Nat}
    (h : ∀ e ∈ es, 3 ≤ e.clause.literals.size ∧ e.clause.literals.size < n) :
    ∀ e ∈ judge.kept es, e.clause.literals.size < n := by
  induction es using List.reverseRecOn with
  | nil => exact fun e he => nomatch he
  | append_singleton es e ih =>
    intro e' he'
    rw [Judge.kept_append, List.mem_append] at he'
    rcases he' with he' | he'
    · exact ih (fun e he => h e (List.mem_append_left _ he)) e' he'
    · obtain ⟨h3, hn⟩ := h e (List.mem_append_right _ (List.mem_singleton_self _))
      obtain ⟨c, hc, rfl⟩ := Option.map_eq_some_iff.1 (Option.mem_toList.1 he')
      rw [judge.outcome_eq _ h3] at hc
      obtain ⟨c', hc', rfl⟩ := Option.map_eq_some_iff.1 hc
      exact Nat.lt_of_le_of_lt (Verdict.size_outcome hc' h3).2 hn

/-- Clauses with their numbers, put together again from both. -/
theorem map_zip_tokens {f : Nat → Record} {es : List Entry} {os : List Nat}
    (h : os.map f = es.map Entry.clause) :
    ((es.map Entry.token).zip os).map (fun x => (⟨x.1, f x.2⟩ : Entry)) = es := by
  induction es generalizing os with
  | nil => rfl
  | cons e es ih =>
    cases os with
    | nil => cases h
    | cons o os =>
      rw [List.map_cons, List.map_cons, List.cons.injEq] at h
      rw [List.map_cons, List.zip_cons_cons, List.map_cons, ih h.2, h.1]

/-- Of elements told apart by a number, those among the first ones are known by it. -/
theorem mem_take_of_nodup {α β : Type} {f : α → β} {xs : List α} (h : (xs.map f).Nodup) {x : α} (hx : x ∈ xs)
    (k : Nat) : x ∈ xs.take k ↔ f x ∈ (xs.take k).map f := by
  refine ⟨List.mem_map_of_mem, fun hf => ?_⟩
  obtain ⟨y, hy, he⟩ := List.mem_map.1 hf
  exact List.inj_on_of_nodup_map h (List.mem_of_mem_take hy) hx he ▸ hy

/-- As many clauses begin before a seam as there are in the words before it. -/
theorem Seam.length_cut {s : Store} (h : s.Chain 0) {start : Nat} (hq : s.Seam (min start s.words.size)) (e : Nat) :
    (s.cut (min start s.words.size) e).offsets.length = s.offsets.countP (· < start) := by
  rw [hq.offsets h e, List.countP_append]
  have hearly : (s.cut (min start s.words.size) e).offsets.countP (· < start) =
      (s.cut (min start s.words.size) e).offsets.length := by
    rw [List.countP_eq_length]
    intro o ho
    have := ((hq.mem_cut h).1 ho).2
    exact decide_eq_true (by omega)
  have hlate : (s.offsetsFrom (min start s.words.size)).countP (· < start) = 0 := by
    rw [List.countP_eq_zero]
    intro o ho
    have hle := ((hq.mem_offsetsFrom h).1 ho)
    have hin := (h.mem hle.1).2.inside
    simp only [decide_eq_true_eq]
    omega
  rw [hearly, hlate, Nat.add_zero]

theorem nextEpoch_of_lt {e : Nat} (h : e < greatestWord) : nextEpoch e = e + 1 := lowWord_eq_self h

/-- The numbers and offsets of the clauses, when a sweep has begun an epoch. -/
def Roll.begin (roll : Roll) (age : Nat) (xs : List (Nat × Nat)) : Roll := fun m => if m = age then xs else roll m

theorem Roll.begin_self (roll : Roll) (age : Nat) (xs : List (Nat × Nat)) : roll.begin age xs age = xs := if_pos rfl

theorem Roll.begin_other {age m : Nat} (h : m ≠ age) (xs : List (Nat × Nat)) : roll.begin age xs m = roll m :=
  if_neg h

/-- A reference from before a sweep names what it did. -/
theorem Names.begin {age : Nat} {r : Reference} {n : Name} (h : Names roll age r n) (xs : List (Nat × Nat)) :
    Names (roll.begin (age + 1) xs) (age + 1) r n where
  epoch := h.epoch
  le := Nat.le_succ_of_le h.le
  mem := by
    have hle := h.le
    rw [Roll.begin_other (by omega)]
    exact h.mem

/-- A relocation of an earlier sweep says what it did. -/
theorem Moved.begin {age m : Nat} {t : Relocation} {tokens : List Nat} (h : Moved roll m t tokens) (hlt : m < age)
    (xs : List (Nat × Nat)) : Moved (roll.begin (age + 1) xs) m t tokens where
  old := h.old
  new := h.new
  stays := by
    rw [Roll.begin_other (by omega)]
    exact h.stays
  carried := by
    rw [Roll.begin_other (by omega), Roll.begin_other (by omega)]
    exact h.carried

/-- What a sweep leaves behind, where the clauses before its start are `early` and those that were kept are
`late`, each with its number. -/
structure Swept (s : Store) (age start : Nat) (early late : List (Nat × Nat)) (es : List Entry) (t : Store) :
    Prop where
  /-- The walk is good. -/
  chain : t.Chain 0
  /-- The epoch is the next one. -/
  epoch : t.epoch = age + 1
  /-- There is no padding between clauses that were kept. -/
  words : t.words.size = min start s.words.size + span es
  /-- No clause is as long as padding. -/
  room : ∀ o ∈ t.offsets, t.sizeAt o < padding
  /-- Where the clauses before the start were. -/
  places : early.map Prod.snd = (s.cut (min start s.words.size) (age + 1)).offsets
  /-- Where the clauses are. -/
  offsets : t.offsets = (early ++ late).map Prod.snd
  /-- The clauses before the start. -/
  same : ∀ x ∈ early, t.recordAt x.2 = s.recordAt x.2
  /-- The clauses that were kept. -/
  kept : es = late.map fun x => ⟨x.1, t.recordAt x.2⟩

theorem Tied.swept (h : Tied roll c l) {start passed : Nat} (judge : Judge)
    (hallow : c.Allows (.sweep start passed judge)) (hfew : l.age < greatestWord) :
    ∃ late t count, c.store.compact start judge.visitor (0, []) =
        (t, ⟨min start c.store.words.size, l.age, l.age + 1⟩, count, late.map fun x => ⟨x.2, l.age + 1⟩) ∧
      Swept c.store l.age start ((roll l.age).take passed) late (judge.kept (l.entries.drop passed)) t := by
  obtain ⟨hq, hpassed⟩ := hallow
  have hepoch : nextEpoch c.store.epoch = l.age + 1 := by rw [h.epoch, nextEpoch_of_lt hfew]
  rw [← hq.length_cut h.chain (l.age + 1)] at hpassed
  have hoff := hq.offsets h.chain (l.age + 1)
  have hearly : ((roll l.age).take passed).map Prod.snd =
      (c.store.cut (min start c.store.words.size) (l.age + 1)).offsets := by
    rw [List.map_take, h.offsets, hoff, ← hpassed, List.take_left]
  have hes : (l.entries.drop passed).map Entry.clause =
      (c.store.offsetsFrom (min start c.store.words.size)).map c.store.recordAt := by
    rw [h.entries, List.map_drop, List.map_map]
    show ((roll l.age).map (c.store.recordAt ∘ Prod.snd)).drop passed = _
    rw [← List.map_map, h.offsets, ← List.map_drop, hoff, ← hpassed, List.drop_left]
  obtain ⟨news, t, x, garbage, hcomp, hsweep⟩ := compact_compacts h.chain hq judge hes h.room
  have hlen : (c.store.offsetsFrom (min start c.store.words.size)).length = (l.entries.drop passed).length := by
    simpa using (congrArg List.length hes).symm
  have hlate := hcomp.late
  have hsize := hcomp.size
  rw [hlen, List.take_length] at hlate hsize
  -- the numbers of the clauses that were kept, with their offsets
  have hcount : news.length = (judge.kept (l.entries.drop passed)).length := by
    simpa using congrArg List.length hlate
  have hsnd : (((judge.kept (l.entries.drop passed)).map Entry.token).zip news).map Prod.snd = news :=
    List.map_snd_zip (by simp [hcount])
  have hoffsets := hcomp.offsets
  rw [hepoch, ← hearly] at hoffsets
  have hmem : ∀ o ∈ ((roll l.age).take passed).map Prod.snd, o ∈ c.store.offsets ∧ t.recordAt o = c.store.recordAt o :=
    fun o ho => by
      rw [hearly] at ho
      exact ⟨((hq.mem_cut h.chain).1 ho).1, hcomp.early o (hepoch ▸ ho)⟩
  have hsame : ({ t with garbage } : Store).offsetsFrom 0 = t.offsetsFrom 0 :=
    @offsetsFrom_of_words t { t with garbage } rfl 0 hcomp.chain
  refine ⟨((judge.kept (l.entries.drop passed)).map Entry.token).zip news, { t with garbage }, x.1, ?_, {
    chain := @Chain.of_words t { t with garbage } rfl 0 hcomp.chain
    epoch := hcomp.epoch.trans hepoch
    words := hsize
    room := fun o ho => ?_
    places := hearly
    offsets := ?_
    same := fun x hx => (hmem x.2 (List.mem_map_of_mem hx)).2
    kept := (map_zip_tokens hlate).symm }⟩
  · have hrefs : x.2 = (((judge.kept (l.entries.drop passed)).map Entry.token).zip news).map
        fun y => ⟨y.2, l.age + 1⟩ := by
      rw [hcomp.refs, hepoch]
      nth_rewrite 1 [← hsnd]
      rw [List.map_map]
      rfl
    rw [hsweep, hepoch, ← hrefs, h.epoch]
  · replace ho : o ∈ t.offsets := by rwa [Store.offsets, hsame] at ho
    show t.sizeAt o < padding
    rw [← (hcomp.chain.mem ho).2.size_recordAt]
    rw [hoffsets] at ho
    rcases List.mem_append.1 ho with ho | ho
    · obtain ⟨hin, hrec⟩ := hmem o ho
      rw [hrec, (h.chain.mem hin).2.size_recordAt]
      exact h.room o hin
    · have hclause : t.recordAt o ∈ (judge.kept (l.entries.drop passed)).map Entry.clause :=
        hlate ▸ List.mem_map_of_mem ho
      obtain ⟨e, he, heq⟩ := List.mem_map.1 hclause
      exact heq ▸ Judge.size_kept (fun e he => h.size_entry (List.mem_of_mem_drop he)) e he
  · rw [List.map_append, hsnd]
    exact hsame.trans hoffsets

section Swept

variable {start passed : Nat} {late : List (Nat × Nat)} {es : List Entry} {t : Store}

theorem Swept.tokens {s : Store} {age : Nat} {early : List (Nat × Nat)} (hs : Swept s age start early late es t) :
    es.map Entry.token = late.map Prod.fst := by
  rw [hs.kept, List.map_map]
  rfl

/-- Of the clauses that a sweep leaves behind, each has the number that it had. -/
theorem Tied.sublist_swept (h : Tied roll c l) (judge : Judge)
    (hs : Swept c.store l.age start ((roll l.age).take passed) late (judge.kept (l.entries.drop passed)) t) :
    (((roll l.age).take passed ++ late).map Prod.fst).Sublist ((roll l.age).map Prod.fst) := by
  have hentries : l.entries.map Entry.token = (roll l.age).map Prod.fst := by
    rw [h.entries, List.map_map]
    rfl
  have hdrop := judge.token_kept (l.entries.drop passed)
  rw [hs.tokens, List.map_drop, hentries] at hdrop
  rw [List.map_append, ← List.take_append_drop passed ((roll l.age).map Prod.fst), List.map_take]
  exact (List.Sublist.refl _).append hdrop

/-- The new references to the clauses that a sweep kept name them. -/
theorem Swept.names {s : Store} {age : Nat} {early : List (Nat × Nat)} (hs : Swept s age start early late es t) :
    List.Forall₂ (Names (roll.begin (age + 1) (early ++ late)) (age + 1)) (late.map fun x => ⟨x.2, age + 1⟩)
      (es.map fun e => ⟨e.token, age + 1⟩) := by
  have hnames : (es.map fun e => (⟨e.token, age + 1⟩ : Name)) = late.map fun x => ⟨x.1, age + 1⟩ := by
    have htokens := congrArg (List.map fun n => (⟨n, age + 1⟩ : Name)) hs.tokens
    rwa [List.map_map, List.map_map] at htokens
  rw [hnames, List.forall₂_map_left_iff, List.forall₂_map_right_iff, List.forall₂_same]
  refine fun x hx => ⟨rfl, Nat.le_refl _, ?_⟩
  rw [Roll.begin_self]
  exact List.mem_append_right _ hx

/-- The relocation of a sweep tells the clauses before its start by their numbers. -/
theorem Tied.moved_swept (h : Tied roll c l) (hq : c.store.Seam (min start c.store.words.size))
    (hs : Swept c.store l.age start ((roll l.age).take passed) late es t) :
    Moved (roll.begin (l.age + 1) ((roll l.age).take passed ++ late)) l.age
      ⟨min start c.store.words.size, l.age, l.age + 1⟩ (((roll l.age).take passed).map Prod.fst) := by
  have hfst : ∀ x ∈ roll l.age, x ∈ (roll l.age).take passed ↔ x.1 ∈ ((roll l.age).take passed).map Prod.fst :=
    fun x hx => mem_take_of_nodup (h.ordered.imp Nat.ne_of_lt) hx passed
  have hsnd : ∀ x ∈ roll l.age, x ∈ (roll l.age).take passed ↔ x.2 ∈ ((roll l.age).take passed).map Prod.snd :=
    fun x hx => mem_take_of_nodup (h.offsets ▸ h.chain.nodup) hx passed
  have hold : roll.begin (l.age + 1) ((roll l.age).take passed ++ late) l.age = roll l.age :=
    Roll.begin_other (Nat.ne_of_lt (Nat.lt_succ_self _)) _
  refine ⟨rfl, rfl, ?_, ?_⟩
  · rw [hold]
    intro x hx
    rw [← hfst x hx, hsnd x hx, hs.places, hq.mem_cut h.chain]
    exact ⟨fun hlt => ⟨h.offsets ▸ List.mem_map_of_mem hx, hlt⟩, And.right⟩
  · rw [hold, Roll.begin_self]
    intro x hx hx'
    rw [← hfst x hx] at hx'
    exact List.mem_append_left _ hx'

end Swept

theorem Tied.sweep (h : Tied roll c l) {start passed : Nat} (judge : Judge)
    (hallow : c.Allows (.sweep start passed judge)) (hfew : l.age < greatestWord) :
    ∃ roll, Tied roll (c.step (.sweep start passed judge)).2 (l.step (.sweep start passed judge)).2 := by
  obtain ⟨late, t, count, hsweep, hs⟩ := h.swept judge hallow hfew
  obtain ⟨hq, -⟩ := hallow
  have hsub := h.sublist_swept judge hs
  simp only [Client.step, Ledger.step, hsweep]
  refine ⟨roll.begin (l.age + 1) ((roll l.age).take passed ++ late), ?_⟩
  have htokens : (l.entries.take passed).map Entry.token = ((roll l.age).take passed).map Prod.fst := by
    rw [h.entries, ← List.map_take, List.map_map]
    rfl
  rw [htokens]
  generalize htoks : ((roll l.age).take passed).map Prod.fst = toks
  have hage : (l.stayed ++ [toks]).length = l.age + 1 := List.length_append
  have hnow : roll.begin (l.age + 1) ((roll l.age).take passed ++ late) (l.stayed ++ [toks]).length =
      (roll l.age).take passed ++ late := by rw [hage, Roll.begin_self]
  refine {
    chain := hs.chain
    epoch := hs.epoch.trans hage.symm
    words := by
      show t.words.size = min start l.words + span _
      rw [hs.words, h.words]
    room := hs.room
    offsets := by
      show (roll.begin _ _ (l.stayed ++ _).length).map _ = _
      rw [hnow, hs.offsets]
    entries := ?_
    ordered := by
      show ((roll.begin _ _ (l.stayed ++ _).length).map _).Pairwise _
      rw [hnow]
      exact h.ordered.sublist hsub
    issued := fun x hx => ?_
    held := by
      show List.Forall₂ (Names _ (l.stayed ++ _).length) _ _
      rw [hage]
      exact List.rel_append (h.held.imp fun r n hn => hn.begin _) hs.names
    moves := by
      show (c.moves ++ _).length = (l.stayed ++ _).length
      rw [List.length_append, List.length_append, h.moves]
      rfl
    moved := fun m t' tokens ht hts => ?_ }
  · show l.entries.take passed ++ _ = (roll.begin _ _ (l.stayed ++ _).length).map _
    rw [hnow, List.map_append, ← hs.kept, h.entries, ← List.map_take]
    exact congrArg (· ++ _) (List.map_congr_left fun x hx => by rw [hs.same x hx])
  · replace hx : x ∈ roll.begin _ _ (l.stayed ++ _).length := hx
    rw [hnow] at hx
    obtain ⟨y, hy, heq⟩ := List.mem_map.1 (hsub.subset (List.mem_map_of_mem (f := Prod.fst) hx))
    exact heq ▸ h.issued y hy
  · replace ht : (c.moves ++ [_])[m]? = some t' := ht
    replace hts : (l.stayed ++ [toks])[m]? = some tokens := hts
    by_cases hm : m < l.age
    · rw [List.getElem?_append_left (by rw [h.moves]; exact hm)] at ht
      rw [List.getElem?_append_left hm] at hts
      exact (h.moved m t' tokens ht hts).begin hm _
    · obtain rfl : m = l.age := by
        have := (List.getElem?_eq_some_iff.1 hts).1
        rw [hage] at this
        omega
      rw [List.getElem?_append_right (show c.moves.length ≤ l.age from Nat.le_of_eq h.moves), h.moves, Ledger.age,
        Nat.sub_self] at ht
      rw [List.getElem?_append_right (show l.stayed.length ≤ l.age from Nat.le_refl _), Ledger.age, Nat.sub_self] at hts
      obtain rfl := Option.some.inj ht
      obtain rfl := Option.some.inj hts
      exact htoks ▸ h.moved_swept hq hs

/-! ## Every operation -/

/-- Carrying a reference over a sweep is answered as the ledger says. -/
theorem Tied.retag (h : Tied roll c l) (i m : Nat) :
    (c.step (.retag i m)).1 = (l.step (.retag i m)).1 ∧ Tied roll (c.step (.retag i m)).2 (l.step (.retag i m)).2 := by
  simp only [Client.step, Ledger.step]
  rcases h.name i with ⟨r, n, hr, hl, hn⟩ | ⟨hr, hl⟩
  · rcases h.move m with ⟨t, tokens, ht, hs, hlt, hmoved⟩ | ⟨ht, hs⟩
    · simp only [hr, hl, ht, hs, Relocation.retag, hn.retag_iff hmoved]
      by_cases hiff : n.age = m ∧ n.token ∈ tokens
      · simp only [if_pos hiff]
        exact ⟨trivial, h.hold (.cons ⟨hmoved.new, hlt, hmoved.carried _ (hiff.1 ▸ hn.mem) hiff.2⟩ .nil)⟩
      · simp only [if_neg hiff]
        exact ⟨trivial, h⟩
    · simp only [hr, hl, ht, hs]
      exact ⟨trivial, h⟩
  · simp only [hr, hl]
    exact ⟨trivial, h⟩

/-- Looking at a clause is answered as the ledger says. -/
theorem Tied.look (h : Tied roll c l) (i : Nat) : (c.step (.read i)).1 = (l.step (.read i)).1 := by
  simp only [Client.step, Ledger.step]
  rcases h.name i with ⟨r, n, hr, hl, hn⟩ | ⟨hr, hl⟩
  · rw [hr, hl, Option.elim_some, Option.elim_some, h.read hn]
  · rw [hr, hl]
    rfl

/-- Every operation that is allowed is answered alike, and keeps a store and its ledger tied. -/
theorem Tied.step (h : Tied roll c l) {op : Op} (hallow : c.Allows op)
    (hfew : op.isSweep = true → l.age < greatestWord) :
    (c.step op).1 = (l.step op).1 ∧ ∃ roll, Tied roll (c.step op).2 (l.step op).2 := by
  cases op with
  | allocate ls redundant glue => exact h.allocate ls redundant glue
  | read i => exact ⟨h.look i, roll, h⟩
  | references => exact ⟨congrArg Answer.clauses h.mirrors.references, roll, h.hold h.references⟩
  | markGarbage i => exact (h.markGarbage i).imp_right fun h => ⟨roll, h⟩
  | shrink i n => exact (h.shrink i n).imp_right fun h => ⟨roll, h⟩
  | edit i e => exact (h.edit i e).imp_right fun h => ⟨roll, h⟩
  | sweep start passed judge => exact ⟨rfl, h.sweep judge hallow (hfew rfl)⟩
  | retag i m => exact (h.retag i m).imp_right fun h => ⟨roll, h⟩

/-! ## Every list of operations -/

theorem Ledger.age_through (l : Ledger) (i : Nat) (y : Record → Except Fault (Answer × Record)) :
    (l.through i y).2.age = l.age := by
  unfold Ledger.through
  split
  · rfl
  · split <;> rfl

/-- Only a sweep begins an epoch. -/
theorem Ledger.age_step (l : Ledger) (op : Op) :
    (l.step op).2.age = l.age + if op.isSweep then 1 else 0 := by
  cases op with
  | allocate ls redundant glue =>
    simp only [Ledger.step]
    split
    · rfl
    · split <;> rfl
  | sweep start passed judge => exact List.length_append
  | retag i m =>
    simp only [Ledger.step]
    split
    · split <;> rfl
    · rfl
  | read i => rfl
  | references => rfl
  | markGarbage i => exact l.age_through i _
  | shrink i n => exact l.age_through i _
  | edit i e => exact l.age_through i _

/-- A list of operations that are allowed is answered alike, and keeps a store and its ledger tied. -/
theorem Tied.run (h : Tied roll c l) {ops : List Op} (hlegal : Legal c ops)
    (hfew : l.age + sweeps ops ≤ greatestWord) :
    (c.run ops).1 = (l.run ops).1 ∧ ∃ roll, Tied roll (c.run ops).2 (l.run ops).2 := by
  induction ops generalizing roll c l with
  | nil => exact ⟨rfl, roll, h⟩
  | cons op ops ih =>
    obtain ⟨hallow, hrest⟩ := hlegal
    have hcount : sweeps (op :: ops) = sweeps ops + if op.isSweep then 1 else 0 := List.countP_cons
    obtain ⟨hanswer, roll, hstep⟩ := h.step hallow fun hs => by
      rw [if_pos hs] at hcount
      omega
    obtain ⟨hanswers, hrun⟩ := ih hstep hrest (by rw [l.age_step]; omega)
    exact ⟨congrArg₂ List.cons hanswer hanswers, hrun⟩

theorem tied_empty : Tied (fun _ => []) {} {} where
  chain := .done
  epoch := rfl
  words := rfl
  room o ho := by
    rw [show ({} : Client).store.offsets = [] from offsetsFrom_done (Nat.le_refl _)] at ho
    cases ho
  offsets := (offsetsFrom_done (Nat.le_refl _)).symm
  entries := rfl
  ordered := .nil
  issued x hx := nomatch hx
  held := .nil
  moves := rfl
  moved m t tokens ht := by cases ht

/-- Every list of operations on an empty store, with sweeps that begin where no clause lies and fewer of them
than there are epochs, is answered as if the store were a list of clauses, and so is what is seen afterwards. -/
theorem run_mirrors {ops : List Op} (hlegal : Legal {} ops) (hfew : sweeps ops < 2 ^ 32) :
    (Client.run {} ops).1 = (Ledger.run {} ops).1 ∧ Mirrors (Client.run {} ops).2 (Ledger.run {} ops).2 := by
  have hage : ({} : Ledger).age + sweeps ops ≤ greatestWord := by
    show 0 + _ ≤ 4294967295
    omega
  obtain ⟨hanswers, roll, h⟩ := tied_empty.run hlegal hage
  exact ⟨hanswers, h.mirrors⟩

instance (c : Client) : (op : Op) → Decidable (c.Allows op)
  | .sweep start passed _ => inferInstanceAs (Decidable (c.store.Seam (min start c.store.words.size) ∧
      c.store.offsets.countP (· < start) = passed))
  | .allocate .. | .read _ | .references | .markGarbage _ | .shrink .. | .edit .. | .retag .. =>
    inferInstanceAs (Decidable True)

instance : (ops : List Op) → (c : Client) → Decidable (Legal c ops)
  | [], _ => inferInstanceAs (Decidable True)
  | op :: ops, c =>
    have : Decidable (Legal (c.step op).2 ops) := instDecidableLegal ops (c.step op).2
    inferInstanceAs (Decidable (c.Allows op ∧ Legal (c.step op).2 ops))

/-- Four clauses are stored.  The first and the third are cut, the second becomes garbage.  A sweep that begins where the
second one is drops it, and keeps four literals of the others, as far as there are so many.  Another sweep begins at the
front, and moves clauses by one word, over where the first one was cut. -/
def journey : List Op :=
  [.allocate #[⟨0⟩, ⟨2⟩, ⟨4⟩, ⟨6⟩] false 0, .allocate #[⟨1⟩, ⟨3⟩, ⟨5⟩] true 2,
    .allocate #[⟨8⟩, ⟨10⟩, ⟨12⟩, ⟨14⟩] true 3, .allocate #[⟨9⟩, ⟨11⟩, ⟨13⟩, ⟨15⟩, ⟨17⟩] true 4,
    .shrink 0 3, .shrink 2 3, .edit 0 (.swap 0 2), .edit 0 (.flags fun f => { f with used := 5 }),
    .edit 3 (.searched 4), .markGarbage 1, .read 2,
    .sweep 8 1 fun _ c => if c.flags.garbage then .drop else .keep [.swap 0 2] 4,
    .retag 0 0, .retag 1 0, .read 0, .read 4, .read 5, .read 6,
    .sweep 0 0 fun _ _ => .keep [] 9, .read 6, .read 7, .read 8, .read 9]

/-- The mark of having been cut is there until a sweep keeps the clause. -/
theorem run_mirrors_journey :
    Legal {} journey ∧ sweeps journey < 2 ^ 32 ∧
      ((Client.run {} journey).1 = (Ledger.run {} journey).1 ∧
        Mirrors (Client.run {} journey).2 (Ledger.run {} journey).2) ∧
      (Client.run {} journey).1.drop 10 = [.clause ⟨3, { redundant := true, shrunken := true }, 2, #[⟨8⟩, ⟨10⟩, ⟨12⟩]⟩,
        .done, .done, .lost, .refused .staleReference,
        .clause ⟨3, { redundant := true }, 2, #[⟨12⟩, ⟨10⟩, ⟨8⟩]⟩,
        .clause ⟨4, { redundant := true }, 2, #[⟨13⟩, ⟨11⟩, ⟨9⟩, ⟨15⟩]⟩,
        .clause ⟨0, { used := 2, shrunken := true }, 2, #[⟨4⟩, ⟨2⟩, ⟨0⟩]⟩,
        .done, .refused .staleReference,
        .clause ⟨0, { used := 2 }, 2, #[⟨4⟩, ⟨2⟩, ⟨0⟩]⟩,
        .clause ⟨3, { redundant := true }, 2, #[⟨12⟩, ⟨10⟩, ⟨8⟩]⟩,
        .clause ⟨4, { redundant := true }, 2, #[⟨13⟩, ⟨11⟩, ⟨9⟩, ⟨15⟩]⟩] := by
  have hlegal : Legal {} journey := by decide +kernel
  have hfew : sweeps journey < 2 ^ 32 := by decide
  exact ⟨hlegal, hfew, run_mirrors hlegal hfew, by decide +kernel⟩

end Store

end ClauseLearning

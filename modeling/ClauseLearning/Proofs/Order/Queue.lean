import ClauseLearning.Order.Queue
import Mathlib.Data.List.Perm.Subperm
import Mathlib.Tactic.ByContra

/-!
# The queue of variables

The links of a queue spell out a list of variables.  A change of the links is right if it spells out the
list that one expects, and a search that goes back along the links is a search of a part of the list.

* `VarQueue.Spells` — the links spell out a list, along which stamps increase.
* `VarQueue.Spells.enqueue`, `VarQueue.Spells.dequeue` — the two changes of the list.
* `VarQueue.searchBack_eq` — a search as a search of a list.
* `VarQueue.Covers` — every variable of some kind is at or before the place where a search starts.
* `VarQueue.Spells.mem_of_stamp`, `VarQueue.Spells.stampOf_le` — the list is ordered by stamps.
* `VarQueue.Spells.bumpAll`, `VarQueue.Spells.growTo`, `VarQueue.Spells.deactivate` — what the operations do to
  the list, and that nothing gets lost for a search.
-/

namespace ClauseLearning

namespace VarQueue

variable {q : VarQueue} {L xs ys : List Nat} {v w : Nat}

/-! ## Places in a list -/

section Places

variable {as bs : List Nat}

/-- A place in two lists, one after the other, is in the one or in the other. -/
theorem split_append (h : xs ++ ys = as ++ w :: bs) :
    (∃ cs, xs = as ++ w :: cs ∧ bs = cs ++ ys) ∨ ∃ cs, as = xs ++ cs ∧ ys = cs ++ w :: bs := by
  rcases List.append_eq_append_iff.1 h with ⟨cs, rfl, rfl⟩ | ⟨cs, rfl, hc⟩
  · exact .inr ⟨cs, rfl, rfl⟩
  · cases cs with
    | nil => exact .inr ⟨[], by simp, hc.symm⟩
    | cons c cs =>
      obtain ⟨rfl, rfl⟩ := List.cons.inj hc
      exact .inl ⟨cs, rfl, rfl⟩

/-- Without duplicates only what has nothing before it comes first. -/
theorem head?_eq_some_iff (h : (as ++ w :: bs).Nodup) : (as ++ w :: bs).head? = some w ↔ as = [] := by
  cases as with
  | nil => simp
  | cons c as =>
    have hne : c ≠ w := by
      rintro rfl
      simp at h
    simp [hne]

/-- And only what has nothing after it comes last. -/
theorem getLast?_eq_some_iff (h : (as ++ w :: bs).Nodup) : (as ++ w :: bs).getLast? = some w ↔ bs = [] := by
  rcases List.eq_nil_or_concat bs with rfl | ⟨bs, c, rfl⟩
  · simp
  · have hne : c ≠ w := by
      rintro rfl
      simp [List.nodup_append] at h
    simp [List.getLast?_append, List.getLast?_cons, hne]

theorem not_mem_of_nodup (h : (xs ++ v :: ys).Nodup) : v ∉ xs ++ ys := by
  have hperm : (xs ++ v :: ys).Perm (v :: (xs ++ ys)) := List.perm_middle
  exact (List.nodup_cons.1 (hperm.nodup_iff.1 h)).1

end Places

/-! ## Links -/

theorem link_modify (q : VarQueue) (f : Link → Link) (hv : v < q.links.size) :
    (q.modify v f).link w = if w = v then f (q.link v) else q.link w := by
  simp only [link, modify, Array.getD_eq_getD_getElem?, Array.getElem?_modify]
  by_cases h : w = v
  · subst h
    simp [hv]
  · simp [h, Ne.symm h]

@[simp] theorem size_modify (q : VarQueue) (v : Nat) (f : Link → Link) :
    (q.modify v f).links.size = q.links.size := by simp [modify]

@[simp] theorem size_setAfter (q : VarQueue) (u x : Option Nat) :
    (q.setAfter u x).links.size = q.links.size := by cases u <;> simp [setAfter]

@[simp] theorem size_setBefore (q : VarQueue) (u x : Option Nat) :
    (q.setBefore u x).links.size = q.links.size := by cases u <;> simp [setBefore]

@[simp] theorem link_replaceSearch (q : VarQueue) (v : Nat) (x : Option Nat) :
    (q.replaceSearch v x).link w = q.link w := by
  unfold replaceSearch
  split <;> rfl

@[simp] theorem links_replaceSearch (q : VarQueue) (v : Nat) (x : Option Nat) :
    (q.replaceSearch v x).links = q.links := by
  unfold replaceSearch
  split <;> rfl

theorem link_setAfter {u : Option Nat} (x : Option Nat) (hu : ∀ y, u = some y → y < q.links.size) :
    (q.setAfter u x).link w = if u = some w then { q.link w with after := x } else q.link w := by
  cases u with
  | none => simp [setAfter, link]
  | some u =>
    rw [setAfter, link_modify q _ (hu u rfl)]
    by_cases h : w = u
    · simp [h]
    · simp [h, Ne.symm h]

theorem link_setBefore {u : Option Nat} (x : Option Nat) (hu : ∀ y, u = some y → y < q.links.size) :
    (q.setBefore u x).link w = if u = some w then { q.link w with before := x } else q.link w := by
  cases u with
  | none => simp [setBefore, link]
  | some u =>
    rw [setBefore, link_modify q _ (hu u rfl)]
    by_cases h : w = u
    · simp [h]
    · simp [h, Ne.symm h]

/-- The fields of a queue beside its links and its ends. -/
theorem rest_setAfter (q : VarQueue) (u x : Option Nat) :
    (q.setAfter u x).first = (if u = none then x else q.first) ∧
      (q.setAfter u x).last = q.last ∧ (q.setAfter u x).search = q.search ∧
      (q.setAfter u x).stamp = q.stamp := by
  cases u <;> simp [setAfter, modify]

theorem rest_setBefore (q : VarQueue) (u x : Option Nat) :
    (q.setBefore u x).last = (if u = none then x else q.last) ∧
      (q.setBefore u x).first = q.first ∧ (q.setBefore u x).search = q.search ∧
      (q.setBefore u x).stamp = q.stamp := by
  cases u <;> simp [setBefore, modify]

theorem rest_replaceSearch (q : VarQueue) (v : Nat) (x : Option Nat) :
    (q.replaceSearch v x).search = (if q.search = some v then x else q.search) ∧
      (q.replaceSearch v x).first = q.first ∧ (q.replaceSearch v x).last = q.last ∧
      (q.replaceSearch v x).stamp = q.stamp := by
  unfold replaceSearch
  split <;> simp_all

/-! ## The list -/

/-- The links spell out a list of variables. -/
structure Spells (q : VarQueue) (L : List Nat) : Prop where
  /-- The first variable. -/
  first : q.first = L.head?
  /-- The last variable. -/
  last : q.last = L.getLast?
  /-- Links go to the neighbours of a variable. -/
  links : ∀ xs v ys, L = xs ++ v :: ys →
    (q.link v).before = xs.getLast? ∧ (q.link v).after = ys.head?
  /-- What is in the queue. -/
  contains : ∀ v, q.contains v = true ↔ v ∈ L
  /-- Stamps increase. -/
  sorted : L.Pairwise fun v w => q.stampOf v < q.stampOf w
  /-- No stamp is above the greatest. -/
  bound : ∀ v ∈ L, q.stampOf v ≤ q.stamp
  /-- A search starts in the queue. -/
  search : ∀ s, q.search = some s → s ∈ L

namespace Spells

theorem nodup (h : Spells q L) : L.Nodup :=
  h.sorted.imp fun hlt he => by rw [he] at hlt; exact Nat.lt_irrefl _ hlt

theorem lt_size (h : Spells q L) (hv : v ∈ L) : v < q.links.size := by
  by_contra hc
  have := (h.contains v).2 hv
  rw [VarQueue.contains, link, Array.getD_eq_getD_getElem?,
    Array.getElem?_eq_none (Nat.le_of_not_lt hc)] at this
  simp at this

/-- No more variables are in the queue than there are links. -/
theorem length_le (h : Spells q L) : L.length ≤ q.links.size := by
  have hsub : ∀ v ∈ L, v ∈ List.range q.links.size := fun v hv => List.mem_range.2 (h.lt_size hv)
  have hle := (h.nodup.subperm hsub).length_le
  rwa [List.length_range] at hle

/-- The links are followed from one place on. -/
theorem follow_eq (h : Spells q (xs ++ ys)) {n : Nat} (hn : ys.length ≤ n) : q.follow n ys.head? = ys := by
  induction ys generalizing n xs with
  | nil => cases n <;> rfl
  | cons v ys ih =>
    obtain ⟨n, rfl⟩ := Nat.exists_eq_add_of_le' hn
    have hafter : (q.link v).after = ys.head? := (h.links xs v ys rfl).2
    have h' : Spells q ((xs ++ [v]) ++ ys) := by simpa using h
    rw [List.head?_cons, List.length_cons, ← Nat.add_assoc, follow, hafter, ih h' (Nat.le_add_left ..)]

/-- The list that the links spell out is found by following them. -/
theorem toList_eq (h : Spells q L) : q.toList = L := by
  have hfollow := follow_eq (show Spells q ([] ++ L) from h) h.length_le
  rwa [toList, h.first]

/-! ### Putting a variable at the end -/

theorem link_enqueue (h : Spells q L) (hv : v ∉ L) (hlt : v < q.links.size) (w : Nat) :
    (q.enqueue v).link w =
      if w = v then { before := q.last, after := none, stamp := q.stamp + 1, enqueued := true }
      else if q.last = some w then { q.link w with after := some v } else q.link w := by
  have hlast : ∀ y, q.last = some y → y ∈ L := fun y hy => List.mem_of_getLast? (h.last ▸ hy)
  have hlink : (q.enqueue v).link w = ((q.modify v fun _ =>
      { before := q.last, after := none, stamp := q.stamp + 1, enqueued := true }).setAfter
        q.last (some v)).link w := rfl
  rw [hlink, link_setAfter _ (fun y hy => by
    rw [size_modify]
    exact h.lt_size (hlast y hy)), link_modify q _ hlt]
  by_cases hw : w = v
  · rw [hw, if_neg fun he => hv (hlast v he), if_pos rfl, if_pos rfl]
  · simp [hw]

theorem first_enqueue (h : Spells q L) (v : Nat) : (q.enqueue v).first = (L ++ [v]).head? := by
  have hfirst := (rest_setAfter (q.modify v fun _ =>
    { before := q.last, after := none, stamp := q.stamp + 1, enqueued := true }) q.last (some v)).1
  refine hfirst.trans ?_
  cases L with
  | nil => simp [h.last]
  | cons x L => simp [h.last, VarQueue.modify, h.first]

theorem links_enqueue (h : Spells q L) (hv : v ∉ L) (hlt : v < q.links.size) (as : List Nat) (w : Nat)
    (bs : List Nat) (he : L ++ [v] = as ++ w :: bs) :
    ((q.enqueue v).link w).before = as.getLast? ∧ ((q.enqueue v).link w).after = bs.head? := by
  have hlink := h.link_enqueue hv hlt w
  rcases split_append he with ⟨cs, rfl, rfl⟩ | ⟨cs, rfl, hc⟩
  · -- another variable gets a new neighbour only if it was the last one
    have hwv : w ≠ v := by
      rintro rfl
      exact hv (by simp)
    obtain ⟨hbefore, hafter⟩ := h.links as w cs rfl
    rw [if_neg hwv, h.last] at hlink
    by_cases hcs : cs = []
    · rw [if_pos ((getLast?_eq_some_iff h.nodup).2 hcs)] at hlink
      rw [hlink, hcs]
      exact ⟨hbefore, rfl⟩
    · rw [if_neg fun hw => hcs ((getLast?_eq_some_iff h.nodup).1 hw)] at hlink
      rw [hlink]
      refine ⟨hbefore, hafter.trans ?_⟩
      rw [List.head?_append_of_ne_nil cs hcs]
  · obtain ⟨rfl, rfl, rfl⟩ : cs = [] ∧ w = v ∧ bs = [] := by
      cases cs with
      | nil => simpa [eq_comm] using hc
      | cons c cs => simp at hc
    rw [hlink, if_pos rfl, List.append_nil]
    exact ⟨h.last, rfl⟩

/-- A variable is put at the end. -/
theorem enqueue (h : Spells q L) (hv : v ∉ L) (hlt : v < q.links.size) :
    Spells (q.enqueue v) (L ++ [v]) ∧ (q.enqueue v).links.size = q.links.size ∧
      (q.enqueue v).search = q.search ∧
      (∀ w, w ≠ v → (q.enqueue v).stampOf w = q.stampOf w) ∧
      (q.enqueue v).stampOf v = q.stamp + 1 := by
  have hlink := h.link_enqueue hv hlt
  have hstamp : ∀ w, w ≠ v → (q.enqueue v).stampOf w = q.stampOf w := fun w hw => by
    rw [stampOf, hlink, if_neg hw]
    split <;> rfl
  have hstampv : (q.enqueue v).stampOf v = q.stamp + 1 := by rw [stampOf, hlink, if_pos rfl]
  have hsearch : (q.enqueue v).search = q.search := (rest_setAfter _ _ _).2.2.1
  have hne : ∀ w ∈ L, w ≠ v := fun w hw he => hv (he ▸ hw)
  refine ⟨⟨h.first_enqueue v, by simp [VarQueue.enqueue], h.links_enqueue hv hlt, fun w => ?_, ?_, ?_, fun s hs => ?_⟩,
    by simp [VarQueue.enqueue], hsearch, hstamp, hstampv⟩
  · rw [VarQueue.contains, hlink]
    by_cases hw : w = v
    · simp [hw]
    · have hin : (if q.last = some w then { q.link w with after := some v } else q.link w).enqueued =
          q.contains w := by split <;> rfl
      rw [if_neg hw, hin, h.contains]
      simp [hw]
  · rw [List.pairwise_append]
    refine ⟨?_, by simp, ?_⟩
    · exact h.sorted.imp_of_mem fun {x y} hx hy hlt => by
        rwa [hstamp x (hne x hx), hstamp y (hne y hy)]
    · intro x hx y hy
      rw [List.mem_singleton.1 hy, hstamp x (hne x hx), hstampv]
      exact Nat.lt_succ_of_le (h.bound x hx)
  · intro x hx
    have hs : (q.enqueue v).stamp = q.stamp + 1 := rfl
    rw [hs]
    rcases List.mem_append.1 hx with hx | hx
    · rw [hstamp x (hne x hx)]
      exact Nat.le_succ_of_le (h.bound x hx)
    · exact Nat.le_of_eq (by rw [List.mem_singleton.1 hx, hstampv])
  · rw [hsearch] at hs
    exact List.mem_append_left _ (h.search s hs)

/-! ### Taking a variable out -/

theorem link_dequeue (h : Spells q (xs ++ v :: ys)) (w : Nat) :
    (q.dequeue v).link w =
      if w = v then { q.link v with before := none, after := none, enqueued := false }
      else if ys.head? = some w then { q.link w with before := xs.getLast? }
      else if xs.getLast? = some w then { q.link w with after := ys.head? } else q.link w := by
  obtain ⟨hb, ha⟩ := h.links xs v ys rfl
  have hv : v < q.links.size := h.lt_size (by simp)
  have hx : ∀ y, xs.getLast? = some y → y ∈ xs := fun y hy => List.mem_of_getLast? hy
  have hy : ∀ y, ys.head? = some y → y ∈ ys := fun y hy => List.mem_of_head? hy
  simp only [VarQueue.dequeue, hb, ha]
  rw [link_modify _ _ (by simpa using hv), link_replaceSearch, link_replaceSearch,
    link_setBefore _ (fun y hy' => by simpa using h.lt_size (by simp [hy y hy'])),
    link_setAfter _ (fun y hy' => h.lt_size (by simp [hx y hy'])),
    link_setBefore _ (fun y hy' => by simpa using h.lt_size (by simp [hy y hy'])),
    link_setAfter _ (fun y hy' => h.lt_size (by simp [hx y hy']))]
  by_cases hw : w = v
  · subst hw
    have hn := not_mem_of_nodup h.nodup
    rw [if_pos rfl, if_pos rfl, if_neg fun he => hn (List.mem_append_right _ (hy w he)),
      if_neg fun he => hn (List.mem_append_left _ (hx w he))]
  · rw [if_neg hw, if_neg hw]
    by_cases hhead : ys.head? = some w
    · rw [if_pos hhead, if_pos hhead, if_neg]
      intro hlast
      exact (List.nodup_append.1 h.nodup).2.2 w (hx w hlast) w (List.mem_cons_of_mem _ (hy w hhead)) rfl
    · rw [if_neg hhead, if_neg hhead]

/-- The fields of a queue beside its links, once a variable is taken out. -/
theorem rest_dequeue (h : Spells q (xs ++ v :: ys)) :
    (q.dequeue v).first = (xs ++ ys).head? ∧ (q.dequeue v).last = (xs ++ ys).getLast? ∧
      (q.dequeue v).stamp = q.stamp ∧
      (q.dequeue v).search = if q.search = some v then xs.getLast? <|> ys.head? else q.search := by
  obtain ⟨hb, ha⟩ := h.links xs v ys rfl
  simp only [VarQueue.dequeue, hb, ha, modify]
  obtain ⟨r1, r2, r3, r4⟩ := rest_replaceSearch ((q.setAfter xs.getLast? ys.head?).setBefore
    ys.head? xs.getLast?) v (xs.getLast? <|> ys.head?)
  obtain ⟨b1, b2, b3, b4⟩ := rest_setBefore (q.setAfter xs.getLast? ys.head?) ys.head? xs.getLast?
  obtain ⟨a1, a2, a3, a4⟩ := rest_setAfter q xs.getLast? ys.head?
  refine ⟨?_, ?_, by rw [r4, b4, a4], by rw [r1, b3, a3]⟩
  · rw [r2, b2, a1, h.first]
    cases xs with
    | nil => simp
    | cons x xs => simp
  · rw [r3, b1, a2, h.last]
    cases ys with
    | nil => simp
    | cons y ys => simp [List.getLast?_append]

theorem links_dequeue (h : Spells q (xs ++ v :: ys)) (as : List Nat) (w : Nat) (bs : List Nat)
    (he : xs ++ ys = as ++ w :: bs) :
    ((q.dequeue v).link w).before = as.getLast? ∧ ((q.dequeue v).link w).after = bs.head? := by
  have hlink := h.link_dequeue w
  have hwv : w ≠ v := by
    rintro rfl
    exact not_mem_of_nodup h.nodup (he ▸ by simp)
  obtain ⟨hnx, hny, hdisjoint⟩ := List.nodup_append.1 h.nodup
  rw [if_neg hwv] at hlink
  rcases split_append he with ⟨cs, rfl, rfl⟩ | ⟨cs, rfl, rfl⟩
  · -- a variable before `v` gets a new neighbour only if `v` came next
    obtain ⟨hbefore, hafter⟩ := h.links as w (cs ++ v :: ys) (by simp)
    rw [if_neg fun hw => hdisjoint w (by simp) w (List.mem_cons_of_mem _ (List.mem_of_head? hw)) rfl] at hlink
    by_cases hcs : cs = []
    · rw [if_pos ((getLast?_eq_some_iff hnx).2 hcs)] at hlink
      rw [hlink, hcs]
      exact ⟨hbefore, rfl⟩
    · rw [if_neg fun hw => hcs ((getLast?_eq_some_iff hnx).1 hw)] at hlink
      rw [hlink]
      refine ⟨hbefore, hafter.trans ?_⟩
      rw [List.head?_append_of_ne_nil cs hcs, List.head?_append_of_ne_nil cs hcs]
  · -- and so does a variable after it
    obtain ⟨hbefore, hafter⟩ := h.links (xs ++ v :: cs) w bs (by simp)
    have hny' := (List.nodup_cons.1 hny).2
    by_cases hcs : cs = []
    · rw [if_pos ((head?_eq_some_iff hny').2 hcs)] at hlink
      rw [hlink, hcs, List.append_nil]
      exact ⟨rfl, hafter⟩
    · rw [if_neg fun hw => hcs ((head?_eq_some_iff hny').1 hw),
        if_neg fun hw => hdisjoint w (List.mem_of_getLast? hw) w (by simp) rfl] at hlink
      rw [hlink]
      refine ⟨hbefore.trans ?_, hafter⟩
      rw [List.getLast?_append_of_ne_nil _ (List.cons_ne_nil v cs), List.getLast?_append_of_ne_nil _ hcs,
        List.getLast?_cons_of_ne_nil hcs]

/-- A variable is taken out. -/
theorem dequeue (h : Spells q (xs ++ v :: ys)) :
    Spells (q.dequeue v) (xs ++ ys) ∧ (q.dequeue v).links.size = q.links.size ∧
      (∀ w, (q.dequeue v).stampOf w = q.stampOf w) ∧ (q.dequeue v).stamp = q.stamp ∧
      (q.dequeue v).search =
        if q.search = some v then xs.getLast? <|> ys.head? else q.search := by
  have hlink := h.link_dequeue
  have hvn := not_mem_of_nodup h.nodup
  obtain ⟨hfirst, hlast, hs, hsearch⟩ := h.rest_dequeue
  have hstamp : ∀ w, (q.dequeue v).stampOf w = q.stampOf w := fun w => by
    rw [stampOf, hlink]
    split
    · next he => rw [he]; rfl
    · split
      · rfl
      · split <;> rfl
  have hmem : ∀ w, w ∈ xs ++ v :: ys → w ≠ v → w ∈ xs ++ ys := fun w hw hne => by
    simp only [List.mem_append, List.mem_cons] at hw ⊢
    exact hw.imp_right fun hw => hw.resolve_left hne
  have hsub : (xs ++ ys).Sublist (xs ++ v :: ys) := by simp
  refine ⟨⟨hfirst, hlast, h.links_dequeue, fun w => ?_, ?_, fun w hw => ?_, fun s hs' => ?_⟩,
    by simp [VarQueue.dequeue], hstamp, hs, hsearch⟩
  · rw [VarQueue.contains, hlink]
    by_cases hw : w = v
    · rw [if_pos hw, hw]
      simpa using hvn
    · have hin : (if ys.head? = some w then { q.link w with before := xs.getLast? }
          else if xs.getLast? = some w then { q.link w with after := ys.head? }
          else q.link w).enqueued = q.contains w := by
        split
        · rfl
        · split <;> rfl
      rw [if_neg hw, hin, h.contains]
      exact ⟨fun hw' => hmem w hw' hw, fun hw' => hsub.mem hw'⟩
  · exact (h.sorted.sublist hsub).imp fun hlt => by rwa [hstamp, hstamp]
  · rw [hstamp, hs]
    exact h.bound w (hsub.mem hw)
  · rw [hsearch] at hs'
    split at hs'
    · cases hg : xs.getLast? with
      | some y =>
        rw [hg] at hs'
        obtain rfl : y = s := Option.some.inj hs'
        exact List.mem_append_left _ (List.mem_of_getLast? hg)
      | none =>
        rw [hg] at hs'
        exact List.mem_append_right _ (List.mem_of_head? hs')
    · next hne => exact hmem s (h.search s hs') fun he => hne (he ▸ hs')

/-! ### Where searches start, and more room -/

/-- A search may start anywhere in the queue. -/
theorem withSearch (h : Spells q L) {s : Option Nat} (hs : ∀ v, s = some v → v ∈ L) :
    Spells { q with search := s } L :=
  ⟨h.first, h.last, h.links, h.contains, h.sorted, h.bound, hs⟩

/-- More room changes nothing. -/
theorem grow (h : Spells q L) (n : Nat) :
    Spells { q with links := q.links ++ Array.replicate n {} } L := by
  have hlink : ∀ v, ({ q with links := q.links ++ Array.replicate n {} } : VarQueue).link v =
      q.link v := by
    intro v
    simp only [link, Array.getD_eq_getD_getElem?, Array.getElem?_append, Array.getElem?_replicate]
    by_cases hv : v < q.links.size
    · simp [hv]
    · rw [if_neg hv, Array.getElem?_eq_none (Nat.le_of_not_lt hv)]
      split <;> rfl
  refine ⟨h.first, h.last, fun xs v ys he => ?_, fun v => ?_, ?_, fun v hv => ?_, h.search⟩
  · rw [hlink]
    exact h.links xs v ys he
  · rw [VarQueue.contains, hlink]
    exact h.contains v
  · exact h.sorted.imp fun hlt => by simpa only [stampOf, hlink] using hlt
  · simpa only [stampOf, hlink] using h.bound v hv

end Spells

theorem spells_empty : Spells {} [] :=
  ⟨rfl, rfl, fun xs v ys he => by simp at he, fun v => by simp [VarQueue.contains, link],
    .nil, fun v hv => by simp at hv, fun s hs => by simp at hs⟩

/-! ## Searches -/

/-- A search from the end of a part of the list finds the last unassigned variable of that part. -/
theorem searchBack_eq (a : Assignment) (h : Spells q (xs ++ ys)) {steps : Nat}
    (hsteps : xs.length < steps) :
    q.searchBack a steps xs.getLast? = xs.reverse.find? fun v => a.valueOf v = .unassigned := by
  induction steps generalizing xs ys with
  | zero => omega
  | succ steps ih =>
    rcases List.eq_nil_or_concat xs with rfl | ⟨as, v, rfl⟩
    · rfl
    · simp only [List.concat_eq_append, List.getLast?_append, List.getLast?_singleton,
        Option.some_or, searchBack, List.reverse_append, List.reverse_singleton,
        List.singleton_append, List.find?_cons]
      by_cases hv : a.valueOf v = .unassigned
      · simp [hv]
      · rw [if_neg hv]
        simp only [hv, decide_false]
        rw [(h.links as v ys (by simp)).1]
        have h' : Spells q (as ++ v :: ys) := by simpa using h
        exact ih h' (by simp at hsteps; omega)

/-- Every variable of some kind is in the queue, not after the place where a search starts. -/
def Covers (q : VarQueue) (free : Nat → Prop) : Prop :=
  ∀ v, free v → ∃ s, q.search = some s ∧ q.stampOf v ≤ q.stampOf s

theorem Spells.represents_iff (h : Spells q L) (hv : v ∈ L) :
    q.represents v = true ↔ ∃ s, q.search = some s ∧ q.stampOf v ≤ q.stampOf s := by
  simp only [represents, (h.contains v).2 hv, Bool.true_and]
  cases q.search <;> simp

variable {free : Nat → Prop} {a : Assignment}

/-- In the list, what has a smaller stamp comes before. -/
theorem Spells.mem_of_stamp (h : Spells q (xs ++ v :: ys)) (hw : w ∈ xs ++ v :: ys)
    (hle : q.stampOf w ≤ q.stampOf v) : w ∈ xs ++ [v] := by
  rcases List.mem_append.1 hw with hw | hw
  · exact List.mem_append_left _ hw
  · rcases List.mem_cons.1 hw with rfl | hw
    · simp
    · have := (List.pairwise_cons.1 (List.pairwise_append.1 h.sorted).2.1).1 w hw
      omega

/-- And what comes before has no greater stamp. -/
theorem Spells.stampOf_le (h : Spells q (xs ++ v :: ys)) (hw : w ∈ xs ++ [v]) : q.stampOf w ≤ q.stampOf v := by
  rcases List.mem_append.1 hw with hw | hw
  · exact Nat.le_of_lt ((List.pairwise_append.1 h.sorted).2.2 w hw v (List.mem_cons_self ..))
  · exact Nat.le_of_eq (by rw [List.mem_singleton.1 hw])

/-- What is covered comes no later than the place where a search starts. -/
theorem Spells.mem_of_covers (h : Spells q (xs ++ v :: ys)) (hs : q.search = some v) (hc : q.Covers free)
    (hf : ∀ w, free w → w ∈ xs ++ v :: ys) (hw : free w) : w ∈ xs ++ [v] := by
  obtain ⟨s, hs', hle⟩ := hc w hw
  obtain rfl : v = s := Option.some.inj (hs.symm.trans hs')
  exact h.mem_of_stamp (hf w hw) hle

/-- The next variable is an unassigned one, if there is any.  Later searches start there. -/
theorem Spells.next (h : Spells q L) (hf : ∀ v, free v ↔ v ∈ L ∧ a.valueOf v = .unassigned)
    (hc : q.Covers free) :
    match q.next? a with
    | (some v, q') => free v ∧ Spells q' L ∧ q'.Covers free ∧ q'.links.size = q.links.size
    | (none, q') => (∀ v, ¬ free v) ∧ q' = q := by
  unfold next?
  cases hs : q.search with
  | none =>
    have : q.searchBack a (q.links.size + 1) none = none := rfl
    rw [this]
    refine ⟨fun v hv => ?_, rfl⟩
    obtain ⟨s, hs', -⟩ := hc v hv
    rw [hs] at hs'
    simp at hs'
  | some s =>
    obtain ⟨xs, ys, rfl⟩ := List.append_of_mem (h.search s hs)
    have hlen : (xs ++ [s]).length < q.links.size + 1 := by
      have hle := h.length_le
      simp only [List.length_append, List.length_cons, List.length_nil] at hle ⊢
      omega
    have h' : Spells q ((xs ++ [s]) ++ ys) := by simpa using h
    have hsearch := searchBack_eq a h' hlen
    rw [List.getLast?_append, List.getLast?_singleton, Option.some_or] at hsearch
    rw [hsearch]
    have hpart : ∀ w, free w → w ∈ xs ++ [s] := fun w hw =>
      h.mem_of_covers hs hc (fun w hw => ((hf w).1 hw).1) hw
    cases hfind : (xs ++ [s]).reverse.find? fun v => a.valueOf v = .unassigned with
    | none =>
      refine ⟨fun v hv => ?_, rfl⟩
      have := List.find?_eq_none.1 hfind v (List.mem_reverse.2 (hpart v hv))
      exact this (by simpa using ((hf v).1 hv).2)
    | some v =>
      obtain ⟨hv, as, bs, he, has⟩ := List.find?_eq_some_iff_append.1 hfind
      have hrev : xs ++ [s] = bs.reverse ++ v :: as.reverse := by
        have := congrArg List.reverse he
        simpa using this
      rw [hrev, List.append_assoc, List.cons_append] at h'
      have hL : xs ++ s :: ys = bs.reverse ++ v :: (as.reverse ++ ys) := by
        rw [List.append_cons, hrev, List.append_assoc, List.cons_append]
      have hvmem : v ∈ xs ++ s :: ys := by simp [hL]
      refine ⟨(hf v).2 ⟨hvmem, by simpa using hv⟩,
        h.withSearch fun u hu => Option.some.inj hu ▸ hvmem, fun w hw => ⟨v, rfl, ?_⟩, rfl⟩
      -- between `v` and the start of the search everything is assigned
      have hwas : w ∉ as.reverse := fun hwas => by
        have := has w (List.mem_reverse.1 hwas)
        simp [((hf w).1 hw).2] at this
      have hw' := hpart w hw
      rw [hrev, List.append_cons, List.mem_append] at hw'
      exact h'.stampOf_le (hw'.resolve_right hwas)

/-! ## Changes -/

theorem Spells.advanceSearch (h : Spells q L) (hv : v ∈ L) (hc : q.Covers free) :
    Spells (q.advanceSearch v) L ∧ (q.advanceSearch v).links = q.links ∧
      (q.advanceSearch v).last = q.last ∧
      (q.advanceSearch v).Covers fun w => w = v ∨ free w := by
  unfold VarQueue.advanceSearch
  cases hs : q.search with
  | none =>
    refine ⟨h.withSearch fun u hu => Option.some.inj hu ▸ hv, rfl, rfl, ?_⟩
    rintro w (rfl | hw)
    · exact ⟨w, rfl, Nat.le_refl _⟩
    · obtain ⟨s, hs', -⟩ := hc w hw
      rw [hs] at hs'
      simp at hs'
  | some s =>
    by_cases hlt : q.stampOf s < q.stampOf v
    · simp only [if_pos hlt]
      refine ⟨h.withSearch fun u hu => Option.some.inj hu ▸ hv, trivial, trivial, ?_⟩
      rintro w (rfl | hw)
      · exact ⟨w, rfl, Nat.le_refl _⟩
      · obtain ⟨s', hs', hle⟩ := hc w hw
        rw [hs] at hs'
        obtain rfl := Option.some.inj hs'
        exact ⟨v, rfl, Nat.le_of_lt (Nat.lt_of_le_of_lt hle hlt)⟩
    · simp only [if_neg hlt]
      refine ⟨h, trivial, trivial, ?_⟩
      rintro w (rfl | hw)
      · exact ⟨s, hs, by omega⟩
      · exact hc w hw

/-- What is covered stays so when a variable is taken out, that variable apart. -/
theorem Spells.covers_dequeue (h : Spells q (xs ++ v :: ys)) (hf : ∀ w, free w → w ∈ xs ++ v :: ys)
    (hc : q.Covers free) : (q.dequeue v).Covers fun w => w ≠ v ∧ free w := by
  obtain ⟨-, -, hstamp, -, hsearch⟩ := h.dequeue
  rintro w ⟨hne, hw⟩
  obtain ⟨s, hs, hle⟩ := hc w hw
  by_cases hsv : s = v
  · -- the search goes on before `v`
    subst hsv
    have hwx : w ∈ xs := by
      have := h.mem_of_stamp (hf w hw) hle
      simpa [hne] using this
    rcases List.eq_nil_or_concat xs with rfl | ⟨as, u, rfl⟩
    · simp at hwx
    · rw [List.concat_eq_append] at h hsearch hwx
      refine ⟨u, by rw [hsearch, if_pos hs]; simp, ?_⟩
      rw [hstamp, hstamp]
      rw [← List.append_cons] at h
      exact h.stampOf_le hwx
  · refine ⟨s, ?_, by rw [hstamp, hstamp]; exact hle⟩
    rw [hsearch, if_neg, hs]
    rw [hs]
    exact fun he => hsv (Option.some.inj he)

/-- A list in which an element has gone to the end, if it is there. -/
def moveLast (L : List Nat) (v : Nat) : List Nat := if v ∈ L then L.erase v ++ [v] else L

theorem mem_moveLast : w ∈ moveLast L v ↔ w ∈ L := by
  unfold moveLast
  split
  · next hv =>
    by_cases h : w = v
    · simp [h, hv]
    · simp [h, List.mem_erase_of_ne h]
  · rfl

theorem mem_foldl_moveLast (vs : List Nat) : w ∈ vs.foldl moveLast L ↔ w ∈ L := by
  induction vs generalizing L with
  | nil => rfl
  | cons v vs ih => rw [List.foldl_cons, ih, mem_moveLast]

theorem erase_middle (h : (xs ++ v :: ys).Nodup) : (xs ++ v :: ys).erase v = xs ++ ys := by
  have hv : v ∉ xs := fun hv => not_mem_of_nodup h (List.mem_append_left _ hv)
  rw [List.erase_append_right _ hv, List.erase_cons_head]

/-- A variable that is taken out and put in again goes to the end, and the others are found as before. -/
theorem Spells.requeue (h : Spells q (xs ++ v :: ys)) (hf : ∀ w, free w → w ∈ xs ++ v :: ys) (hc : q.Covers free) :
    Spells ((q.dequeue v).enqueue v) (xs ++ ys ++ [v]) ∧
      ((q.dequeue v).enqueue v).links.size = q.links.size ∧
      ((q.dequeue v).enqueue v).Covers fun w => w ≠ v ∧ free w := by
  have hv : v ∉ xs ++ ys := not_mem_of_nodup h.nodup
  obtain ⟨hout, hsize, -⟩ := h.dequeue
  have hcout := h.covers_dequeue hf hc
  obtain ⟨hin, hsize', hsearch, hstamp, -⟩ :=
    hout.enqueue hv (by rw [hsize]; exact h.lt_size (by simp))
  refine ⟨hin, hsize'.trans hsize, ?_⟩
  rintro w ⟨hne, hw⟩
  obtain ⟨s, hs, hle⟩ := hcout w ⟨hne, hw⟩
  have hsv : s ≠ v := fun he => hv (he ▸ hout.search s hs)
  refine ⟨s, by rw [hsearch, hs], ?_⟩
  rw [hstamp w hne, hstamp s hsv]
  exact hle

/-- Bumping a variable moves it to the end. -/
theorem Spells.bumpOne (h : Spells q L) (hf : ∀ w, free w → w ∈ L ∧ a.valueOf w = .unassigned)
    (hc : q.Covers free) (v : Nat) :
    Spells (bumpOne a q v) (moveLast L v) ∧ (bumpOne a q v).Covers free ∧
      (VarQueue.bumpOne a q v).links.size = q.links.size := by
  unfold VarQueue.bumpOne
  by_cases hv : v ∈ L
  · rw [moveLast, if_pos hv, (h.contains v).2 hv]
    obtain ⟨xs, ys, rfl⟩ := List.append_of_mem hv
    rw [erase_middle h.nodup]
    by_cases hlast : q.last = some v
    · -- it is there already
      obtain rfl : ys = [] := (getLast?_eq_some_iff h.nodup).1 (h.last ▸ hlast)
      rw [if_pos (by simp [hlast]), List.append_nil]
      exact ⟨h, hc, rfl⟩
    · rw [if_neg (by simp [hlast])]
      obtain ⟨h', hsize, hc'⟩ := h.requeue (fun w hw => (hf w hw).1) hc
      by_cases hun : a.valueOf v = .unassigned
      · simp only [hun, if_true]
        obtain ⟨h'', hlinks, -, hc''⟩ := h'.advanceSearch (v := v) (by simp) hc'
        refine ⟨h'', fun w hw => ?_, by rw [hlinks, hsize]⟩
        by_cases hwv : w = v
        · exact hc'' w (.inl hwv)
        · exact hc'' w (.inr ⟨hwv, hw⟩)
      · simp only [hun, if_false]
        refine ⟨h', fun w hw => hc' w ⟨?_, hw⟩, hsize⟩
        rintro rfl
        exact hun (hf w hw).2
  · have hout : q.contains v = false := by
      rw [Bool.eq_false_iff]
      exact fun hin => hv ((h.contains v).1 hin)
    rw [moveLast, if_neg hv, if_pos (by rw [hout]; rfl)]
    exact ⟨h, hc, rfl⟩

/-- Bumping variables moves one after another to the end. -/
theorem Spells.bumpAll (h : Spells q L) (hf : ∀ w, free w → w ∈ L ∧ a.valueOf w = .unassigned)
    (hc : q.Covers free) (vs : List Nat) :
    Spells (q.bumpAll a vs) (vs.foldl moveLast L) ∧ (q.bumpAll a vs).Covers free ∧
      (q.bumpAll a vs).links.size = q.links.size := by
  induction vs generalizing q L with
  | nil => exact ⟨h, hc, rfl⟩
  | cons v vs ih =>
    obtain ⟨h₁, hc₁, hs₁⟩ := h.bumpOne hf hc v
    obtain ⟨h₂, hc₂, hs₂⟩ := ih h₁ (fun w hw => ⟨mem_moveLast.2 (hf w hw).1, (hf w hw).2⟩) hc₁
    exact ⟨h₂, hc₂, hs₂.trans hs₁⟩

/-- The search of a reconciled queue starts behind everything. -/
theorem Spells.reconcile (h : Spells q L) :
    Spells q.reconcile L ∧ q.reconcile.Covers fun v => v ∈ L := by
  refine ⟨h.withSearch fun v hv => List.mem_of_getLast? (h.last ▸ hv), fun v hv => ?_⟩
  rcases List.eq_nil_or_concat L with rfl | ⟨as, u, rfl⟩
  · simp at hv
  · rw [List.concat_eq_append] at h hv
    exact ⟨u, by simp [VarQueue.reconcile, h.last], h.stampOf_le hv⟩

/-- The variables from `m` on are put at the end, one after another. -/
theorem Spells.enqueueAll (h : Spells q L) {m k : Nat} (hL : ∀ v ∈ L, v < m)
    (hk : m + k ≤ q.links.size) :
    Spells ((List.range' m k).foldl VarQueue.enqueue q) (L ++ List.range' m k) ∧
      ((List.range' m k).foldl VarQueue.enqueue q).links.size = q.links.size := by
  induction k generalizing q L m with
  | zero => exact ⟨by simpa using h, rfl⟩
  | succ k ih =>
    rw [List.range'_succ, List.foldl_cons]
    obtain ⟨h₁, hs₁, -⟩ := h.enqueue (v := m) (fun hm => Nat.lt_irrefl _ (hL m hm)) (by omega)
    obtain ⟨h', hs'⟩ := ih h₁ (m := m + 1) (fun v hv => by
      rcases List.mem_append.1 hv with hv | hv
      · have := hL v hv
        omega
      · rw [List.mem_singleton.1 hv]
        omega) (by rw [hs₁]; omega)
    exact ⟨by simpa using h', hs'.trans hs₁⟩

/-- Variables that are new come after all others, and then everything is found. -/
theorem Spells.growTo (h : Spells q L) (n : Nat) :
    Spells (q.growTo n) (L ++ List.range' q.links.size (n - q.links.size)) ∧
      (q.growTo n).links.size = max q.links.size n ∧
      (q.links.size < n → (q.growTo n).Covers fun v => v ∈ L ++ List.range' q.links.size (n - q.links.size)) ∧
      (n ≤ q.links.size → q.growTo n = q) := by
  unfold VarQueue.growTo
  by_cases hn : n ≤ q.links.size
  · simp only [if_pos hn]
    rw [Nat.sub_eq_zero_of_le hn]
    exact ⟨by simpa using h, (Nat.max_eq_left hn).symm, fun hlt => by omega, fun _ => trivial⟩
  · simp only [if_neg hn]
    obtain ⟨e1, e2⟩ := (h.grow (n - q.links.size)).enqueueAll (m := q.links.size) (k := n - q.links.size)
      (fun v hv => h.lt_size hv) (by simp)
    obtain ⟨r1, r2⟩ := e1.reconcile
    refine ⟨r1, e2.trans ?_, fun _ => r2, fun hle => absurd hle hn⟩
    simp only [Array.size_append, Array.size_replicate]
    omega

/-- A variable that is taken out is missing, and all others are found as before. -/
theorem Spells.deactivate (h : Spells q L) (v : Nat) :
    Spells (q.deactivate v) (L.erase v) ∧ (q.deactivate v).links.size = q.links.size ∧
      ∀ free : Nat → Prop, (∀ w, free w → w ∈ L) → q.Covers free → (q.deactivate v).Covers fun w => w ≠ v ∧ free w := by
  unfold VarQueue.deactivate
  by_cases hv : v ∈ L
  · rw [if_pos ((h.contains v).2 hv)]
    obtain ⟨xs, ys, rfl⟩ := List.append_of_mem hv
    obtain ⟨d1, d2, -⟩ := h.dequeue
    rw [erase_middle h.nodup]
    exact ⟨d1, d2, fun _ hf hc => h.covers_dequeue hf hc⟩
  · rw [if_neg fun hin => hv ((h.contains v).1 hin), List.erase_of_not_mem hv]
    exact ⟨h, rfl, fun _ _ hc w hw => hc w hw.2⟩

end VarQueue

end ClauseLearning

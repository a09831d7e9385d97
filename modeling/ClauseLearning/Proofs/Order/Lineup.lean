import ClauseLearning.Proofs.Order.Queue
import Mathlib.Data.List.Induction
import Mathlib.Data.List.Nodup

/-!
# A queue refines a list

The links, the stamps and the place where a search starts are all there to answer one question about a list: which
of its unassigned variables comes last.  The list itself is easily kept.  Variables that are new come last, bumped
ones go to the end, and one that is deactivated is erased.

The place where a search starts is right only as long as the queue is told of variables that become unassigned.  So
what is kept beside the list is which of them the queue has not been told of.

* `VarQueue.foldl_moveLast` — variables that go to the end one after another, in the order of their stamps.
* `VarQueue.Lineup`, `VarQueue.Event` — the list, and what happens to it.
* `VarQueue.Follows`, `VarQueue.Follows.step` — one event keeps queue and list together.
* `VarQueue.played_lineup` — so do any events, and what the queue answers is what the list says.
-/

namespace ClauseLearning

namespace VarQueue

variable {q : VarQueue} {L xs ys vs : List Nat} {v w : Nat} {a : Assignment}

/-! ## Going to the end one after another -/

theorem moveLast_middle (hv : v ∉ xs) : moveLast (xs ++ v :: ys) v = xs ++ ys ++ [v] := by
  rw [moveLast, if_pos (by simp), List.erase_append_right _ hv, List.erase_cons_head]

theorem filter_append_singleton (vs : List Nat) (hv : v ∉ L) :
    L.filter (· ∉ vs ++ [v]) = L.filter (· ∉ vs) ∧ L.filter (· ∈ vs ++ [v]) = L.filter (· ∈ vs) := by
  have hmem : ∀ w ∈ L, (w ∈ vs ++ [v] ↔ w ∈ vs) := fun w hw => by
    have hne : w ≠ v := fun h => hv (h ▸ hw)
    simp [hne]
  exact ⟨List.filter_congr fun w hw => by simp only [hmem w hw],
    List.filter_congr fun w hw => by simp only [hmem w hw]⟩

/-- Where a list is sorted by a key, elements that go to its end one after another, those with the smaller key first,
form its end.  Both parts are in the order in which they were. -/
theorem foldl_moveLast {key : Nat → Nat} (hL : L.Pairwise fun v w => key v < key w)
    (hvs : vs.Pairwise fun v w => key v ≤ key w) :
    vs.foldl moveLast L = L.filter (· ∉ vs) ++ L.filter (· ∈ vs) := by
  induction vs using List.reverseRecOn with
  | nil => simp
  | append_singleton vs v ih =>
    obtain ⟨hvs, -, hlast⟩ := List.pairwise_append.1 hvs
    rw [List.foldl_append, List.foldl_cons, List.foldl_nil, ih hvs]
    by_cases hv : v ∈ L
    · obtain ⟨as, bs, rfl⟩ := List.append_of_mem hv
      obtain ⟨-, hbs, has⟩ := List.pairwise_append.1 hL
      have hvas : v ∉ as := fun h => Nat.lt_irrefl _ (has v h v (List.mem_cons_self ..))
      -- what comes after `v` has a greater key, so it did not go to the end
      have hstay : ∀ w ∈ bs, w ∉ vs ∧ w ≠ v := fun w hw => by
        have hlt := (List.pairwise_cons.1 hbs).1 w hw
        refine ⟨fun h => ?_, fun h => Nat.lt_irrefl _ (h ▸ hlt)⟩
        exact Nat.not_lt.2 (hlast w h v (List.mem_singleton_self v)) hlt
      have hvbs : v ∉ bs := fun h => (hstay v h).2 rfl
      have hout : bs.filter (· ∉ vs) = bs := List.filter_eq_self.2 fun w hw => by simpa using (hstay w hw).1
      have hin : bs.filter (· ∈ vs) = [] := List.filter_eq_nil_iff.2 fun w hw => by simpa using (hstay w hw).1
      have hvF : v ∉ as.filter (· ∉ vs) := fun h => hvas (List.mem_of_mem_filter h)
      have hvG : v ∉ as.filter (· ∈ vs) := fun h => hvas (List.mem_of_mem_filter h)
      have hafter : (as ++ v :: bs).filter (· ∉ vs ++ [v]) ++ (as ++ v :: bs).filter (· ∈ vs ++ [v]) =
          as.filter (· ∉ vs) ++ bs ++ as.filter (· ∈ vs) ++ [v] := by
        obtain ⟨ha, ha'⟩ := filter_append_singleton vs hvas
        obtain ⟨hb, hb'⟩ := filter_append_singleton vs hvbs
        rw [List.filter_append, List.filter_append, List.filter_cons_of_neg (by simp),
          List.filter_cons_of_pos (by simp), ha, ha', hb, hb', hout, hin, List.append_assoc _ _ [v]]
      rw [hafter, List.filter_append, List.filter_append]
      by_cases hmem : v ∈ vs
      · have hmid : v ∉ as.filter (· ∉ vs) ++ bs ++ as.filter (· ∈ vs) := by
          simp only [List.mem_append, not_or]
          exact ⟨⟨hvF, hvbs⟩, hvG⟩
        rw [List.filter_cons_of_neg (by simpa using hmem), List.filter_cons_of_pos (by simpa using hmem), hout, hin,
          ← List.append_assoc, moveLast_middle hmid, List.append_nil]
      · rw [List.filter_cons_of_pos (by simpa using hmem), List.filter_cons_of_neg (by simpa using hmem), hout, hin,
          List.append_nil, List.append_assoc, List.cons_append, moveLast_middle hvF, ← List.append_assoc]
    · have hmem : v ∉ L.filter (· ∉ vs) ++ L.filter (· ∈ vs) := fun h => hv (by
        rcases List.mem_append.1 h with h | h <;> exact List.mem_of_mem_filter h)
      obtain ⟨hF, hG⟩ := filter_append_singleton vs hv
      rw [moveLast, if_neg hmem, hF, hG]

/-- Bumped variables go to the end.  They keep their order, and so do the others. -/
theorem Spells.bump {free : Nat → Prop} (h : Spells q L) (hf : ∀ w, free w → w ∈ L ∧ a.valueOf w = .unassigned)
    (hc : q.Covers free) (vs : List Nat) :
    Spells (q.bump a vs).2 (L.filter (· ∉ vs) ++ L.filter (· ∈ vs)) ∧ (q.bump a vs).2.Covers free ∧
      (q.bump a vs).2.links.size = q.links.size := by
  have hsorted : (q.sorted vs).Pairwise fun v w => q.stampOf v ≤ q.stampOf w :=
    (@pairwise_sortBy Nat (fun v w => q.stampOf v ≤ q.stampOf w)
      (fun u v w huv hvw => by simp only [decide_eq_true_eq] at *; omega)
      (fun u v => by simp only [decide_eq_true_eq]; omega) vs).imp fun hle => by simpa using hle
  have hmem : ∀ v, v ∈ q.sorted vs ↔ v ∈ vs := fun v => mem_sortBy
  have hall := h.bumpAll hf hc (q.sorted vs)
  simp only [foldl_moveLast h.sorted hsorted, hmem] at hall
  exact hall

/-! ## The list -/

/-- Variables in a list, and which of them are assigned. -/
structure Lineup where
  /-- How many variables there are. -/
  known : Nat := 0
  /-- The variables that were taken out. -/
  gone : List Nat := []
  /-- The variables in order. -/
  line : List Nat := []
  /-- The values of the variables. -/
  values : Assignment := {}
  /-- The variables of the list that became unassigned, and of which the queue has not been told since. -/
  owed : List Nat := []

/-- What happens. -/
inductive Event where
  /-- Variables are assigned or become unassigned, in any way. -/
  | assign (values : Assignment)
  /-- There are more variables. -/
  | growTo (n : Nat)
  /-- Variables are bumped. -/
  | bump (vs : List Nat)
  /-- The queue is told that a variable became unassigned. -/
  | reinsert (v : Nat)
  /-- The queue is told that any variables became unassigned. -/
  | reconcile
  /-- A variable is taken out. -/
  | deactivate (v : Nat)
  /-- The queue is asked for a variable. -/
  | next

/-- What an event does to the queue. -/
def Event.act (a : Assignment) (q : VarQueue) : Event → VarQueue
  | assign _ => q
  | growTo n => q.growTo n
  | bump vs => (q.bump a vs).2
  | reinsert v => q.reinsert v
  | reconcile => q.reconcile
  | deactivate v => q.deactivate v
  | next => (q.next? a).2

/-- What an event does to the list. -/
def Event.step (l : Lineup) : Event → Lineup
  | assign a =>
    { l with
      values := a
      owed := l.owed ++ l.line.filter fun v => l.values.valueOf v ≠ .unassigned ∧ a.valueOf v = .unassigned }
  | growTo n => { l with known := max l.known n, line := l.line ++ List.range' l.known (n - l.known) }
  | bump vs => { l with line := l.line.filter (· ∉ vs) ++ l.line.filter (· ∈ vs) }
  | reinsert v => { l with owed := l.owed.filter (· ≠ v) }
  | reconcile => { l with owed := [] }
  | deactivate v => { l with gone := if v < l.known then v :: l.gone else l.gone, line := l.line.erase v }
  | next => l

namespace Lineup

/-- A variable of the list that is not assigned. -/
def Free (l : Lineup) (v : Nat) : Prop := v ∈ l.line ∧ l.values.valueOf v = .unassigned

/-- The queue was told of every variable that is not assigned. -/
def Told (l : Lineup) : Prop := ∀ v ∈ l.line, l.values.valueOf v = .unassigned → v ∉ l.owed

instance (l : Lineup) : Decidable l.Told :=
  inferInstanceAs (Decidable (∀ v ∈ l.line, l.values.valueOf v = .unassigned → v ∉ l.owed))

/-- The list after some events. -/
def after (l : Lineup) (es : List Event) : Lineup := es.foldl Event.step l

end Lineup

/-- Whether the queue is asked for a variable. -/
def Event.asks : Event → Bool
  | next => true
  | _ => false

/-- Whenever the queue is asked for a variable, it was told before of every variable that is not assigned. -/
def Lineup.Timely (l : Lineup) : List Event → Prop
  | [] => True
  | e :: es => (e.asks = true → l.Told) ∧ Timely (e.step l) es

instance decidableTimely (l : Lineup) : (es : List Event) → Decidable (l.Timely es)
  | [] => isTrue trivial
  | e :: es =>
    have := decidableTimely (e.step l) es
    inferInstanceAs (Decidable ((e.asks = true → l.Told) ∧ (e.step l).Timely es))

/-- The queue after some events. -/
def played (q : VarQueue) (l : Lineup) : List Event → VarQueue
  | [] => q
  | e :: es => (e.act l.values q).played (e.step l) es

variable {l : Lineup}

/-! ## One event -/

/-- The queue spells out the list, and a search comes across every unassigned variable of which it was told. -/
structure Follows (q : VarQueue) (l : Lineup) : Prop where
  /-- The links spell out the list. -/
  spells : q.Spells l.line
  /-- There is a link for each variable. -/
  known : q.links.size = l.known
  /-- All variables are in the list that were not taken out. -/
  members : ∀ v, v ∈ l.line ↔ v < l.known ∧ v ∉ l.gone
  /-- What was taken out was a variable. -/
  gone : ∀ v ∈ l.gone, v < l.known
  /-- What a search comes across. -/
  covers : q.Covers fun v => l.Free v ∧ v ∉ l.owed

theorem Covers.mono {free free' : Nat → Prop} (h : q.Covers free) (hf : ∀ v, free' v → free v) : q.Covers free' :=
  fun v hv => h v (hf v hv)

theorem next?_some {v : Nat} (h : (q.next? a).1 = some v) : (q.next? a).2 = { q with search := some v } := by
  unfold next? at h ⊢
  split at h
  · next v' _ => rw [Option.some.inj h]
  · cases h

theorem next?_none (h : (q.next? a).1 = none) : (q.next? a).2 = q := by
  unfold next? at h ⊢
  split at h
  · cases h
  · rfl

namespace Follows

theorem empty (a : Assignment) : Follows {} { values := a } where
  spells := spells_empty
  known := rfl
  members v := by simp
  gone v hv := absurd hv List.not_mem_nil
  covers v hv := absurd hv.1.1 List.not_mem_nil

theorem told (h : Follows q l) (ht : l.Told) : q.Covers l.Free :=
  h.covers.mono fun v hv => ⟨hv, ht v hv.1 hv.2⟩

/-- The variable that is found is unassigned, and the others that are have smaller stamps. -/
theorem next_some (h : Follows q l) (ht : l.Told) (hv : (q.next? l.values).1 = some v) :
    l.Free v ∧ Follows (q.next? l.values).2 l ∧ ∀ w, l.Free w → q.stampOf w ≤ q.stampOf v := by
  have hnext := h.spells.next (fun _ => Iff.rfl) (h.told ht)
  have hq := next?_some hv
  generalize q.next? l.values = x at hnext hv hq
  obtain ⟨found, q'⟩ := x
  obtain rfl : found = some v := hv
  obtain rfl : q' = { q with search := some v } := hq
  obtain ⟨hfree, hspells, hcovers, hsize⟩ := hnext
  refine ⟨hfree, ⟨hspells, hsize.trans h.known, h.members, h.gone, hcovers.mono fun w hw => hw.1⟩, fun w hw => ?_⟩
  obtain ⟨s, hs, hle⟩ := hcovers w hw
  obtain rfl := Option.some.inj hs
  exact hle

/-- If nothing is found, there is no variable that is unassigned. -/
theorem next_none (h : Follows q l) (ht : l.Told) (hnone : (q.next? l.values).1 = none) :
    (∀ v, ¬ l.Free v) ∧ Follows (q.next? l.values).2 l := by
  have hnext := h.spells.next (fun _ => Iff.rfl) (h.told ht)
  have hq := next?_none hnone
  generalize q.next? l.values = x at hnext hnone hq
  obtain ⟨found, q'⟩ := x
  obtain rfl : found = none := hnone
  obtain rfl : q' = q := hq
  exact ⟨hnext.1, h⟩

/-- Values change.  The variables that became unassigned are not covered before the queue is told of them. -/
theorem assign (h : Follows q l) (a : Assignment) : Follows q (Event.step l (.assign a)) where
  spells := h.spells
  known := h.known
  members := h.members
  gone := h.gone
  covers := h.covers.mono fun v hv => by
    obtain ⟨⟨hline, hun⟩, howed⟩ := hv
    simp only [Event.step, List.mem_append, List.mem_filter, decide_eq_true_eq, not_or] at hline hun howed
    exact ⟨⟨hline, by_contra fun hne => howed.2 ⟨hline, hne, hun⟩⟩, howed.1⟩

theorem growTo (h : Follows q l) (n : Nat) : Follows (q.growTo n) (Event.step l (.growTo n)) := by
  obtain ⟨hspells, hsize, hnew, hsame⟩ := h.spells.growTo n
  rw [h.known] at hspells hsize hnew hsame
  refine ⟨hspells, hsize, fun v => ?_, fun v hv => Nat.lt_of_lt_of_le (h.gone v hv) (Nat.le_max_left ..), ?_⟩
  · simp only [Event.step, List.mem_append, List.mem_range'_1, h.members]
    have hgone := h.gone v
    grind
  · by_cases hlt : l.known < n
    · exact (hnew hlt).mono fun v hv => hv.1.1
    · have hle := Nat.le_of_not_lt hlt
      have hline : (Event.step l (.growTo n)).line = l.line := by
        simp only [Event.step, Nat.sub_eq_zero_of_le hle, List.range'_zero, List.append_nil]
      rw [hsame hle]
      exact h.covers.mono fun v hv => ⟨⟨hline ▸ hv.1.1, hv.1.2⟩, hv.2⟩

theorem bump (h : Follows q l) (vs : List Nat) : Follows (q.bump l.values vs).2 (Event.step l (.bump vs)) := by
  obtain ⟨hspells, hcovers, hsize⟩ := h.spells.bump (a := l.values) (fun w hw => hw.1) h.covers vs
  have hmem : ∀ v, v ∈ (Event.step l (.bump vs)).line ↔ v ∈ l.line := fun v => by
    simp only [Event.step, List.mem_append, List.mem_filter, decide_eq_true_eq]
    tauto
  exact {
    spells := hspells
    known := hsize.trans h.known
    members := fun v => (hmem v).trans (h.members v)
    gone := h.gone
    covers := hcovers.mono fun v hv => ⟨⟨(hmem v).1 hv.1.1, hv.1.2⟩, hv.2⟩ }

theorem reinsert (h : Follows q l) (v : Nat) : Follows (q.reinsert v) (Event.step l (.reinsert v)) := by
  -- a variable that the queue need not be told of is not that one
  have hother : ∀ w, w ≠ v → (Event.step l (.reinsert v)).Free w ∧ w ∉ (Event.step l (.reinsert v)).owed →
      l.Free w ∧ w ∉ l.owed := fun w hne hw =>
    ⟨hw.1, fun howed => hw.2 (List.mem_filter.2 ⟨howed, decide_eq_true hne⟩)⟩
  rw [VarQueue.reinsert]
  by_cases hv : v ∈ l.line
  · rw [if_pos ((h.spells.contains v).2 hv)]
    obtain ⟨hspells, hlinks, -, hcovers⟩ := h.spells.advanceSearch hv h.covers
    exact ⟨hspells, (congrArg Array.size hlinks).trans h.known, h.members, h.gone, hcovers.mono fun w hw =>
      or_iff_not_imp_left.2 fun hne => hother w hne hw⟩
  · rw [if_neg fun hin => hv ((h.spells.contains v).1 hin)]
    exact ⟨h.spells, h.known, h.members, h.gone, h.covers.mono fun w hw =>
      hother w (fun he => hv (he ▸ hw.1.1)) hw⟩

theorem reconcile (h : Follows q l) : Follows q.reconcile (Event.step l .reconcile) :=
  ⟨h.spells.reconcile.1, h.known, h.members, h.gone, h.spells.reconcile.2.mono fun _ hv => hv.1.1⟩

theorem deactivate (h : Follows q l) (v : Nat) : Follows (q.deactivate v) (Event.step l (.deactivate v)) := by
  obtain ⟨hspells, hsize, hcovers⟩ := h.spells.deactivate v
  have hmem : ∀ w, w ∈ l.line.erase v ↔ w ≠ v ∧ w ∈ l.line := fun w => h.spells.nodup.mem_erase_iff
  refine ⟨hspells, hsize.trans h.known, fun w => ?_, fun w hw => ?_, ?_⟩
  · have hw := h.members w
    simp only [Event.step, hmem]
    split <;> grind
  · simp only [Event.step] at hw ⊢
    split at hw
    · next hv =>
      rcases List.mem_cons.1 hw with rfl | hw
      · exact hv
      · exact h.gone w hw
    · exact h.gone w hw
  · refine (hcovers _ (fun w hw => hw.1.1) h.covers).mono fun w hw => ?_
    have hline := (hmem w).1 hw.1.1
    exact ⟨hline.1, ⟨hline.2, hw.1.2⟩, hw.2⟩

/-- Every event keeps queue and list together. -/
theorem step (h : Follows q l) (e : Event) (he : e.asks = true → l.Told) : Follows (e.act l.values q) (e.step l) := by
  cases e with
  | assign a => exact h.assign a
  | growTo n => exact h.growTo n
  | bump vs => exact h.bump vs
  | reinsert v => exact h.reinsert v
  | reconcile => exact h.reconcile
  | deactivate v => exact h.deactivate v
  | next =>
    cases hfound : (q.next? l.values).1 with
    | none => exact (h.next_none (he rfl) hfound).2
    | some v => exact (h.next_some (he rfl) hfound).2.1

/-- So do any events. -/
theorem played (h : Follows q l) {es : List Event} (hes : l.Timely es) : Follows (q.played l es) (l.after es) := by
  induction es generalizing q l with
  | nil => exact h
  | cons e es ih => exact ih (h.step e hes.1) hes.2

end Follows

/-! ## What is seen -/

/-- What is seen of a queue is what a list says. -/
structure Refines (q : VarQueue) (l : Lineup) : Prop where
  /-- The links, one after another, are the list. -/
  list : q.toList = l.line
  /-- Every variable is linked to its neighbours in the list, and the ends of the queue are those of the list. -/
  spells : q.Spells l.line
  /-- Stamps increase along the list. -/
  stamps : l.line.Pairwise fun v w => q.stampOf v < q.stampOf w
  /-- The variables of the list are those which there are, without those that were taken out. -/
  members : ∀ v, v ∈ l.line ↔ v < l.known ∧ v ∉ l.gone
  /-- A search comes across every variable that is not assigned, if the queue was told. -/
  represents : ∀ v, l.Free v → v ∉ l.owed → q.represents v = true
  /-- What is found is the unassigned variable with the greatest stamp. -/
  found : l.Told → ∀ v, (q.next? l.values).1 = some v ↔
    l.Free v ∧ ∀ w, l.Free w → w ≠ v → q.stampOf w < q.stampOf v
  /-- Nothing is found if all variables of the list are assigned, and only then. -/
  exhausted : l.Told → ((q.next? l.values).1 = none ↔ ∀ v ∈ l.line, l.values.valueOf v ≠ .unassigned)

theorem Spells.eq_of_stampOf (h : Spells q L) (hv : v ∈ L) (hw : w ∈ L) (he : q.stampOf v = q.stampOf w) : v = w :=
  List.inj_on_of_nodup_map ((List.pairwise_map.2 h.sorted).imp Nat.ne_of_lt) hv hw he

theorem Follows.refines (h : Follows q l) : Refines q l where
  list := h.spells.toList_eq
  spells := h.spells
  stamps := h.spells.sorted
  members := h.members
  represents v hv howed := (h.spells.represents_iff hv.1).2 (h.covers v ⟨hv, howed⟩)
  found ht v := by
    constructor
    · intro hv
      obtain ⟨hfree, -, hmax⟩ := h.next_some ht hv
      refine ⟨hfree, fun w hw hne => Nat.lt_of_le_of_ne (hmax w hw) fun he => hne ?_⟩
      exact h.spells.eq_of_stampOf hw.1 hfree.1 he
    · rintro ⟨hfree, hmax⟩
      cases hfound : (q.next? l.values).1 with
      | none => exact absurd hfree ((h.next_none ht hfound).1 v)
      | some w =>
        obtain ⟨hw, -, hmax'⟩ := h.next_some ht hfound
        by_cases he : w = v
        · rw [he]
        · exact absurd (hmax w hw he) (Nat.not_lt.2 (hmax' v hfree))
  exhausted ht := by
    constructor
    · intro hnone v hv hun
      exact (h.next_none ht hnone).1 v ⟨hv, hun⟩
    · intro hall
      rw [Option.eq_none_iff_forall_ne_some]
      intro v hv
      obtain ⟨hfree, -⟩ := h.next_some ht hv
      exact hall v hfree.1 hfree.2

/-- After any events, what is seen of a queue is what the list says, if the queue is always told of the variables
that became unassigned before it is asked for one. -/
theorem played_lineup (a : Assignment) {es : List Event} (h : ({ values := a } : Lineup).Timely es) :
    Refines (played {} { values := a } es) (Lineup.after { values := a } es) :=
  ((Follows.empty a).played h).refines

/-- The assignment of four variables in which `2` is true and, as the case may be, `3` is. -/
def twoAssigned (both : Bool) : Assignment :=
  let a := (({} : Assignment).growTo 4).set (.make 2 true) 1 .decision
  if both then a.set (.make 3 true) 2 .decision else a

/-- Variables are bumped in the order of their stamps.  The search goes past what is assigned and comes back when a
variable becomes unassigned; one that was taken out is not found, and neither is one of which nobody told, as long as
it is assigned again when the queue is asked. -/
def shuffle : List Event :=
  [.growTo 4, .next, .assign (twoAssigned true), .bump [2, 0, 2], .next, .assign (twoAssigned false), .reinsert 3,
    .next, .assign {}, .deactivate 0, .assign (twoAssigned false), .next, .assign {}, .reconcile, .growTo 5, .bump [1],
    .deactivate 4]

theorem played_lineup_shuffle :
    ({} : Lineup).Timely shuffle ∧ Refines (played {} {} shuffle) (Lineup.after {} shuffle) ∧
      (Lineup.after {} (shuffle.take 4)).line = [1, 3, 0, 2] ∧
      ((played {} {} (shuffle.take 4)).next? (twoAssigned true)).1 = some 0 ∧
      (Lineup.after {} shuffle).line = [3, 2, 1] ∧ ((played {} {} shuffle).next? {}).1 = some 1 := by
  have h : ({} : Lineup).Timely shuffle := by decide +kernel
  exact ⟨h, played_lineup {} h, by decide +kernel⟩

end VarQueue

end ClauseLearning

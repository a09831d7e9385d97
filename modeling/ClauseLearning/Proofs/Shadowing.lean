import ClauseLearning.Proofs.Arrangement
import ClauseLearning.Proofs.Blind

/-!
# Propagation with and without derived clauses

On the first level a solver may derive binary clauses while it propagates.  Propagation then goes the same way as
without that.  A clause that was derived is put into the lists of its two literals once the list that was gone through
is back in its place.  Of these literals one is true, so where the other one is false the clause does not matter, and
the list of the true one is not gone through at all.  So two states can be led through propagation side by side, the
one with more binary clauses, and with other reasons for the literals in them.

* `Inserted` — a list with more members than another one.
* `Assignment.Recast` — two assignments that differ in the reasons of some literals.
* `Solver.plain` — a solver which derives nothing.
* `Solver.Shadow` — the two states side by side.
* `Solver.Shadow.propagateList`, `Solver.Shadow.propagateLiteral` — they stay so.
* `Solver.Shaped.propagate_beside` — propagation ends alike in both.
-/

namespace ClauseLearning

/-! ## Longer lists -/

/-- Some members are put into a list, in their order but anywhere, and this gives another list. -/
inductive Inserted {α : Type} : List α → List α → List α → Prop
  /-- There is nothing. -/
  | nil : Inserted [] [] []
  /-- The next one is a member of the list. -/
  | old {es ys xs : List α} (a : α) : Inserted es ys xs → Inserted es (a :: ys) (a :: xs)
  /-- The next one is put in. -/
  | new {es ys xs : List α} (a : α) : Inserted es ys xs → Inserted (a :: es) ys (a :: xs)

namespace Inserted

variable {α : Type} {es fs xs ys us vs : List α}

theorem refl (ys : List α) : Inserted [] ys ys := by
  induction ys with
  | nil => exact .nil
  | cons a ys ih => exact .old a ih

/-- Everything is put into an empty list. -/
theorem all (es : List α) : Inserted es [] es := by
  induction es with
  | nil => exact .nil
  | cons a es ih => exact .new a ih

theorem append (h : Inserted es ys xs) (h' : Inserted fs vs us) : Inserted (es ++ fs) (ys ++ vs) (xs ++ us) := by
  induction h with
  | nil => exact h'
  | old a _ ih => exact .old a ih
  | new a _ ih => exact .new a ih

/-- The same member is added to both lists. -/
theorem push {kx ky : Array α} (h : Inserted es ky.toList kx.toList) (a : α) :
    Inserted es (ky.push a).toList (kx.push a).toList := by
  rw [Array.toList_push, Array.toList_push, ← List.append_nil es]
  exact h.append (.refl _)

/-- A member is put in at the end. -/
theorem pushNew {kx ky : Array α} (h : Inserted es ky.toList kx.toList) (a : α) :
    Inserted (es ++ [a]) ky.toList (kx.push a).toList := by
  rw [Array.toList_push, ← List.append_nil ky.toList]
  exact h.append (.new a .nil)

end Inserted

/-! ## What a visit looks at -/

namespace Store

variable {a a' : Assignment} (h : a'.value = a.value)
include h

theorem findReplacement_congr (s : Store) (o n : Nat) : s.findReplacement a' o n = s.findReplacement a o n := by
  rw [findReplacement_eq, findReplacement_eq, h]

/-- A visit looks at the values of literals only. -/
theorem visit_congr (no : Literal) (r : Reference) : visit a' no r = visit a no r := by
  funext s
  simp only [visit, visitAt, findReplacement_congr h, h]

end Store

/-! ## Other reasons -/

namespace Assignment

variable {a b : Assignment} {n k : Nat} {no l : Literal} {os : List Literal}

/-- Two assignments differ in the reasons of some literals only, which are assigned on the first level.  In one of them
the reason is the binary clause with another literal. -/
structure Recast (no : Literal) (os : List Literal) (a b : Assignment) : Prop extends Rehomed a b where
  /-- Other variables have the same records. -/
  others : ∀ v, v ∉ os.map Literal.var → b.record v = a.record v
  /-- The literals. -/
  forced : ∀ o ∈ os, a.level o = 1 ∧ a.reason o = .binary no

theorem Rehomed.set (h : a.Rehomed b) (hs : a.Sized n) (hl : l.var < n) (k : Nat) (reason reason' : Reason) :
    (a.set l k reason).Rehomed (b.set l k reason') := by
  refine ⟨?_, ?_, fun v => ?_⟩
  · simp only [Assignment.set, write, h.values]
  · simp only [Assignment.set, write, Array.size_setIfInBounds, h.size]
  · rw [record_set hs hl, record_set (h.sized hs) hl]
    split
    · exact ⟨reason', rfl⟩
    · exact h.record v

/-- A literal that is no such literal is assigned in both. -/
theorem Recast.set (h : a.Recast no os b) (hs : a.Sized n) (hl : l.var < n) (hn : l.var ∉ os.map Literal.var)
    (reason' : Reason) : (a.set l k reason').Recast no os (b.set l k reason') := by
  refine ⟨h.toRehomed.set hs hl k _ _, fun v hv => ?_, fun o ho => ?_⟩
  · rw [record_set hs hl, record_set (h.sized hs) hl, h.others v hv]
  · have hne : o.var ≠ l.var := fun he => hn (he ▸ List.mem_map_of_mem ho)
    rw [level, reason, record_set hs hl, if_neg hne]
    exact h.forced o ho

/-- One more such literal is assigned. -/
theorem Recast.force (h : a.Recast no os b) (hs : a.Sized n) (hl : l.var < n) (hn : l.var ∉ os.map Literal.var)
    (reason' : Reason) : (a.set l 1 (.binary no)).Recast no (os ++ [l]) (b.set l 1 reason') := by
  refine ⟨h.toRehomed.set hs hl 1 _ _, fun v hv => ?_, fun o ho => ?_⟩
  · rw [List.map_append, List.mem_append, not_or] at hv
    have hne : v ≠ l.var := fun he => hv.2 (by simp [he])
    rw [record_set hs hl, record_set (h.sized hs) hl, if_neg hne, if_neg hne, h.others v hv.1]
  · rw [level, reason, record_set hs hl]
    rcases List.mem_append.1 ho with ho | ho
    · rw [if_neg fun he : o.var = l.var => hn (he ▸ List.mem_map_of_mem ho)]
      exact h.forced o ho
    · rw [List.mem_singleton.1 ho, if_pos rfl]
      exact ⟨rfl, rfl⟩

end Assignment

/-! ## Watches of derived clauses -/

/-- The watches that the list of a literal gets for the binary clauses of `no` and each of some literals. -/
def derivedWatches (no : Literal) (os : List Literal) (l : Literal) : List Watch :=
  os.flatMap fun o =>
    (if l = no then [.binary o true true] else []) ++ if l = o then [.binary no true true] else []

theorem derivedWatches_append (no : Literal) (os os' : List Literal) (l : Literal) :
    derivedWatches no (os ++ os') l = derivedWatches no os l ++ derivedWatches no os' l := List.flatMap_append

/-- In the list of a literal that is none of them there are watches of the clauses with each of them. -/
theorem mem_derivedWatches {no l : Literal} {os : List Literal} {w : Watch} (hl : l ∉ os)
    (hw : w ∈ derivedWatches no os l) : ∃ o ∈ os, w = .binary o true true := by
  obtain ⟨o, ho, hw⟩ := List.mem_flatMap.1 hw
  rcases List.mem_append.1 hw with hw | hw
  · split at hw
    · exact ⟨o, ho, List.mem_singleton.1 hw⟩
    · simp at hw
  · rw [if_neg fun he : l = o => hl (he ▸ ho)] at hw
    simp at hw

theorem Watches.view_addDerived {w : Watches} {no : Literal} {os : List Literal} (hno : no.code < w.lists.size)
    (hos : ∀ o ∈ os, o.code < w.lists.size) (l : Literal) :
    ((os.map fun o => (no, o)).foldl (fun w x => w.addBinary x.1 x.2 true true) w).view l =
      w.view l ++ derivedWatches no os l := by
  induction os generalizing w with
  | nil => exact (List.append_nil _).symm
  | cons o os ih =>
    have ho : o.code < w.lists.size := hos o (List.mem_cons_self ..)
    have hstep : (w.addBinary no o true true).view l = w.view l ++
        ((if l = no then [.binary o true true] else []) ++ if l = o then [.binary no true true] else []) := by
      rw [addBinary, view_add _ (by rwa [size_add]), view_add _ hno]
      split <;> split <;> simp
    rw [List.map_cons, List.foldl_cons, ih (by rwa [size_addBinary]) fun m hm => by
      rw [size_addBinary]
      exact hos m (List.mem_cons_of_mem _ hm)]
    rw [hstep, List.append_assoc]
    rfl

/-- Binary clauses that are stored do not change the number of lists. -/
theorem Watches.size_addDerived (ds : List (Literal × Literal)) (w : Watches) :
    (ds.foldl (fun w x => w.addBinary x.1 x.2 true true) w).lists.size = w.lists.size := by
  induction ds generalizing w with
  | nil => rfl
  | cons x ds ih => exact (ih _).trans (size_addBinary ..)

namespace Solver

variable {ε : Type} {s x : Solver ε} {m l : Literal} {base extra : Literal → List Watch}
  {ls ds : List Literal} {a : Assignment} {w : Watches}

/-! ## Two states side by side -/

/-- A solver that derives nothing. -/
def plain (s : Solver ε) : Solver ε := { s with settings.keep.hyperBinaries.value := false }

/-- The state beside a state: it derives nothing and has derived nothing since the state `s`, and has an assignment and
watches of its own. -/
def beside (x s : Solver ε) (a : Assignment) (w : Watches) : Solver ε :=
  { x.plain with
    counters.hyperBinaries := s.counters.hyperBinaries
    assignment := a
    watches := w
    derived := #[] }

/-- Since the state `s` two states were led through propagation side by side.  In the one of them clauses of the
decision with the literals `ls` were derived and stored, and those with the literals `ds` are still to be stored. -/
structure Shadow (s : Solver ε) (base extra : Literal → List Watch) (ls ds : List Literal) (x : Solver ε)
    (a : Assignment) (w : Watches) : Prop where
  /-- Clauses are derived. -/
  on : x.settings.keep.hyperBinaries.value = true
  /-- So they are on the first level. -/
  level : x.trail.level = 1
  /-- The decision stays. -/
  decision : x.trail.decision 1 = s.trail.decision 1
  /-- The clauses are counted. -/
  counted : x.counters.hyperBinaries = s.counters.hyperBinaries + (ls ++ ds).length
  /-- Their other literals were assigned in this order. -/
  assigned : ∃ new, x.trail.literals.toList = s.trail.literals.toList ++ new ∧ (ls ++ ds).Sublist new
  /-- The reasons of these are other ones. -/
  recast : x.assignment.Recast (-s.trail.decision 1) (ls ++ ds) a
  /-- What is to be stored. -/
  derived : x.derived.toList = ds.map fun o => (-s.trail.decision 1, o)
  /-- There are as many lists. -/
  lists : x.watches.lists.size = s.watches.lists.size ∧ w.lists.size = s.watches.lists.size
  /-- What the lists have more. -/
  inserted : ∀ l, Inserted (extra l) (w.view l) (x.watches.view l)
  /-- The binary clauses of the other state. -/
  base : ∀ l, (w.view l).filter Watch.isBinary = base l

/-- On the first level a literal is assigned with its reason. -/
theorem assign_first (h1 : s.trail.level = 1) (l : Literal) (reason : Reason) : s.assign l reason =
    { s with assignment := s.assignment.set l 1 reason, trail := s.trail.push l } := by
  simp only [assign, h1, Nat.one_ne_zero, if_false]

namespace Shadow

variable (h : Shadow s base extra ls ds x a w)
include h

theorem val (l : Literal) : (x.beside s a w).val l = x.val l := congrFun h.recast.value_eq l

theorem mem {o : Literal} (ho : o ∈ ls ++ ds) : o ∈ x.trail.literals := by
  obtain ⟨new, ht, hs⟩ := h.assigned
  rw [← Array.mem_toList_iff, ht]
  exact List.mem_append_right _ (hs.subset ho)

/-- A literal that is not assigned is none of those whose clauses were derived. -/
theorem not_mem_var (hx : x.Shaped) (hv : x.val l = .unassigned) : l.var ∉ (ls ++ ds).map Literal.var := by
  intro hm
  obtain ⟨o, ho, he⟩ := List.mem_map.1 hm
  refine (hx.frame.trail.unassigned_iff hx.frame.sized).1 hv ?_
  exact he ▸ List.mem_map_of_mem (Array.mem_toList_iff.2 (h.mem ho))

theorem assigned_push (l : Literal) : ∃ new, (x.trail.push l).literals.toList = s.trail.literals.toList ++ new ∧
    (ls ++ (ds ++ [l])).Sublist new := by
  obtain ⟨new, ht, hs⟩ := h.assigned
  refine ⟨new ++ [l], ?_, ?_⟩
  · rw [Trail.push, Array.toList_push, ht, List.append_assoc]
  · rw [← List.append_assoc]
    exact hs.append (.refl _)

/-- A literal is assigned in both states. -/
theorem assign (hx : x.Shaped) (hu : x.numbering.Usable l.var) (hv : x.val l = .unassigned) (reason : Reason) :
    Shadow s base extra ls ds (x.assign l reason) (a.set l 1 reason) w ∧
      (x.beside s a w).assign l reason = (x.assign l reason).beside s (a.set l 1 reason) w := by
  have hset := h.recast.set (k := 1) hx.frame.sized hu.1 (h.not_mem_var hx hv) reason
  obtain ⟨new, ht, hs⟩ := h.assigned_push l
  rw [assign_first h.level, assign_first (s := x.beside s a w) h.level]
  refine ⟨{ h with
    decision := by rw [Trail.decision_push]; exact h.decision
    assigned := ⟨new, ht, (List.Sublist.append_left (List.sublist_append_left _ _) _).trans hs⟩
    recast := hset }, rfl⟩

/-- A literal that a stored clause forces is assigned in both states, in one of them because of a derived clause. -/
theorem assignForced (hx : x.Shaped) (hu : x.numbering.Usable l.var) (hv : x.val l = .unassigned) (r : Reference) :
    Shadow s base extra ls (ds ++ [l]) (x.assignForced l r) (a.set l 1 (.large r)) w ∧
      (x.beside s a w).assignForced l r = (x.assignForced l r).beside s (a.set l 1 (.large r)) w := by
  have hset := h.recast.force hx.frame.sized hu.1 (h.not_mem_var hx hv) (.large r)
  have hassigned := h.assigned_push l
  have hx' : x.assignForced l r = { x with
      derived := x.derived.push (-s.trail.decision 1, l)
      counters.hyperBinaries := x.counters.hyperBinaries + 1
      assignment := x.assignment.set l 1 (.binary (-s.trail.decision 1))
      trail := x.trail.push l } := by
    unfold Solver.assignForced
    rw [if_pos ⟨h.level, h.on⟩, h.decision]
    simp only [Solver.assign, count, h.level, Nat.one_ne_zero, if_false]
  have hy : (x.beside s a w).assignForced l r =
      { x.beside s a w with assignment := a.set l 1 (.large r), trail := x.trail.push l } := by
    unfold Solver.assignForced
    rw [if_neg fun hc => Bool.noConfusion hc.2]
    exact assign_first (s := x.beside s a w) h.level l _
  rw [hx', hy]
  rw [List.append_assoc] at hset
  refine ⟨{ h with
    decision := by rw [Trail.decision_push]; exact h.decision
    counted := ?_
    assigned := hassigned
    recast := hset
    derived := ?_ }, rfl⟩
  · simp only [h.counted, List.length_append, List.length_singleton]
    omega
  · rw [Array.toList_push, h.derived, List.map_append]
    rfl

/-- A clause of the store is watched by another literal in both states. -/
theorem add (m o : Literal) (r : Reference) : Shadow s base extra ls ds
    { x with watches := x.watches.add m (.large o r) } a (w.add m (.large o r)) := by
  refine { h with
    lists := by rw [Watches.size_add, Watches.size_add]; exact h.lists
    inserted := fun l => ?_
    base := fun l => by rw [Watches.filter_isBinary_add, h.base] }
  rw [Watches.view_add_eq, Watches.view_add_eq, h.lists.1, h.lists.2, ← List.append_nil (extra l)]
  exact (h.inserted l).append (.refl _)

end Shadow

/-! ## The watches of one literal -/

/-- The watches of a literal were gone through in two states side by side.  In the one state `es` were put into the
list, which began as `ws` in the other one. -/
structure Abreast (s : Solver ε) (base extra : Literal → List Watch) (ls : List Literal) (es ws : List Watch)
    (rx ry : (Option Fault × Array Watch) × Solver ε) : Prop where
  /-- This ended alike. -/
  fault : ry.1.1 = rx.1.1
  /-- The watches that stay. -/
  kept : Inserted es ry.1.2.toList rx.1.2.toList
  /-- Those of binary clauses all do. -/
  binary : ry.1.2.toList.filter Watch.isBinary = ws.filter Watch.isBinary
  /-- The states. -/
  states : ∃ ds a w, ry.2 = rx.2.beside s a w ∧ Shadow s base extra ls ds rx.2 a w

/-- A watch stays in both lists, maybe with another blocking literal, or if it is not that of a binary clause it goes. -/
theorem Abreast.keep {es ys : List Watch} {ky : Array Watch} {u : Option Watch} {v : Watch}
    {rx ry : (Option Fault × Array Watch) × Solver ε}
    (h : Abreast s base extra ls es ((u.elim ky ky.push).toList ++ ys) rx ry)
    (hu : u.toList.filter Watch.isBinary = [v].filter Watch.isBinary) :
    Abreast s base extra ls es (ky.toList ++ v :: ys) rx ry := by
  refine { h with binary := h.binary.trans ?_ }
  calc
    ((u.elim ky ky.push).toList ++ ys).filter Watch.isBinary
      = ky.toList.filter Watch.isBinary ++ (u.toList.filter Watch.isBinary ++ ys.filter Watch.isBinary) := by
        rw [toList_elim_push, List.append_assoc, List.filter_append, List.filter_append]
    _ = (ky.toList ++ v :: ys).filter Watch.isBinary := by
        rw [hu, ← List.filter_append, ← List.filter_append, List.singleton_append]

/-- After a fault all watches that are left stay. -/
theorem Shadow.halt {es fs xs ys : List Watch} {kx ky : Array Watch} (h : Shadow s base extra ls ds x a w)
    (hk : Inserted fs ky.toList kx.toList) (hin : Inserted es ys xs) (v : Watch) (e : Fault) :
    Abreast s base extra ls (fs ++ es) (ky.toList ++ v :: ys) ((some e, kx.push v ++ xs), x)
      ((some e, ky.push v ++ ys), x.beside s a w) := by
  refine ⟨rfl, ?_, by simp, ds, a, w, rfl, h⟩
  rw [Array.toList_appendList, Array.toList_appendList]
  exact (hk.push v).append hin

/-- The same becomes of a watch in both states. -/
theorem Shadow.visitWatch (h : Shadow s base extra ls ds x a w) (hx : x.Shaped) (m : Literal) {v : Watch}
    (hv : x.Readable v) : ∃ ds' a' w',
      (x.beside s a w).visitWatch m v = ((x.visitWatch m v).1, (x.visitWatch m v).2.beside s a' w') ∧
        Shadow s base extra ls ds' (x.visitWatch m v).2 a' w' := by
  unfold Solver.visitWatch
  cases v with
  | binary other r z =>
    have hval := h.val other
    dsimp only
    rw [hval]
    cases hother : x.val other with
    | tt => exact ⟨ds, a, w, rfl, h⟩
    | ff => exact ⟨ds, a, w, rfl, h⟩
    | unassigned =>
      obtain ⟨h₁, he⟩ := h.assign hx hv hother (.binary m)
      dsimp only
      rw [he]
      exact ⟨ds, _, w, rfl, h₁⟩
  | large b r =>
    have hr : x.store.Current r := hv
    have hval := h.val b
    have hvisit' : Store.visit (x.beside s a w).assignment m r = Store.visit x.assignment m r :=
      Store.visit_congr h.recast.value_eq m r
    have hstore : (x.beside s a w).store = x.store := rfl
    simp only [hval, hvisit', onStore, hstore]
    split
    · exact ⟨ds, a, w, rfl, h⟩
    have hlook : Store.Looked x.assignment r x.store (Store.visit x.assignment m r x.store) :=
      Store.looked_visit hx.store.chain hr (List.Nodup.of_map _ (hx.store.nodup _ hr.2))
    cases hvisit : Store.visit x.assignment m r x.store with
    | error e st => exact ⟨ds, a, w, rfl, { h with }⟩
    | ok v st =>
      rw [hvisit] at hlook
      obtain ⟨hp, hforced⟩ := hlook
      obtain ⟨hx₁, hf₁⟩ := hx.permute hr hp
      have h₁ : Shadow s base extra ls ds { x with store := st } a w := { h with }
      cases v with
      | satisfied other => exact ⟨ds, a, w, rfl, h₁⟩
      | moved z o => exact ⟨ds, a, _, rfl, h₁.add z o r⟩
      | forced z =>
        obtain ⟨hz, hun⟩ := hforced z rfl
        have hu := hx.store.usable _ hr.2 z (hp.perm.mem_iff.1 hz)
        obtain ⟨h₂, he⟩ := h₁.assignForced hx₁ hu hun r
        exact ⟨ds ++ [z], _, w, Prod.ext rfl he, h₂⟩
      | conflict => exact ⟨ds, a, w, rfl, h₁⟩

/-- The watches of a literal are gone through side by side.  Whatever is in the one list only is of a binary clause
whose other literal is true. -/
theorem Shadow.propagateList {es fs wx wy : List Watch} {kx ky : Array Watch} (hin : Inserted es wy wx)
    (h : Shadow s base extra ls ds x a w) (hx : x.Shaped) (hread : ∀ v ∈ wx, x.Readable v)
    (hes : ∀ v ∈ es, ∃ o ∈ ls, v = .binary o true true) (hk : Inserted fs ky.toList kx.toList) :
    Abreast s base extra ls (fs ++ es) (ky.toList ++ wy) (propagateList m wx kx x)
      (propagateList m wy ky (x.beside s a w)) := by
  induction hin generalizing x a w ds fs kx ky with
  | nil =>
    refine ⟨rfl, ?_, ?_, ds, a, w, rfl, h⟩
    · rw [List.append_nil]
      exact hk
    · rw [List.append_nil]
      rfl
  | @new es ys xs v hin ih =>
    -- the other literal is true, and the watch stays
    obtain ⟨o, ho, rfl⟩ := hes v (List.mem_cons_self ..)
    have htrue : x.val o = .tt := hx.frame.val_tt.2 (h.mem (List.mem_append_left _ ho))
    have hvisit : x.visitWatch m (.binary o true true) = (.ok (some (.binary o true true)), x) := by
      simp only [Solver.visitWatch, htrue]
    have hrest := ih h hx (fun u hu => hread u (List.mem_cons_of_mem _ hu))
      (fun u hu => hes u (List.mem_cons_of_mem _ hu)) (hk.pushNew (.binary o true true))
    rw [List.append_assoc] at hrest
    rw [propagateList_cons, hvisit]
    exact hrest
  | @old es ys xs v hin ih =>
    have hv := hread v (List.mem_cons_self ..)
    obtain ⟨ds', a', w', he, h'⟩ := h.visitWatch hx m hv
    obtain ⟨hx', hf, -⟩ := hx.visitWatch m hv
    have hbin := isBinary_visitWatch m v x
    rw [propagateList_cons, propagateList_cons, he]
    generalize x.visitWatch m v = out at h' hx' hf hbin
    obtain ⟨out, x'⟩ := out
    cases out with
    | error e => exact h'.halt hk hin v e
    | ok u =>
      have hk' : Inserted fs (u.elim ky ky.push).toList (u.elim kx kx.push).toList := by
        cases u with
        | none => exact hk
        | some u => exact hk.push u
      exact (ih h' hx' (fun z hz => (hread z (List.mem_cons_of_mem _ hz)).mono hf) hes hk').keep (hbin u rfl)

/-! ## Literals one after another -/

namespace Shadow

variable (h : Shadow s base extra ls ds x a w) (hx : x.Shaped)
include h

/-- The list of a literal is taken out in both states. -/
theorem take (hm : m.code < x.watches.lists.size) :
    Shadow s (fun l => if l = m then [] else base l) (fun l => if l = m then [] else extra l) ls ds
      { x with watches := x.watches.set m #[] } a (w.set m #[]) := by
  have hm' : m.code < w.lists.size := by rwa [h.lists.2, ← h.lists.1]
  refine { h with
    lists := by rw [Watches.size_set, Watches.size_set]; exact h.lists
    inserted := fun l => ?_
    base := fun l => ?_ }
  · rw [Watches.view_set _ hm, Watches.view_set _ hm']
    split
    · exact .nil
    · exact h.inserted l
  · rw [Watches.view_set _ hm']
    split
    · rfl
    · exact h.base l

omit h in
/-- A list is put back in both states. -/
theorem putBack {kx ky : Array Watch} (h : Shadow s (fun l => if l = m then [] else base l)
      (fun l => if l = m then [] else extra l) ls ds x a w) (hm : m.code < x.watches.lists.size)
    (hk : Inserted (extra m) ky.toList kx.toList) (hb : ky.toList.filter Watch.isBinary = base m) :
    Shadow s base extra ls ds { x with watches := x.watches.restore m kx } a (w.restore m ky) := by
  have hm' : m.code < w.lists.size := by rwa [h.lists.2, ← h.lists.1]
  refine { h with
    lists := by rw [Watches.size_restore, Watches.size_restore]; exact h.lists
    inserted := fun l => ?_
    base := fun l => ?_ }
  · have hl : Inserted (if l = m then [] else extra l) (w.view l) (x.watches.view l) := h.inserted l
    rw [Watches.view_restore _ hm, Watches.view_restore _ hm']
    by_cases he : l = m
    · rw [if_pos he] at hl
      rw [if_pos he, if_pos he, he, ← List.append_nil (extra m)]
      exact hk.append (he ▸ hl)
    · rw [if_neg he] at hl
      rwa [if_neg he, if_neg he]
  · have hl : (w.view l).filter Watch.isBinary = if l = m then [] else base l := h.base l
    rw [Watches.view_restore _ hm']
    by_cases he : l = m
    · rw [if_pos he] at hl
      rw [if_pos he, List.filter_append, hb, hl, List.append_nil, he]
    · rw [if_neg he] at hl
      rwa [if_neg he]

include hx

/-- The clauses that were derived are stored in the one state. -/
theorem storeDerived :
    Shadow s base (fun l => extra l ++ derivedWatches (-s.trail.decision 1) ds l) (ls ++ ds) [] x.storeDerived a w ∧
      (x.beside s a w).storeDerived = x.storeDerived.beside s a w := by
  have hcode : ∀ {o : Literal}, x.numbering.Usable o.var → o.code < x.watches.lists.size := fun hu =>
    hx.frame.code_lt hu
  have hno : (-s.trail.decision 1).code < x.watches.lists.size := by
    refine hcode ?_
    rw [← h.decision, Literal.var_negate]
    exact hx.frame.trail.usable _ (hx.frame.trail.decision_mem (Nat.le_refl _) (Nat.le_of_eq h.level.symm))
  have hds : ∀ o ∈ ds, o.code < x.watches.lists.size := fun o ho =>
    hcode (hx.frame.trail.usable o (h.mem (List.mem_append_right _ ho)))
  have hview := fun l => Watches.view_addDerived hno hds l
  have hwatches : x.storeDerived.watches =
      (ds.map fun o => (-s.trail.decision 1, o)).foldl (fun w x => w.addBinary x.1 x.2 true true) x.watches := by
    unfold Solver.storeDerived
    rw [← Array.foldl_toList, h.derived]
  refine ⟨{ h with
    counted := by rw [List.append_nil]; exact h.counted
    assigned := by rw [List.append_nil]; exact h.assigned
    recast := by rw [List.append_nil]; exact h.recast
    derived := rfl
    lists := by rw [hwatches, Watches.size_addDerived]; exact h.lists
    inserted := fun l => ?_ }, rfl⟩
  rw [hwatches, hview, ← List.append_nil (w.view l)]
  exact (h.inserted l).append (.all _)

end Shadow

/-- The second state is beside the first one between two literals. -/
def Beside (s : Solver ε) (base : Literal → List Watch) (x y : Solver ε) : Prop :=
  ∃ ls a w, y = x.beside s a w ∧ Shadow s base (derivedWatches (-s.trail.decision 1) ls) ls [] x a w

/-- A literal is propagated side by side. -/
theorem Shadow.propagateLiteral (h : Shadow s base (derivedWatches (-s.trail.decision 1) ls) ls [] x a w)
    (hx : x.Shaped) (hl : l ∈ x.trail.literals) :
    SameEnd (Beside s base) (propagateLiteral l x) (propagateLiteral l (x.beside s a w)) := by
  have hcode : (-l).code < x.watches.lists.size := by
    refine hx.frame.code_lt ?_
    rw [Literal.var_negate]
    exact hx.frame.trail.usable l hl
  have h₁ := h.take hcode
  have hx₁ := hx.takeWatches (-l)
  -- the literal whose list is gone through is false
  have hnot : -l ∉ ls := fun hm => hx.frame.trail.not_mem_of_neg_mem hx.frame.sized (by rwa [Literal.negate_negate])
    (h.mem (List.mem_append_left _ hm))
  have hread : ∀ u ∈ x.watches.view (-l), Readable { x with watches := x.watches.set (-l) #[] } u := hx.watches (-l)
  have hnone : Inserted ([] : List Watch) (#[] : Array Watch).toList (#[] : Array Watch).toList := .nil
  have hrun := Shadow.propagateList (m := -l) (h.inserted (-l)) h₁ hx₁ hread
    (fun u hu => mem_derivedWatches hnot hu) hnone
  obtain ⟨hx₂, hkept⟩ := hx₁.propagateList (-l) #[] hread fun u hu => by simp at hu
  have hbeside : ({ x.beside s a w with watches := (x.beside s a w).watches.set (-l) #[] } : Solver ε) =
      ({ x with watches := x.watches.set (-l) #[] } : Solver ε).beside s a (w.set (-l) #[]) := rfl
  have hof : (x.watches.of (-l)).toList = x.watches.view (-l) ∧
      ((x.beside s a w).watches.of (-l)).toList = w.view (-l) := ⟨rfl, rfl⟩
  unfold Solver.propagateLiteral
  simp only [hbeside, hof] at hx₂ hkept ⊢
  generalize Solver.propagateList (-l) (w.view (-l)) #[]
    (({ x with watches := x.watches.set (-l) #[] } : Solver ε).beside s a (w.set (-l) #[])) = ry at hrun ⊢
  generalize Solver.propagateList (-l) (x.watches.view (-l)) #[] { x with watches := x.watches.set (-l) #[] } = rx
    at hrun hx₂ hkept ⊢
  obtain ⟨⟨fault, kx⟩, x₂⟩ := rx
  obtain ⟨⟨fault', ky⟩, y₂⟩ := ry
  obtain ⟨hfault, hkeep, hbinary, ds, a', w', he, h₂⟩ := hrun
  dsimp only at hfault he hkeep hbinary hx₂ hkept h₂ ⊢
  subst hfault he
  have hcode₂ : (-l).code < x₂.watches.lists.size := by
    rw [h₂.lists.1, ← h.lists.1]
    exact hcode
  have h₃ := h₂.putBack hcode₂ hkeep (hbinary.trans (h.base (-l)))
  have hx₃ := hx₂.putBackWatches (-l) hkept
  obtain ⟨h₄, hstored⟩ := h₃.storeDerived hx₃
  simp only [← derivedWatches_append] at h₄
  have hbeside' : ({ x₂.beside s a' w' with watches := (x₂.beside s a' w').watches.restore (-l) ky } : Solver ε) =
      ({ x₂ with watches := x₂.watches.restore (-l) kx } : Solver ε).beside s a' (w'.restore (-l) ky) := rfl
  rw [hbeside', hstored]
  have hdone : Beside s base (Solver.storeDerived { x₂ with watches := x₂.watches.restore (-l) kx })
      ((Solver.storeDerived { x₂ with watches := x₂.watches.restore (-l) kx }).beside s a' (w'.restore (-l) ky)) :=
    ⟨_, _, _, rfl, h₄⟩
  cases fault' with
  | none => exact .ok hdone
  | some e => exact .error hdone

/-- Propagation of one literal after another, step by step. -/
theorem propagateMany_succ (n : Nat) (s : Solver ε) : propagateMany (n + 1) s =
    if s.trail.propagated < s.trail.size then
      match propagateLiteral (s.trail.at' s.trail.propagated) s.beginNext with
      | .ok _ s' => propagateMany n s'
      | .error e s' => .error e s'
    else .ok () s := by
  rw [propagateMany, get_bind_apply]
  split
  · next hlt =>
    simp only [Trail.next?_of_lt hlt]
    rw [modify_bind_apply, modify_bind_apply]
    refine (bind_apply (propagateLiteral (s.trail.at' s.trail.propagated)) _ s.beginNext).trans ?_
    cases propagateLiteral (s.trail.at' s.trail.propagated) s.beginNext <;> rfl
  · next hlt =>
    rw [Trail.next?_of_le (Nat.le_of_not_lt hlt)]
    rfl

/-- Literals are propagated side by side. -/
theorem Shadow.propagateMany {n : Nat} (h : Shadow s base (derivedWatches (-s.trail.decision 1) ls) ls [] x a w)
    (hx : x.Shaped) : SameEnd (Beside s base) (propagateMany n x) (propagateMany n (x.beside s a w)) := by
  induction n generalizing x a w ls with
  | zero => exact .error ⟨ls, a, w, rfl, h⟩
  | succ n ih =>
    rw [propagateMany_succ, propagateMany_succ]
    by_cases hlt : x.trail.propagated < x.trail.size
    · have hlt' : (x.beside s a w).trail.propagated < (x.beside s a w).trail.size := hlt
      have hbegin : (x.beside s a w).beginNext = x.beginNext.beside s a w := rfl
      have hx₁ : x.beginNext.Shaped :=
        { hx with frame := { hx.frame with } }
      have h₁ : Shadow s base (derivedWatches (-s.trail.decision 1) ls) ls [] x.beginNext a w := { h with }
      have hstep : SameEnd (Beside s base) (Solver.propagateLiteral (x.trail.at' x.trail.propagated) x.beginNext)
          (Solver.propagateLiteral (x.trail.at' x.trail.propagated) (x.beginNext.beside s a w)) :=
        h₁.propagateLiteral hx₁ (Trail.at'_mem hlt)
      have hshaped := hx₁.ends_propagateLiteral (x.trail.at' x.trail.propagated)
      have hnext : (x.beside s a w).trail.at' (x.beside s a w).trail.propagated = x.trail.at' x.trail.propagated := rfl
      rw [if_pos hlt, if_pos hlt', hbegin, hnext]
      unfold Ends at hshaped
      generalize Solver.propagateLiteral (x.trail.at' x.trail.propagated) x.beginNext = rx at hstep hshaped ⊢
      generalize Solver.propagateLiteral (x.trail.at' x.trail.propagated) (x.beginNext.beside s a w) = ry at hstep ⊢
      cases hstep with
      | ok hb =>
        obtain ⟨ls', a', w', rfl, h₂⟩ := hb
        exact ih h₂ hshaped
      | error hb => exact .error hb
    · have hlt' : ¬ (x.beside s a w).trail.propagated < (x.beside s a w).trail.size := hlt
      rw [if_neg hlt, if_neg hlt']
      exact .ok ⟨ls, a, w, rfl, h⟩

/-- A state where clauses are derived, and the same one where none are. -/
theorem shadow_self (h1 : s.trail.level = 1) (hon : s.settings.keep.hyperBinaries.value = true) (hd : s.derived = #[]) :
    Shadow s (fun l => (s.watches.view l).filter Watch.isBinary) (derivedWatches (-s.trail.decision 1) []) [] [] s
      s.assignment s.watches where
  on := hon
  level := h1
  decision := rfl
  counted := rfl
  assigned := ⟨[], (List.append_nil _).symm, .refl _⟩
  recast := ⟨.refl _, fun _ _ => rfl, fun _ ho => by simp at ho⟩
  derived := by rw [hd]; rfl
  lists := ⟨rfl, rfl⟩
  inserted l := .refl _
  base _ := rfl

/-- On the first level propagation ends alike, whether clauses are derived or not, and in states side by side. -/
theorem Shaped.propagate_beside (hx : s.Shaped) (h1 : s.trail.level = 1)
    (hon : s.settings.keep.hyperBinaries.value = true) (hd : s.derived = #[]) :
    SameEnd (Beside s fun l => (s.watches.view l).filter Watch.isBinary) (propagate s) (propagate s.plain) := by
  have hself : s.plain = s.beside s s.assignment s.watches := by
    unfold beside
    rw [← hd]
    rfl
  rw [hself]
  exact (shadow_self h1 hon hd).propagateMany hx

end Solver

end ClauseLearning

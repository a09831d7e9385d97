import Mathlib.Data.List.Nodup
import ClauseLearning.Proofs.Blind
import ClauseLearning.Proofs.WatchLists
import ClauseLearning.Proofs.Jumping
import ClauseLearning.Proofs.RootSimplification

/-!
# Taking over what is handed out

Units and clauses from outside are not to be trusted: they may be of any size, mention any variables, or have a literal
twice.  Each of them is skipped, or shows that there is no model, or is assigned or stored with the literals that are
left of it.  What one of them changes counts for the next one at once, before anything is propagated.  Since none of the
literals that are stored is assigned, every clause is watched as it is to be, and propagation goes on from there.

A unit is taken over like a clause with one literal.

* `Solver.Useless`, `Solver.LeftOf` — when something is skipped, and what is left of it otherwise.
* `Solver.Merged` — one of them was taken over, with `Solver.Inv.ends_importClause`.
* `Solver.Drains` — all that a source hands out, with `Solver.Inv.drains`.
* `Solver.imports_merged` — both sources.
-/

namespace ClauseLearning

namespace Numbering

variable {m : Numbering} {e : Int} {es : List Int}

/-- An external literal is on a known variable which is not eliminated. -/
def InUse (m : Numbering) (e : Int) : Prop :=
  e ≠ 0 ∧ e.natAbs ≤ m.size ∧ m.isEliminated (e.natAbs - 1) = false

theorem lookup?_of_inUse (h : m.InUse e) : m.lookup? e = some (toLiteral e) := by
  obtain ⟨h0, hle, he⟩ := h
  have hpos : 0 < e.natAbs := Int.natAbs_pos.2 h0
  unfold lookup? knows
  rw [if_pos (by simp [hpos, hle, he])]

theorem lookup?_of_not_inUse (h : ¬ m.InUse e) : m.lookup? e = none := by
  unfold lookup? knows
  rw [if_neg]
  intro hc
  simp only [Bool.and_eq_true, decide_eq_true_eq, Bool.not_eq_true'] at hc
  exact h ⟨Int.natAbs_pos.1 hc.1.1, hc.1.2, hc.2⟩

theorem mapM_lookup?_of_inUse (h : ∀ e ∈ es, m.InUse e) : es.mapM m.lookup? = some (es.map toLiteral) := by
  induction es with
  | nil => rfl
  | cons e es ih =>
    have hrest := ih fun e he => h e (List.mem_cons_of_mem _ he)
    simp only [List.mapM_cons, lookup?_of_inUse (h e (List.mem_cons_self ..)), hrest]
    rfl

theorem mapM_lookup?_of_not_inUse (h : ∃ e ∈ es, ¬ m.InUse e) : es.mapM m.lookup? = none := by
  induction es with
  | nil => simp at h
  | cons e es ih =>
    by_cases he : m.InUse e
    · obtain ⟨e', hm, hne⟩ := h
      have hrest : es.mapM m.lookup? = none := by
        rcases List.mem_cons.1 hm with rfl | hm
        · exact absurd he hne
        · exact ih ⟨e', hm, hne⟩
      simp only [List.mapM_cons, lookup?_of_inUse he, hrest]
      rfl
    · simp only [List.mapM_cons, lookup?_of_not_inUse he]
      rfl

theorem toLiteral_neg (h : e ≠ 0) : toLiteral (-e) = -toLiteral e := by
  rw [← Literal.make_var_positive (-toLiteral e), Literal.var_negate, Literal.positive_negate]
  simp only [toLiteral, Int.natAbs_neg, Literal.var_make, Literal.positive_make]
  congr 1
  by_cases hpos : 0 < e
  · simp [hpos, Int.le_of_lt hpos]
  · have hneg : e < 0 := by omega
    simp [hpos, hneg]

theorem toLiteral_injective {e' : Int} (h : e ≠ 0) (h' : e' ≠ 0) (he : toLiteral e = toLiteral e') : e = e' := by
  rw [← toExternal_toLiteral h, he, toExternal_toLiteral h']

end Numbering

namespace Assignment

variable {a : Assignment} {c c' : List Literal} {l : Literal}

/-- A clause is of no use if it has a literal and its negation, or a true literal. -/
theorem rootClause_eq_useless : a.rootClause c = .useless ↔ (∃ l ∈ c, -l ∈ c) ∨ ∃ l ∈ c, a.value l = .tt := by
  have hlt := pairwise_dropRepeats (Literal.pairwise_sorted c)
  have hopposites : hasOpposites (dropRepeats (Literal.sorted c)) = true ↔ ∃ l ∈ c, -l ∈ c := by
    constructor
    · intro ho
      obtain ⟨l, hl, hn⟩ := exists_opposites hlt ho
      exact ⟨l, mem_dropRepeats_sorted.1 hl, mem_dropRepeats_sorted.1 hn⟩
    · rintro ⟨l, hl, hn⟩
      by_contra hno
      have hnodup : ((dropRepeats (Literal.sorted c)).map Literal.var).Nodup := by
        rw [List.Nodup, List.pairwise_map]
        exact (pairwise_var hlt (Bool.not_eq_true _ ▸ hno)).imp Nat.ne_of_lt
      have hsame := List.inj_on_of_nodup_map hnodup (mem_dropRepeats_sorted.2 hn) (mem_dropRepeats_sorted.2 hl)
        (Literal.var_negate l)
      exact Literal.negate_ne l hsame
  have hany : ((dropRepeats (Literal.sorted c)).any fun l => a.value l = .tt) = true ↔ ∃ l ∈ c, a.value l = .tt := by
    simp only [List.any_eq_true, mem_dropRepeats_sorted, decide_eq_true_eq]
  unfold rootClause
  simp only
  rw [← hopposites, ← hany]
  split
  · next h => simp [h]
  · next h =>
    split
    · next h' => simp [h']
    · next h' => simp [h, h']

/-- What is left of any other clause is its literals that are not false. -/
theorem mem_rootClause (h : a.rootClause c = .literals c') : l ∈ c' ↔ l ∈ c ∧ a.value l ≠ .ff := by
  obtain ⟨-, hsub, hfalse⟩ := rootClause_literals h
  constructor
  · intro hl
    obtain ⟨hm, hv⟩ := hsub l hl
    exact ⟨hm, by simp [hv]⟩
  · rintro ⟨hl, hv⟩
    by_contra hn
    exact hv (hfalse l hl hn)

end Assignment

namespace Solver

variable {ε α : Type} {lags : Prop} {s s' : Solver ε} {p glue : Nat} {es : List Int} {c : List Literal}

/-! ## One of them -/

/-- Something from outside is of no use: it mentions zero, an unknown variable or an eliminated one, or has a literal
that is true, or a literal and its negation. -/
def Useless (s : Solver ε) (es : List Int) : Prop :=
  (∃ e ∈ es, ¬ s.numbering.InUse e) ∨ (∃ e ∈ es, s.val (Numbering.toLiteral e) = .tt) ∨ ∃ e ∈ es, -e ∈ es

/-- What is left of something from outside: its distinct literals that are not false. -/
structure LeftOf (s : Solver ε) (es : List Int) (c : List Literal) : Prop where
  /-- None is there twice. -/
  nodup : c.Nodup
  /-- Which ones they are. -/
  mem_iff : ∀ l, l ∈ c ↔ l ∈ es.map Numbering.toLiteral ∧ s.val l ≠ .ff

/-- There is no room for what is left of something from outside. -/
def Crowded (s : Solver ε) (es : List Int) : Prop :=
  ¬ s.Useless es ∧ ∃ c, s.LeftOf es c ∧ 3 ≤ c.length ∧
    Store.padding ≤ s.store.words.size + Store.headerWords + c.length

/-- What taking over something from outside makes of a solver at the root.  The literals that are left are assigned or
stored, and none of them was assigned before.  Nothing else changes but one count. -/
inductive Merged (s : Solver ε) (es : List Int) (glue : Nat) : Solver ε → Prop
  /-- It is skipped. -/
  | skipped : s.Useless es →
      Merged s es glue (s.count fun c => { c with importSkipped := c.importSkipped + 1 })
  /-- Nothing is left of it, and there is no model. -/
  | refuted : ¬ s.Useless es → s.LeftOf es [] → Merged s es glue { s with inconsistent := true }
  /-- One literal is left, and is assigned at the root. -/
  | unit {a : Literal} : ¬ s.Useless es → s.LeftOf es [a] → s.val a = .unassigned →
      Merged s es glue ({ s with
        unflushed := s.unflushed + 1
        assignment := s.assignment.set a 0 .unit
        trail := s.trail.push a }.count fun c => { c with importedUnits := c.importedUnits + 1 })
  /-- Two literals are left, and become one redundant binary clause. -/
  | binary {a b : Literal} {watches : Watches} : ¬ s.Useless es → s.LeftOf es [a, b] →
      s.val a = .unassigned → s.val b = .unassigned →
      (∀ l, watches.view l =
        if l = a then s.watches.view l ++ [.binary b true false]
        else if l = b then s.watches.view l ++ [.binary a true false] else s.watches.view l) →
      watches.lists.size = s.watches.lists.size →
      Merged s es glue ({ s with watches }.count fun c => { c with importedClauses := c.importedClauses + 1 })
  /-- Three or more are left, and become one redundant clause of the store, which is noted as a recent one. -/
  | large {x y : Literal} {tail : List Literal} {store : Store} {watches : Watches} : ¬ s.Useless es →
      s.LeftOf es (x :: y :: tail) → 3 ≤ (x :: y :: tail).length →
      (∀ l ∈ x :: y :: tail, s.val l = .unassigned) →
      s.store.words.size + Store.headerWords + (x :: y :: tail).length < Store.padding →
      store.references = s.store.references ++ [s.store.nextReference] →
      (∀ r, s.store.Current r → store.recordAt r.offset = s.store.recordAt r.offset) →
      store.recordAt s.store.nextReference.offset =
        s.learntRecord (x :: y :: tail) (min glue ((x :: y :: tail).length - 1)) →
      (∀ l, watches.view l =
        if l = x then s.watches.view l ++ [.large y s.store.nextReference]
        else if l = y then s.watches.view l ++ [.large x s.store.nextReference] else s.watches.view l) →
      watches.lists.size = s.watches.lists.size →
      Merged s es glue ({ s with store, watches, recent := s.recent.push s.store.nextReference }.count fun c =>
        { c with importedClauses := c.importedClauses + 1 })

/-- Something from outside is of no use, or its literals are known. -/
theorem mapM_lookup? (h : ¬ s.Useless es) :
    es.mapM s.numbering.lookup? = some (es.map Numbering.toLiteral) ∧ ∀ e ∈ es, s.numbering.InUse e := by
  have hall : ∀ e ∈ es, s.numbering.InUse e := by
    intro e he
    by_contra hn
    exact h (.inl ⟨e, he, hn⟩)
  exact ⟨Numbering.mapM_lookup?_of_inUse hall, hall⟩

/-- What is left is found by sorting. -/
theorem rootClause_of_not_useless (h : ¬ s.Useless es) : ∃ c,
    s.assignment.rootClause (es.map Numbering.toLiteral) = .literals c ∧ s.LeftOf es c := by
  obtain ⟨-, hall⟩ := mapM_lookup? h
  cases hr : s.assignment.rootClause (es.map Numbering.toLiteral) with
  | useless =>
    refine absurd ?_ h
    rcases Assignment.rootClause_eq_useless.1 hr with ⟨l, hl, hn⟩ | ⟨l, hl, hv⟩
    · obtain ⟨e, he, rfl⟩ := List.mem_map.1 hl
      obtain ⟨e', he', hneg⟩ := List.mem_map.1 hn
      rw [← Numbering.toLiteral_neg (hall e he).1] at hneg
      have hsame := Numbering.toLiteral_injective (hall e' he').1 (Int.neg_ne_zero.2 (hall e he).1) hneg
      exact .inr (.inr ⟨e, he, hsame ▸ he'⟩)
    · obtain ⟨e, he, rfl⟩ := List.mem_map.1 hl
      exact .inr (.inl ⟨e, he, hv⟩)
  | literals c =>
    have hnodup := List.Nodup.of_map _ (Assignment.rootClause_literals hr).1
    exact ⟨c, rfl, hnodup, fun l => Assignment.mem_rootClause hr⟩

theorem importClause_of_useless (h : s.Useless es) : importClause es glue s = .ok () s.skipImport := by
  unfold importClause
  rw [get_bind_apply]
  by_cases hall : ∀ e ∈ es, s.numbering.InUse e
  · have hr : s.assignment.rootClause (es.map Numbering.toLiteral) = .useless := by
      rw [Assignment.rootClause_eq_useless]
      rcases h with ⟨e, he, hn⟩ | ⟨e, he, hv⟩ | ⟨e, he, hn⟩
      · exact absurd (hall e he) hn
      · exact .inr ⟨_, List.mem_map_of_mem he, hv⟩
      · refine .inl ⟨_, List.mem_map_of_mem he, ?_⟩
        rw [← Numbering.toLiteral_neg (hall e he).1]
        exact List.mem_map_of_mem hn
    simp only [Numbering.mapM_lookup?_of_inUse hall, hr]
    rfl
  · have hn : ∃ e ∈ es, ¬ s.numbering.InUse e := by
      simpa only [not_forall, exists_prop] using hall
    simp only [Numbering.mapM_lookup?_of_not_inUse hn]
    rfl

/-- Nothing is decided on the way, and nothing is propagated. -/
theorem Merged.trail (h : Merged s es glue s') (h0 : s.trail.level = 0) :
    s'.trail.level = 0 ∧ s'.trail.propagated = s.trail.propagated ∧ s.trail.size ≤ s'.trail.size := by
  cases h with
  | unit hn hl hv => exact ⟨h0, rfl, by simp [count, Trail.push, Trail.size]⟩
  | skipped | refuted | binary | large => exact ⟨h0, rfl, Nat.le_refl _⟩

/-- Storing a redundant clause succeeds only if there is room. -/
theorem ends_storeRedundant_room {ls : Array Literal} :
    Ends (storeRedundant ls glue) s
      (fun _ _ => s.store.words.size + Store.headerWords + ls.size < Store.padding) fun _ _ => True := by
  by_cases hroom : Store.padding ≤ s.store.words.size + Store.headerWords + ls.size
  · have hfault : ∃ e, Store.allocate ls true glue s.store = .error e s.store := by
      rw [Store.allocate_eq, if_pos hroom]
      split
      · exact ⟨_, rfl⟩
      · exact ⟨_, rfl⟩
    obtain ⟨e, he⟩ := hfault
    unfold storeRedundant
    rw [ends_bind, ends_onStore, ends_of_error he]
    trivial
  · unfold Ends
    split
    · exact Nat.lt_of_not_le hroom
    · trivial

/-- A redundant clause is stored with its glue and its flags, and watched, if there is room. -/
theorem ends_storeRedundant_exact {x y : Literal} {tail : List Literal} (hc : s.store.Chain 0)
    (h3 : 3 ≤ (x :: y :: tail).length) :
    Ends (storeRedundant (x :: y :: tail).toArray glue) s
      (fun r s' => r = s.store.nextReference ∧
        s.store.words.size + Store.headerWords + (x :: y :: tail).length < Store.padding ∧ ∃ st' f,
          s' = { s with store := st', watches := s.watches.addLarge r x y } ∧
          Store.Appended (x :: y :: tail) f s.store st' ∧ f.redundant = true ∧ f.reason = false ∧
          st'.recordAt s.store.words.size = s.learntRecord (x :: y :: tail) glue)
      (fun e s' => e = .exhausted ∧ s' = s ∧
        Store.padding ≤ s.store.words.size + Store.headerWords + (x :: y :: tail).length) := by
  have hrecord : Ends (storeRedundant (x :: y :: tail).toArray glue) s _ _ := ends_storeRedundant_record hc rfl h3
  have hsame : Ends (storeRedundant (x :: y :: tail).toArray glue) s _ _ := ends_storeRedundant hc rfl h3
  refine ((hrecord.and hsame).and ends_storeRedundant_room).imp (fun r s₁ h₁ => ?_) fun e s₁ he => ?_
  · obtain ⟨⟨⟨rfl, st', f, rfl, happ, hrec⟩, -⟩, hroom⟩ := h₁
    have hflags := happ.flags.symm.trans (congrArg Store.Record.flags hrec)
    exact ⟨rfl, hroom, st', f, rfl, happ, congrArg Flags.redundant hflags, congrArg Flags.reason hflags, hrec⟩
  · obtain ⟨⟨⟨rfl, hfull⟩, -, rfl⟩, -⟩ := he
    exact ⟨rfl, rfl, hfull⟩

/-- A redundant clause may be noted as a recent one. -/
theorem Inv.push_recent {r : Reference} (h : s.Inv lags p) (hr : s.store.Current r)
    (hredundant : (s.store.flagsAt r.offset).redundant = true) :
    Inv lags { s with recent := s.recent.push r } p := by
  refine { h with
    toFrame := { h.toFrame with }
    toWired := { h.toWired with recent := fun r' hr' => ?_ }
    toClean := { h.toClean with } }
  rcases Recent.mem_of_push hr' with rfl | hr'
  · exact ⟨hr, hredundant⟩
  · exact h.recent r' hr'

/-- Something is taken over at the root, unless there is no room for it. -/
theorem Inv.ends_importClause (h : s.Inv lags p) (hp : p ≤ s.trail.size) (h0 : s.trail.level = 0)
    (es : List Int) (glue : Nat) :
    Ends (importClause es glue) s (fun _ s' => Merged s es glue s' ∧ s'.Inv lags p)
      (fun e s' => e = .exhausted ∧ s' = s ∧ s.Crowded es) := by
  by_cases huse : s.Useless es
  · rw [ends_of_ok (importClause_of_useless huse)]
    exact ⟨.skipped huse, (aside_count s _).inv h⟩
  obtain ⟨hmap, hall⟩ := mapM_lookup? huse
  obtain ⟨c, hr, hleft⟩ := rootClause_of_not_useless huse
  have hfresh : s.Fresh c := by
    refine Fresh.of_rootClause (fun l hl => ?_) hr
    obtain ⟨e, he, rfl⟩ := List.mem_map.1 hl
    obtain ⟨h0, hle, helim⟩ := hall e he
    have hpos := Int.natAbs_pos.2 h0
    rw [Numbering.toLiteral, Literal.var_make]
    exact ⟨by omega, helim⟩
  unfold importClause
  simp only [ends_bind, ends_get, hmap, hr]
  -- as the function takes the clause apart: nothing is left, one literal, two, or at least three
  rcases c with _ | ⟨a, _ | ⟨b, _ | ⟨d, tail⟩⟩⟩
  · exact ⟨.refuted huse hleft, h.refute⟩
  · have hv := hfresh.unassigned a (by simp)
    have hinv : (s.assign a .unit).Inv lags p := h.assign (hfresh.usable a (by simp)) hv hp h0
    have he : s.assign a .unit = { s with
        unflushed := s.unflushed + 1, assignment := s.assignment.set a 0 .unit, trail := s.trail.push a } := by
      unfold Solver.assign
      rw [if_pos h0]
    simp only [ends_modify]
    unfold assignImported
    rw [he] at hinv ⊢
    exact ⟨.unit huse hleft hv, (aside_count _ _).inv hinv⟩
  · have hua := hfresh.usable a (by simp)
    have hub := hfresh.usable b (by simp)
    have hne : a ≠ b := by
      rintro rfl
      have hn := hfresh.nodup
      simp at hn
    obtain ⟨hinv, -, -⟩ := hfresh.addBinary h true
    have hview := Watches.view_addBinary (w := s.watches) true false (h.code_lt hua) (h.code_lt hub) hne
    refine ⟨.binary huse hleft (hfresh.unassigned a (by simp)) (hfresh.unassigned b (by simp)) hview ?_,
      (aside_count _ _).inv hinv⟩
    simp only [Watches.addBinary, Watches.size_add]
  · have hview := view_append h.toFrame hfresh.nodup hfresh.usable
    simp only [ends_bind, ends_modify]
    refine (ends_storeRedundant_exact h.store.chain (by simp)).imp (fun r s₁ h₁ => ?_) fun e s₁ he => ?_
    · obtain ⟨rfl, hroom, st', f, rfl, happ, hredundant, hreason, hrec⟩ := h₁
      have hold : ∀ r, s.store.Current r → st'.recordAt r.offset = s.store.recordAt r.offset := fun r hr =>
        happ.recordAt_old h.store.chain hr.2
      have hinv := (hfresh.append h (by simp) hreason happ).1
      have hflags := (congrArg Flags.redundant happ.flags).trans hredundant
      refine ⟨.large huse hleft (by simp) hfresh.unassigned hroom happ.references hold hrec hview ?_,
        (aside_count _ _).inv (hinv.push_recent happ.current_next hflags)⟩
      simp only [Watches.addLarge, Watches.size_add]
    · obtain ⟨rfl, rfl, hfull⟩ := he
      exact ⟨rfl, rfl, huse, _, hleft, by simp, hfull⟩

/-- A unit is taken over like a clause with one literal. -/
theorem importClause_singleton (s : Solver ε) (e : Int) (glue : Nat) :
    importClause [e] glue s = .ok () (s.importUnit e) := by
  unfold importClause importUnit
  rw [get_bind_apply]
  cases hl : s.numbering.lookup? e with
  | none =>
    simp only [List.mapM_cons, hl]
    rfl
  | some l =>
    have hmap : [e].mapM s.numbering.lookup? = some [l] := by
      simp only [List.mapM_cons, List.mapM_nil, hl]
      rfl
    have hsorted : dropRepeats (Literal.sorted [l]) = [l] := rfl
    have hopposites : hasOpposites [l] = false := rfl
    simp only [hmap, Assignment.rootClause, hsorted, hopposites]
    have hval : s.val l = s.assignment.value l := rfl
    cases hv : s.assignment.value l <;> simp [hval, hv] <;> rfl

/-- What is left of a unit is not too long for the store. -/
theorem not_crowded_singleton (s : Solver ε) (e : Int) : ¬ s.Crowded [e] := by
  rintro ⟨-, c, hc, h3, -⟩
  have hsub : c ⊆ [Numbering.toLiteral e] := fun l hl => ((hc.mem_iff l).1 hl).1
  have hle := (hc.nodup.subperm hsub).length_le
  rw [List.length_singleton] at hle
  omega

/-! ## All of them -/

/-- What is in a state that is left behind, in whichever way. -/
def final (r : EStateM.Result Fault (Solver ε) Unit) : Solver ε :=
  match r with
  | .ok _ s => s
  | .error _ s => s

/-- How it ends to take over what a source hands out from `e` on, and what was taken over until then.  Items are clauses
with a glue. -/
inductive Drains (source : Source ε α) (item : α → List Int × Nat) :
    ε → Solver ε → List α → EStateM.Result Fault (Solver ε) Unit → Prop
  /-- There is no model, and nothing more is asked for. -/
  | stop {e : ε} {s : Solver ε} : s.inconsistent = true →
      Drains source item e s [] (.ok () { s with outside := e })
  /-- There is nothing more. -/
  | done {e e' : ε} {s : Solver ε} : s.inconsistent = false → source.next e = (none, e') →
      Drains source item e s [] (.ok () { s with outside := e' })
  /-- There is no room for the next one. -/
  | full {e e' : ε} {s : Solver ε} {a : α} : s.inconsistent = false → source.next e = (some a, e') →
      s.Crowded (item a).1 → Drains source item e s [] (.error .exhausted { s with outside := e' })
  /-- The next one is taken over, and then those after it. -/
  | next {e e' : ε} {s s' : Solver ε} {a : α} {rest : List α} {r : EStateM.Result Fault (Solver ε) Unit} :
      s.inconsistent = false → source.next e = (some a, e') → Merged s (item a).1 (item a).2 s' →
      Drains source item e' s' rest r → Drains source item e s (a :: rest) r

/-- How many items were taken over, or turned out to be of no use. -/
def imported (s : Solver ε) : Nat :=
  s.counters.importedUnits + s.counters.importedClauses + s.counters.importSkipped

/-- One more item is counted, unless it shows that there is no model. -/
theorem Merged.imported (h : Merged s es glue s') (hi : s.inconsistent = false) :
    s'.imported + (if s'.inconsistent then 1 else 0) = s.imported + 1 := by
  cases h <;> simp [Solver.imported, count, hi] <;> omega

/-- Each item that was taken over is counted once, but for one that shows that there is no model. -/
theorem Drains.imported {source : Source ε α} {item : α → List Int × Nat} {e : ε} {taken : List α}
    {r : EStateM.Result Fault (Solver ε) Unit} (h : Drains source item e s taken r) (hi : s.inconsistent = false) :
    (final r).imported + (if (final r).inconsistent then 1 else 0) = s.imported + taken.length := by
  induction h with
  | stop ht =>
    rw [hi] at ht
    cases ht
  | done | full => simp [final, Solver.imported, hi]
  | @next e e' s s' a rest r hs hnext hm hrest ih =>
    have hone := hm.imported hs
    cases hi' : s'.inconsistent with
    | false =>
      rw [hi'] at hone
      simp only [Bool.false_eq_true, if_false] at hone
      rw [ih hi', List.length_cons]
      omega
    | true =>
      cases hrest with
      | stop =>
        rw [hi'] at hone
        simpa [final, Solver.imported, hi'] using hone
      | done ht | full ht | next ht =>
        rw [hi'] at ht
        cases ht

/-- Items are taken over one after another.  The induction is on how much a source can hand out. -/
theorem Inv.drains {source : Source ε α} {item : α → List Int × Nat} {take : α → SolverM ε Unit}
    (htake : ∀ a s, take a s = importClause (item a).1 (item a).2 s) (e : ε) (h : s.Inv lags p)
    (hp : p ≤ s.trail.size) (h0 : s.trail.level = 0) :
    (∃ taken, Drains source item e s taken (drain source take e s)) ∧
      (final (drain source take e s)).Inv lags p ∧
      (final (drain source take e s)).trail.propagated = s.trail.propagated := by
  induction hn : source.size e using Nat.strongRecOn generalizing e s with
  | _ n ih =>
    have houtside : ∀ {S : Solver ε} (e' : ε), S.Inv lags p → Inv lags { S with outside := e' } p := fun e' hS =>
      { hS with
        toFrame := { hS.toFrame with }
        toWired := { hS.toWired with }
        toClean := { hS.toClean with } }
    rw [drain_eq]
    by_cases hi : s.inconsistent = true
    · rw [if_pos hi]
      exact ⟨⟨[], .stop hi⟩, houtside e h, rfl⟩
    · rw [if_neg hi]
      have hi := Bool.not_eq_true _ ▸ hi
      cases hnext : source.next e with
      | mk next e' =>
        cases next with
        | none => exact ⟨⟨[], .done hi hnext⟩, houtside e' h, rfl⟩
        | some a =>
          simp only
          have hends := h.ends_importClause hp h0 (item a).1 (item a).2
          rw [htake]
          cases hrun : importClause (item a).1 (item a).2 s with
          | ok u s₁ =>
            obtain ⟨hm, hinv⟩ := hends.of_ok hrun
            obtain ⟨hlevel, hsame, hle⟩ := hm.trail h0
            obtain ⟨⟨taken, hd⟩, hinv', hsame'⟩ :=
              ih _ (hn ▸ source.size_lt hnext) e' hinv (Nat.le_trans hp hle) hlevel rfl
            exact ⟨⟨a :: taken, .next hi hnext hm hd⟩, hinv', hsame'.trans hsame⟩
          | error fault s₁ =>
            obtain ⟨rfl, rfl, hc⟩ := hends.of_error hrun
            exact ⟨⟨[], .full hi hnext hc⟩, houtside e' h, rfl⟩

/-! ## Both sources -/

/-- What comes of it to take over what a source hands out, if there is one.  All that was taken over is counted, but for
an item that shows that there is no model. -/
def TakesOver (source : Option (Source ε α)) (item : α → List Int × Nat) (s : Solver ε)
    (r : EStateM.Result Fault (Solver ε) Unit) : Prop :=
  match source with
  | none => r = .ok () s
  | some f => ∃ taken, Drains f item s.outside s taken r ∧
      (final r).imported + (if (final r).inconsistent then 1 else 0) = s.imported + taken.length

section Sources

variable (h : s.Inv lags p) (hp : p ≤ s.trail.size) (h0 : s.trail.level = 0)
include h hp h0

theorem takesOver_importUnits (hi : s.inconsistent = false) :
    TakesOver s.hooks.units (fun e => ([e], 0)) s (importUnits s) ∧ (final (importUnits s)).Inv lags p ∧
      (final (importUnits s)).trail.propagated = s.trail.propagated := by
  unfold importUnits TakesOver
  rw [get_bind_apply, if_neg (by simpa using h0)]
  cases s.hooks.units with
  | none => exact ⟨rfl, h, rfl⟩
  | some source =>
    have htake : ∀ (e : Int) (s : Solver ε),
        (modify fun s => s.importUnit e : SolverM ε Unit) s = importClause [e] 0 s := fun e s =>
      (importClause_singleton s e 0).symm
    have hdrains := @Inv.drains _ _ _ _ _ source (fun e => ([e], 0)) _ htake s.outside h hp h0
    obtain ⟨⟨taken, hd⟩, hrest⟩ := hdrains
    exact ⟨⟨taken, hd, hd.imported hi⟩, hrest⟩

theorem takesOver_importClauses (hi : s.inconsistent = false) :
    TakesOver s.hooks.clauses (fun c => (c.literals, c.glue)) s (importClauses s) ∧
      (final (importClauses s)).Inv lags p ∧
      (final (importClauses s)).trail.propagated = s.trail.propagated := by
  unfold importClauses TakesOver
  rw [get_bind_apply, if_neg (by simpa using h0)]
  cases s.hooks.clauses with
  | none => exact ⟨rfl, h, rfl⟩
  | some source =>
    have htake : ∀ (c : SharedClause) (s : Solver ε),
        (importClause c.literals c.glue : SolverM ε Unit) s = importClause c.literals c.glue s := fun _ _ => rfl
    have hdrains := @Inv.drains _ _ _ _ _ source (fun c => (c.literals, c.glue)) _ htake s.outside h hp h0
    obtain ⟨⟨taken, hd⟩, hrest⟩ := hdrains
    exact ⟨⟨taken, hd, hd.imported hi⟩, hrest⟩

end Sources

/-- Units are never too long for the store. -/
theorem Drains.exists_ok {source : Source ε α} {unit : α → Int} {e : ε} {taken : List α}
    {r : EStateM.Result Fault (Solver ε) Unit} (h : Drains source (fun a => ([unit a], glue)) e s taken r) :
    ∃ s', r = .ok () s' := by
  induction h with
  | stop | done => exact ⟨_, rfl⟩
  | full _ _ hc => exact absurd hc (not_crowded_singleton _ _)
  | next _ _ _ _ ih => exact ih

variable {C : Settings} {hooks : Hooks ε} {limits : Limits} {stopped : Bool} {outside : ε} {moment : Moment}

/-- Above the root nothing is taken over.  At the root units and clauses are taken over one after another, in any
reachable state in which nothing is refuted; there may be literals that are not propagated yet.  The lists of watches
are the clauses then.  No clause is watched by false literals if propagation ends without a conflict after that, unless
it had ended in one before. -/
theorem imports_merged (h : Reached C hooks limits stopped outside (moment, s)) (hi : s.inconsistent = false) :
    (s.trail.level ≠ 0 → importUnits s = .error .notAtRoot s ∧ importClauses s = .error .notAtRoot s) ∧
    (s.trail.level = 0 →
      TakesOver s.hooks.units (fun e => ([e], 0)) s (importUnits s) ∧ (∃ s', importUnits s = .ok () s') ∧
      TakesOver s.hooks.clauses (fun c => (c.literals, c.glue)) s (importClauses s) ∧
      ∀ S ∈ [final (importUnits s), final (importClauses s)], S.Listed ∧
        ((∀ key, moment ≠ .conflicted key) → S.inconsistent = false →
          ∀ s', propagate S = .ok () s' → s'.Listed ∧ s'.WatchesHold)) := by
  refine ⟨fun hn => ⟨?_, ?_⟩, fun h0 => ?_⟩
  · unfold importUnits
    rw [get_bind_apply, if_pos hn]
    rfl
  · unfold importClauses
    rw [get_bind_apply, if_pos hn]
    rfl
  · obtain ⟨p, hinv⟩ := (Reached.stands h).intact
    have hmin : s.Inv (false = false) (min p s.trail.size) := hinv.anti (Nat.min_le_left ..)
    have hunits := takesOver_importUnits hmin (Nat.min_le_right ..) h0 hi
    have hclauses := takesOver_importClauses hmin (Nat.min_le_right ..) h0 hi
    refine ⟨hunits.1, ?_, hclauses.1, fun S hS => ⟨?_, fun hm hS' s' hrun => ?_⟩⟩
    · have htakes := hunits.1
      unfold TakesOver at htakes
      cases hsource : s.hooks.units with
      | none =>
        rw [hsource] at htakes
        exact ⟨s, htakes⟩
      | some source =>
        rw [hsource] at htakes
        obtain ⟨taken, hd, -⟩ := htakes
        exact hd.exists_ok
    · simp only [List.mem_cons, List.not_mem_nil, or_false] at hS
      rcases hS with rfl | rfl
      · exact hunits.2.1.listed
      · exact hclauses.2.1.listed
    · have hlive : s.Live (false = false) := (Reached.stands h).live hm h0 hi
      have hkept : S.Inv (false = false) S.trail.propagated := by
        have hle := hlive.inv.trail.propagated
        simp only [List.mem_cons, List.not_mem_nil, or_false] at hS
        rcases hS with rfl | rfl
        · obtain ⟨-, hS, hsame⟩ := takesOver_importUnits hlive.inv hle h0 hi
          exact hsame.symm ▸ hS
        · obtain ⟨-, hS, hsame⟩ := takesOver_importClauses hlive.inv hle h0 hi
          exact hsame.symm ▸ hS
      obtain ⟨hinv', hfull, hk⟩ := (ends_propagate hkept).of_ok hrun
      have hquiet : s'.Quiet (false = false) := ⟨hfull ▸ hinv', hfull, hk.inconsistent.trans hS'⟩
      exact ⟨hquiet.inv.listed, hquiet.watchesHold⟩

/-- A binary clause with one literal twice, a unit, a clause which that unit makes shorter, and an unknown variable. -/
theorem imports_merged_four : ∃ (s s' : Solver (List SharedClause)),
    Reached {} { clauses := some ofList } {} false
      [⟨[-1, 2, 2], 7, 0⟩, ⟨[1], 7, 0⟩, ⟨[4, -1, 3, 2], 7, 0⟩, ⟨[5], 7, 0⟩] (.adding, s) ∧
    s.inconsistent = false ∧ s.trail.level = 0 ∧ importClauses s = .ok () s' ∧
      TakesOver s.hooks.clauses (fun c => (c.literals, c.glue)) s (.ok () s') ∧ s'.Listed ∧
      (∀ s'', propagate s' = .ok () s'' → s''.Listed ∧ s''.WatchesHold) ∧
      s'.trail.literals.toList = [⟨0⟩] ∧ s'.watches.binaries = [⟨⟨1⟩, ⟨2⟩, true, false⟩] ∧
      s'.store.lits 8 = [⟨2⟩, ⟨4⟩, ⟨6⟩] ∧ s'.store.glueAt 8 = 2 ∧ s'.recent.toList = [⟨8, 0⟩] ∧
      s'.counters.importSkipped = 1 ∧ s'.imported = s.imported + 4 := by
  obtain ⟨s, s₁, ⟨⟩, s', h, hsame, hrun, htest⟩ := exists_called
    (fresh {} { clauses := some ofList } {} false
      [⟨[-1, 2, 2], 7, 0⟩, ⟨[1], 7, 0⟩, ⟨[4, -1, 3, 2], 7, 0⟩, ⟨[5], 7, 0⟩]) [.clause [1, 2, 3, 4]] (pure ())
    importClauses
    (fun s _ s' => s.inconsistent = false ∧ s.trail.level = 0 ∧ s'.inconsistent = false ∧
      s'.trail.literals.toList = [⟨0⟩] ∧ s'.watches.binaries = [⟨⟨1⟩, ⟨2⟩, true, false⟩] ∧
      s'.store.lits 8 = [⟨2⟩, ⟨4⟩, ⟨6⟩] ∧ s'.store.glueAt 8 = 2 ∧ s'.recent.toList = [⟨8, 0⟩] ∧
      s'.counters.importSkipped = 1 ∧ s'.imported = s.imported + 4) (by decide +kernel)
  obtain rfl := (EStateM.Result.ok.inj hsame).2
  obtain ⟨hi, h0, hi', hrest⟩ := of_decide_eq_true htest
  obtain ⟨-, -, htakes, hkept⟩ := (imports_merged h hi).2 h0
  rw [hrun] at htakes hkept
  obtain ⟨hlisted, hwatched⟩ := hkept s' (by simp [final])
  exact ⟨s, s', h, hi, h0, hrun, htakes, hlisted, hwatched (by simp) hi', hrest⟩

end Solver

end ClauseLearning

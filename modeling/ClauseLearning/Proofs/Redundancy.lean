import ClauseLearning.Proofs.FirstUip

/-!
# Which literals are redundant

A variable is redundant by definition if its level is among those of the learnt clause and the other literals of its
reason are at the root, in the clause, or redundant themselves.  Minimization looks at the literals of the clause one
after another, and keeps what it finds out as marks.  A literal that it has kept is marked as not redundant, and from
then on this mark hides that the literal is in the clause.  So whatever is removed is redundant, but a literal is only
sure to be removed if it is redundant without the help of those kept before it.

* `Assignment.behind`, `Redundant` — the definition, with the variables that need not be followed as a parameter.
* `Solver.RedundantBut` — the definition for a learnt clause, but for some literals of it.
* `Sifts` — what became of the literals of a clause, one after another.
* `Solver.Excused`, `Solver.Blamed` — what a literal does for those that it is behind.
* `Solver.Cached` — what the marks mean while literals are looked at.
* `Solver.ends_redundant_cached`, `Solver.Isolated.ends_minimize_sifts` — following reasons, and minimization.
* `Solver.minimize_sifts`, `Solver.minimize_keeps_redundant` — conflicts during a search.
-/

namespace ClauseLearning

/-- The other literals of the clause that is the reason of a variable, if one is. -/
def Assignment.behind (a : Assignment) (st : Store) (v : Nat) : Option (List Literal) :=
  match (a.record v).reason with
  | .binary other => some [other]
  | .large r => some ((st.lits r.offset).drop 1)
  | .decision | .unit => none

/-- A variable is on one of some levels, and each of the other literals of its reason is at the root, on a variable of
the `clause`, or redundant itself. -/
inductive Redundant (a : Assignment) (st : Store) (levels : List Nat) (clause : Nat → Prop) : Nat → Prop
  /-- The others are gone through. -/
  | intro {v : Nat} {ms : List Literal} : (a.record v).level ∈ levels → a.behind st v = some ms →
      (∀ m ∈ ms, a.level m ≠ 0 → ¬ clause m.var → Redundant a st levels clause m.var) →
      Redundant a st levels clause v

namespace Redundant

variable {a : Assignment} {st : Store} {levels : List Nat} {clause clause' : Nat → Prop} {v : Nat}

/-- More variables are redundant if there are more in the clause. -/
theorem mono (h : Redundant a st levels clause v) (hc : ∀ x, clause x → clause' x) :
    Redundant a st levels clause' v := by
  induction h with
  | intro hlev hbehind _ ih => exact .intro hlev hbehind fun m hm h0 hn => ih m hm h0 fun hx => hn (hc _ hx)

/-- A variable is not redundant if one of the literals behind it is not at the root, not in the clause, and not
redundant. -/
theorem not_of_behind {ms : List Literal} {m : Literal} (hb : a.behind st v = some ms) (hm : m ∈ ms)
    (h0 : a.level m ≠ 0) (hn : ¬ clause m.var) (hr : ¬ Redundant a st levels clause m.var) :
    ¬ Redundant a st levels clause v := by
  rintro ⟨-, hb', hall⟩
  obtain rfl := Option.some.inj (hb.symm.trans hb')
  exact hr (hall m hm h0 hn)

end Redundant

/-- What is kept of some literals that are looked at one after another.  Those that were kept before are in `kept`.  A
literal goes only if its variable is redundant, and stays only if it is not redundant without those. -/
inductive Sifts (redundantBut : List Nat → Nat → Prop) : List Nat → List Literal → List Literal → Prop
  /-- None is left. -/
  | nil {kept : List Nat} : Sifts redundantBut kept [] []
  /-- A literal stays. -/
  | keep {kept : List Nat} {l : Literal} {ls ls' : List Literal} : ¬ redundantBut kept l.var →
      Sifts redundantBut (l.var :: kept) ls ls' → Sifts redundantBut kept (l :: ls) (l :: ls')
  /-- A literal goes. -/
  | drop {kept : List Nat} {l : Literal} {ls ls' : List Literal} : redundantBut [] l.var →
      Sifts redundantBut kept ls ls' → Sifts redundantBut kept (l :: ls) ls'

namespace Sifts

variable {redundantBut : List Nat → Nat → Prop} {kept : List Nat} {ls ls' : List Literal}

/-- The literals that stay are in the order they were in. -/
theorem sublist (h : Sifts redundantBut kept ls ls') : ls'.Sublist ls := by
  induction h with
  | nil => exact .refl _
  | keep _ _ ih => exact ih.cons_cons _
  | drop _ _ ih => exact ih.cons _

end Sifts

namespace Solver

variable {ε : Type} {lags : Prop} {S t s s' : Solver ε} {p i x top k : Nat} {l : Literal} {rest : List Literal}
  {blocked : List Nat} {levels : Array Bool}

/-- A variable is redundant for the learnt clause without the help of some of its literals. -/
def RedundantBut (t : Solver ε) (blocked : List Nat) (v : Nat) : Prop :=
  Redundant t.assignment t.store ((t.learned.toList.drop 1).map t.assignment.level)
    (fun x => x ∈ t.learned.toList.map Literal.var ∧ x ∉ blocked) v

/-- Fewer variables are redundant without the help of more. -/
theorem RedundantBut.of_cons {y : Nat} (h : t.RedundantBut (y :: blocked) x) : t.RedundantBut blocked x :=
  h.mono fun _ hx => ⟨hx.1, fun hm => hx.2 (List.mem_cons_of_mem _ hm)⟩

/-- Setting entries of a table of levels. -/
theorem getD_foldl_level (a : Assignment) (ls : List Literal) (table : Array Bool) :
    (ls.foldl (fun t l => t.setIfInBounds (a.level l) true) table).getD k false = true ↔
      table.getD k false = true ∨ k < table.size ∧ k ∈ ls.map a.level := by
  induction ls generalizing table with
  | nil => simp
  | cons l ls ih =>
    rw [List.foldl_cons, ih, Array.size_setIfInBounds, List.map_cons, List.mem_cons]
    by_cases hk : k < table.size
    · by_cases he : a.level l = k
      · simp [Array.getD, hk, he]
      · simp [Array.getD, hk, he, Ne.symm he]
    · simp [Array.getD, hk]

/-- The table of the levels of some literals. -/
theorem levelTable_getD {ls : List Literal} (h : ∀ m ∈ ls, t.assignment.level m ≤ top) :
    (t.levelTable top ls).getD k false = true ↔ k ∈ ls.map t.assignment.level := by
  have hnone : (Array.replicate (top + 1) false).getD k false = false := by
    unfold Array.getD
    split <;> simp
  rw [levelTable, getD_foldl_level, hnone, Array.size_replicate]
  refine ⟨fun h => (h.resolve_left (by simp)).2, fun hm => .inr ⟨?_, hm⟩⟩
  obtain ⟨m, hml, rfl⟩ := List.mem_map.1 hm
  exact Nat.lt_succ_of_le (h m hml)

/-- A literal does not keep a literal that it is behind from being redundant: it is at the root, or its variable is in
the learnt clause or redundant. -/
def Excused (t : Solver ε) (m : Literal) : Prop :=
  t.assignment.level m ≠ 0 → m.var ∉ t.learned.toList.map Literal.var → t.RedundantBut [] m.var

/-- A literal keeps every literal that it is behind from being redundant without the help of some of the learnt
clause. -/
def Blamed (t : Solver ε) (blocked : List Nat) (m : Literal) : Prop :=
  t.assignment.level m ≠ 0 ∧ ¬ (m.var ∈ t.learned.toList.map Literal.var ∧ m.var ∉ blocked) ∧
    ¬ t.RedundantBut blocked m.var

@[simp] theorem excused_negate {m : Literal} : t.Excused (-m) ↔ t.Excused m := by
  simp [Excused]

@[simp] theorem blamed_negate {m : Literal} : t.Blamed blocked (-m) ↔ t.Blamed blocked m := by
  simp [Blamed]

/-- While literals of the learnt clause of `t` are looked at, those in `blocked` were found to stay, and the marks
agree with the definition: they are about what is redundant without the help of those. -/
structure Cached (t : Solver ε) (blocked : List Nat) (s : Solver ε) : Prop where
  /-- Nothing else has changed. -/
  eq : ∃ learned assignment minimized, s = { t with learned, assignment, minimized }
  /-- The assignment is the same, but for marks. -/
  marks : t.assignment.Remarked s.assignment
  /-- The marks of the resolvent stay. -/
  analyzed : ∀ x, (s.assignment.record x).analyzed = (t.assignment.record x).analyzed
  /-- What is marked to go is redundant. -/
  sound : ∀ x, (s.assignment.record x).removable = true → t.RedundantBut [] x
  /-- What is marked to stay is not redundant without the help of what stays. -/
  complete : ∀ x, (s.assignment.record x).poisoned = true → ¬ t.RedundantBut blocked x
  /-- Only those literals of the clause have such a mark. -/
  mem_blocked : ∀ x, (s.assignment.record x).poisoned = true → x ∈ t.learned.toList.map Literal.var → x ∈ blocked

namespace Cached

/-- Noting what was found out about a variable.  If it is one of the learnt clause that stays, then it does not help
from now on. -/
theorem noteRedundant (h : Cached t blocked s) {n : Nat} (hs : t.assignment.Sized n) (hx : x < n) {b : Bool}
    {blocked' : List Nat} (hyes : b = true → t.RedundantBut [] x) (hno : b = false → ¬ t.RedundantBut blocked x)
    (hsub : ∀ y, t.RedundantBut blocked' y → t.RedundantBut blocked y) (hmem : ∀ y ∈ blocked, y ∈ blocked')
    (hself : b = false → x ∈ t.learned.toList.map Literal.var → x ∈ blocked') :
    Cached t blocked' (s.noteRedundant x b) := by
  have hsized := h.marks.sized hs
  have hrec := record_noteRedundant hsized hx b
  obtain ⟨learned, a, minimized, rfl⟩ := h.eq
  refine ⟨⟨_, _, _, rfl⟩, h.marks.trans (.modify hsized hx (fun r => ?_) fun r => ?_), fun y => ?_,
    fun y hy => ?_, fun y hy hr => ?_, fun y hy hc => ?_⟩
  · cases b <;> rfl
  · cases b <;> rfl
  · rw [← h.analyzed, hrec]
    split
    · next he =>
      rw [he]
      cases b <;> rfl
    · rfl
  · rcases removable_noteRedundant hsized hx hy with hy | ⟨rfl, hb⟩
    · exact h.sound y hy
    · exact hyes hb
  · rcases poisoned_noteRedundant hsized hx hy with hy | ⟨rfl, hb⟩
    · exact h.complete y hy (hsub y hr)
    · exact hno hb (hsub y hr)
  · rcases poisoned_noteRedundant hsized hx hy with hy | ⟨rfl, hb⟩
    · exact hmem y (h.mem_blocked y hy hc)
    · exact hself hb hc

/-- A literal that was found to stay already may be counted once more. -/
theorem block (h : Cached t blocked s) : Cached t (x :: blocked) s where
  eq := h.eq
  marks := h.marks
  analyzed := h.analyzed
  sound := h.sound
  complete y hy hr := h.complete y hy hr.of_cons
  mem_blocked y hy hm := List.mem_cons_of_mem _ (h.mem_blocked y hy hm)

end Cached

/-- The literals behind a variable on the trail became false before it was assigned. -/
theorem Touched.mem_upTo (h : Touched S t) (hw : S.Wired lags p) (hi : i < S.trail.size) {ms : List Literal}
    {m : Literal} (hb : t.assignment.behind t.store (S.trail.at' i).var = some ms) (hm : m ∈ ms) :
    -m ∈ S.trail.upTo i := by
  have hg := hw.grounded i hi
  unfold Assignment.behind at hb
  rw [h.marks.reason] at hb
  split at hb
  · next o hcase =>
    obtain rfl := Option.some.inj hb
    obtain rfl := List.mem_singleton.1 hm
    exact (hg.binary hcase).2.1
  · next r hcase =>
    obtain ⟨-, hr, rest, hlits, hrest⟩ := hg.large hcase
    obtain rfl := Option.some.inj hb
    rw [h.store.lits _ hr.2, hlits] at hm
    exact hrest m hm
  · cases hb
  · cases hb

/-- What minimization looks behind a variable is what the definition does. -/
theorem Cached.ends_minimizeReason (h : Cached t blocked s) (ht : Touched S t) (hw : S.Wired lags p)
    (hi : i < S.trail.size) :
    Ends (minimizeReason levels (s.assignment.record (S.trail.at' i).var)) s
      (fun found s' => s' = s ∧ found.map Array.toList =
        if levels.getD (t.assignment.record (S.trail.at' i).var).level false = true then
          t.assignment.behind t.store (S.trail.at' i).var
        else none)
      (fun _ _ => False) := by
  have hg := hw.grounded i hi
  have hst : s.store = t.store := by
    obtain ⟨_, _, _, rfl⟩ := h.eq
    rfl
  unfold minimizeReason Assignment.behind
  rw [h.marks.reason, h.marks.level, ends_ite]
  refine ⟨fun hc => ⟨rfl, by rw [if_neg (by simpa using hc)]; rfl⟩, fun hc => ?_⟩
  rw [if_pos (by simpa using hc), ht.marks.reason]
  cases hcase : (S.assignment.record (S.trail.at' i).var).reason with
  | decision => exact ⟨rfl, rfl⟩
  | unit => exact ⟨rfl, rfl⟩
  | binary o => exact ⟨rfl, rfl⟩
  | large r =>
    obtain ⟨-, hr, -⟩ := hg.large hcase
    have hr' := ht.store.current hr
    simp only [ends_bind, ends_get, ends_ofExcept, hst, Store.literals?_of_current ht.store.chain hr']
    refine ⟨fun ls hls => ?_, fun e he => by simp at he⟩
    obtain rfl := Except.ok.inj hls
    exact ⟨rfl, congrArg some (by
      rw [toList_drop, Store.literalsAt_toList (ht.store.chain.mem hr'.2).2.fits])⟩

/-- If an invariant is kept by a test that may say yes or no of each element of a list, then the answer for the whole
list is yes of all or no of one. -/
theorem ends_allM_iff {α σ : Type} {f : α → EStateM Fault σ Bool} {P : σ → Prop} {G H : α → Prop} {s : σ} {ls : List α}
    (h : ∀ a ∈ ls, ∀ s, P s →
      Ends (f a) s (fun b s' => P s' ∧ (b = true → G a) ∧ (b = false → H a)) fun _ _ => False) (hs : P s) :
    Ends (ls.allM f) s (fun b s' => P s' ∧ (b = true → ∀ a ∈ ls, G a) ∧ (b = false → ∃ a ∈ ls, H a))
      fun _ _ => False := by
  induction ls generalizing s with
  | nil => exact ⟨hs, fun _ a ha => by simp at ha, fun hb => by simp at hb⟩
  | cons a ls ih =>
    rw [List.allM, ends_bind]
    refine (h a (List.mem_cons_self ..) s hs).imp (fun b s₁ h₁ => ?_) fun _ _ hf => hf
    obtain ⟨hs₁, hg, hh⟩ := h₁
    cases b with
    | false => exact ⟨hs₁, fun hb => by simp at hb, fun _ => ⟨a, List.mem_cons_self .., hh rfl⟩⟩
    | true =>
      refine (ih (fun a' ha' => h a' (List.mem_cons_of_mem _ ha')) hs₁).imp (fun b s₂ h₂ => ?_) fun _ _ hf => hf
      obtain ⟨hs₂, hg₂, hh₂⟩ := h₂
      refine ⟨hs₂, fun hb => List.forall_mem_cons.2 ⟨hg rfl, hg₂ hb⟩, fun hb => ?_⟩
      obtain ⟨a', ha', hh'⟩ := hh₂ hb
      exact ⟨a', List.mem_cons_of_mem _ ha', hh'⟩

/-- Following the reason of a variable, after what is behind it can be followed. -/
theorem Cached.ends_follow (h : Cached t blocked s) (hiso : Isolated S t l rest) (hw : S.Wired lags p)
    (hi : i < S.trail.size) (hlevels : ∀ k, levels.getD k false = true ↔ k ∈ rest.map t.assignment.level) {depth : Nat}
    (hdeep : ∀ m, -m ∈ S.trail.upTo i → ∀ s, Cached t blocked s → Ends (redundant levels depth false m.var) s
      (fun b s' => Cached t blocked s' ∧ (b = true → t.Excused m) ∧ (b = false → t.Blamed blocked m))
      (fun _ _ => False)) :
    Ends (do
        let b ← match ← minimizeReason levels (s.assignment.record (S.trail.at' i).var) with
          | none => pure false
          | some others => others.toList.allM fun l => redundant levels depth false l.var
        modify fun s => s.noteRedundant (S.trail.at' i).var b
        return b) s
      (fun b s' => ∃ s₁, Cached t blocked s₁ ∧ s' = s₁.noteRedundant (S.trail.at' i).var b ∧
        (b = true → t.RedundantBut [] (S.trail.at' i).var) ∧ (b = false → ¬ t.RedundantBut blocked (S.trail.at' i).var))
      (fun _ _ => False) := by
  have hrest : t.learned.toList.drop 1 = rest := by rw [hiso.clause, List.drop_succ_cons, List.drop_zero]
  simp only [ends_bind]
  refine (h.ends_minimizeReason hiso.toTouched hw hi).imp (fun found s₁ h₁ => ?_) fun _ _ hf => hf
  obtain ⟨rfl, hfound⟩ := h₁
  cases found with
  | none =>
    refine ⟨_, h, rfl, fun hb => by simp at hb, fun _ => ?_⟩
    rintro ⟨hlev, hb, -⟩
    rw [hrest, ← hlevels] at hlev
    rw [if_pos hlev, hb] at hfound
    cases hfound
  | some others =>
    have hlev : levels.getD (t.assignment.record (S.trail.at' i).var).level false = true := by
      by_contra hn
      rw [if_neg hn] at hfound
      cases hfound
    rw [if_pos hlev] at hfound
    have hmem : ∀ m ∈ others.toList, -m ∈ S.trail.upTo i := fun m hm =>
      hiso.toTouched.mem_upTo hw hi hfound.symm hm
    simp only [ends_bind, ends_modify, ends_pure]
    refine (ends_allM_iff (fun m hm s hs => hdeep m (hmem m hm) s hs) h).imp (fun b s₂ hs₂ => ?_) fun _ _ hf => hf
    obtain ⟨h₂, hyes, hno⟩ := hs₂
    refine ⟨s₂, h₂, rfl, fun hb => ?_, fun hb => ?_⟩
    · rw [hlevels, ← hrest] at hlev
      exact .intro hlev hfound.symm fun m hm h0 hn => hyes hb m hm h0 fun hc => hn ⟨hc, List.not_mem_nil⟩
    · obtain ⟨m, hm, h0, hn, hr⟩ := hno hb
      exact Redundant.not_of_behind hfound.symm hm h0 hn hr

/-- A mark that a variable may go, and a variable of the learnt clause. -/
theorem Cached.marked (h : Cached t blocked s) (hiso : Isolated S t l rest) (hi : i < S.trail.size)
    (hlt : S.assignment.level (S.trail.at' i) < S.trail.level) :
    (s.assignment.record (S.trail.at' i).var).analyzed = true ↔
      (S.trail.at' i).var ∈ t.learned.toList.map Literal.var := by
  have hrest := hiso.mem_rest (-S.trail.at' i)
  rw [Literal.var_negate, Literal.negate_negate, Assignment.level_negate] at hrest
  rw [h.analyzed, hiso.marked, hiso.clause, List.map_cons, List.mem_cons, Literal.var_negate]
  refine ⟨fun hm => .inr ?_, fun hm => ?_⟩
  · exact List.mem_map.2 ⟨_, hrest.2 ⟨hm, Trail.at'_mem hi, hlt⟩, Literal.var_negate _⟩
  · rcases hm with he | hm
    · -- the literal of the conflict level is not below it
      have := hiso.level.2
      rw [Assignment.level, ← he, ← Assignment.level] at this
      omega
    · obtain ⟨m, hm, he⟩ := List.mem_map.1 hm
      exact he ▸ ((hiso.mem_rest m).1 hm).1

/-- Following reasons from a variable which was come to from the learnt clause. -/
theorem ends_redundant_cached (hS : S.Frame) (hw : S.Wired lags p) (hiso : Isolated S t l rest)
    (hlevels : ∀ k, levels.getD k false = true ↔ k ∈ rest.map t.assignment.level) (h : Cached t blocked s)
    (hi : i < S.trail.size) (hlt : S.assignment.level (S.trail.at' i) < S.trail.level) {depth : Nat}
    (hdepth : i < depth) :
    Ends (redundant levels depth false (S.trail.at' i).var) s
      (fun b s' => Cached t blocked s' ∧ (b = true → t.Excused (S.trail.at' i)) ∧
        (b = false → t.Blamed blocked (S.trail.at' i)))
      (fun _ _ => False) := by
  induction depth generalizing s i with
  | zero => omega
  | succ depth ih =>
    have hmarked := h.marked hiso hi hlt
    have hlevel : (s.assignment.record (S.trail.at' i).var).level = t.assignment.level (S.trail.at' i) :=
      h.marks.level _
    rw [redundant]
    simp only [ends_bind, ends_get, ends_ite, ends_pure, Bool.or_eq_true, beq_iff_eq, not_or, Bool.not_false,
      Bool.true_and]
    refine ⟨fun hc => ⟨h, fun _ h0 _ => ?_, fun hb => by simp at hb⟩, fun hc => ⟨fun hpo => ?_, fun _ =>
      ⟨fun ha => ?_, fun ha => ?_⟩⟩⟩
    · rcases hc with hc | hc
      · exact absurd (hlevel.symm.trans hc) h0
      · exact h.sound _ hc
    · exact ⟨h, fun hb => by simp at hb, fun _ =>
        ⟨hlevel ▸ hc.1, fun hm => hm.2 (h.mem_blocked _ hpo hm.1), h.complete _ hpo⟩⟩
    · exact ⟨h, fun _ _ hn => absurd (hmarked.1 ha) hn, fun hb => by simp at hb⟩
    · have hn := fun hm => ha (hmarked.2 hm)
      refine (ends_bind _ _).1 ((h.ends_follow hiso hw hi hlevels (fun m hm s₁ h₁ => ?_)).imp (fun b s' hs' => ?_)
        fun _ _ hf => hf)
      · -- what is behind the variable comes earlier on the trail
        obtain ⟨j, hji, hjs, he⟩ := Trail.mem_upTo.1 hm
        have hle := hS.trail.level_mono (Nat.le_of_lt hji) hi
        simpa only [he, Literal.var_negate, excused_negate, blamed_negate] using
          ih h₁ hjs (Nat.lt_of_le_of_lt hle hlt) (by omega)
      · obtain ⟨s₁, h₁, rfl, hyes, hno⟩ := hs'
        have hvar := (hS.usable_of_mem (Trail.at'_mem hi)).1
        exact ⟨h₁.noteRedundant (hiso.marks.sized hS.sized) hvar hyes hno (fun _ hr => hr) (fun _ hy => hy)
          fun _ hm => absurd hm hn, fun hb _ _ => hyes hb, fun hb => ⟨hlevel ▸ hc.1, fun hm => hn hm.1, hno hb⟩⟩

/-- Looking at a literal of the learnt clause.  If it stays, it does not help from now on. -/
theorem ends_redundant_top (hS : S.Frame) (hw : S.Wired lags p) (hiso : Isolated S t l rest)
    (hlevels : ∀ k, levels.getD k false = true ↔ k ∈ rest.map t.assignment.level) (h : Cached t blocked s)
    (hi : i < S.trail.size) (hm : -S.trail.at' i ∈ rest) {depth : Nat} (hdepth : i ≤ depth) :
    Ends (redundant levels (depth + 1) true (S.trail.at' i).var) s
      (fun b s' => (b = true → t.RedundantBut [] (S.trail.at' i).var ∧ Cached t blocked s') ∧
        (b = false → ¬ t.RedundantBut blocked (S.trail.at' i).var ∧ Cached t ((S.trail.at' i).var :: blocked) s'))
      (fun _ _ => False) := by
  obtain ⟨rest', hrest', -, hmem⟩ := hiso.learned
  obtain rfl : rest' = rest := by simpa using hrest'.symm.trans hiso.clause
  obtain ⟨-, hlt, h0⟩ := hmem _ hm
  rw [Assignment.level_negate] at hlt h0
  have hlevel : (s.assignment.record (S.trail.at' i).var).level = S.assignment.level (S.trail.at' i) :=
    (h.marks.level _).trans (hiso.marks.level _)
  have hsized := hiso.marks.sized hS.sized
  have hvar := (hS.usable_of_mem (Trail.at'_mem hi)).1
  rw [redundant]
  simp only [ends_bind, ends_get, ends_ite, ends_pure, Bool.or_eq_true, beq_iff_eq, Bool.not_true, Bool.false_and]
  refine ⟨fun hc => ⟨fun _ => ⟨?_, h⟩, fun hb => by simp at hb⟩, fun _ => ⟨fun hpo =>
    ⟨fun hb => by simp at hb, fun _ => ⟨h.complete _ hpo, h.block⟩⟩, fun _ => ⟨fun hb => by simp at hb, fun _ => ?_⟩⟩⟩
  · exact h.sound _ (hc.resolve_left fun he => h0 (hlevel.symm.trans he))
  · refine (ends_bind _ _).1 ((h.ends_follow hiso hw hi hlevels (fun m hm s₁ h₁ => ?_)).imp (fun b s' hs' => ?_)
      fun _ _ hf => hf)
    · obtain ⟨j, hji, hjs, he⟩ := Trail.mem_upTo.1 hm
      have hle := hS.trail.level_mono (Nat.le_of_lt hji) hi
      simpa only [he, Literal.var_negate, excused_negate, blamed_negate] using
        ends_redundant_cached hS hw hiso hlevels h₁ hjs (Nat.lt_of_le_of_lt hle hlt) (Nat.lt_of_lt_of_le hji hdepth)
    · obtain ⟨s₁, h₁, rfl, hyes, hno⟩ := hs'
      refine ⟨fun hb => ⟨hyes hb, ?_⟩, fun hb => ⟨hno hb, ?_⟩⟩
      · exact h₁.noteRedundant hsized hvar hyes hno (fun _ hr => hr) (fun _ hy => hy) fun hf => by simp [hb] at hf
      · exact h₁.noteRedundant hsized hvar hyes hno (fun _ hr => hr.of_cons) (fun _ hy => List.mem_cons_of_mem _ hy)
          fun _ _ => List.mem_cons_self ..

/-- Looking at some literals one after another sifts them, if looking at one of them tells whether it goes or stays. -/
theorem ends_filterM_sifts {σ : Type} {f : Literal → EStateM Fault σ Bool} {P : List Nat → σ → Prop}
    {R : List Nat → Nat → Prop} {s : σ} {ls : List Literal}
    (h : ∀ a ∈ ls, ∀ kept s, P kept s → Ends (f a) s
      (fun b s' => (b = false → R [] a.var ∧ P kept s') ∧
        (b = true → ¬ R kept a.var ∧ P (a.var :: kept) s')) fun _ _ => False) (hs : P blocked s) :
    Ends (ls.filterM f) s (fun out _ => Sifts R blocked ls out) fun _ _ => False := by
  have haux : ∀ acc, Ends (ls.filterAuxM f acc) s
      (fun out _ => ∃ kept, out = kept.reverse ++ acc ∧ Sifts R blocked ls kept) fun _ _ => False := by
    induction ls generalizing blocked s with
    | nil => exact fun acc => ⟨[], rfl, .nil⟩
    | cons a ls ih =>
      intro acc
      rw [List.filterAuxM, ends_bind]
      refine (h a (List.mem_cons_self ..) _ s hs).imp (fun b s₁ h₁ => ?_) fun _ _ hf => hf
      have ih := fun {B s₁} (h₁ : P B s₁) => ih (fun a' ha' => h a' (List.mem_cons_of_mem _ ha')) h₁
      cases b with
      | false =>
        obtain ⟨hr, hp⟩ := h₁.1 rfl
        refine (ih hp acc).imp (fun out _ hout => ?_) fun _ _ hf => hf
        obtain ⟨kept, rfl, hsift⟩ := hout
        exact ⟨kept, rfl, .drop hr hsift⟩
      | true =>
        obtain ⟨hr, hp⟩ := h₁.2 rfl
        refine (ih hp (a :: acc)).imp (fun out _ hout => ?_) fun _ _ hf => hf
        obtain ⟨kept, rfl, hsift⟩ := hout
        exact ⟨a :: kept, by simp, .keep hr hsift⟩
  rw [List.filterM, ends_bind]
  refine (haux []).imp (fun out _ hout => ?_) fun _ _ hf => hf
  obtain ⟨kept, rfl, hsift⟩ := hout
  simpa using hsift

/-- Minimization sifts the literals of the learnt clause but the first, where the trail is not longer than reasons are
followed. -/
theorem Isolated.ends_minimize_sifts (hiso : Isolated S t l rest) (hS : S.Frame) (hw : S.Wired lags p)
    (hsize : S.trail.size ≤ minimizeDepth) :
    Ends (minimize S.trail.level) t
      (fun _ s' => ∃ kept, s'.learned.toList = -l :: kept ∧ Sifts t.RedundantBut [] rest kept) (fun _ _ => False) := by
  have hcached : Cached t [] { t with learned := #[] } := by
    refine ⟨⟨_, _, _, rfl⟩, .refl _, fun _ => rfl, fun x hx => ?_, fun x hx => ?_, fun x hx => ?_⟩
    · exact absurd ((hiso.plain x).1.symm.trans hx) (by simp)
    · exact absurd ((hiso.plain x).2.symm.trans hx) (by simp)
    · exact absurd ((hiso.plain x).2.symm.trans hx) (by simp)
  have hlevels : ∀ k, (levelTable { t with learned := #[] } S.trail.level rest).getD k false = true ↔
      k ∈ rest.map t.assignment.level := fun k => levelTable_getD fun m hm => by
    have := ((hiso.mem_rest m).1 hm).2.2
    rw [← hiso.marks.level_eq] at this
    exact Nat.le_of_lt this
  have hdrop : t.learned.toList.drop 1 = rest := by rw [hiso.clause, List.drop_succ_cons, List.drop_zero]
  unfold minimize
  simp only [ends_bind, ends_get, ends_modify, hdrop]
  refine (ends_filterM_sifts (P := Cached t) (R := t.RedundantBut) (fun m hm blocked s hs => ?_) hcached).imp
    (fun kept s₂ hs₂ => ⟨kept, ?_, hs₂⟩) fun _ _ hf => hf
  · obtain ⟨j, hj, he⟩ := Trail.exists_at' ((hiso.mem_rest m).1 hm).2.1
    have hvar : m.var = (S.trail.at' j).var := by rw [he, Literal.var_negate]
    have hjm : -S.trail.at' j ∈ rest := by rwa [he, Literal.negate_negate]
    have := ends_redundant_top hS hw hiso hlevels hs hj hjm (Nat.le_of_lt (Nat.lt_of_lt_of_le hj hsize))
    rw [hvar]
    simp only [ends_bind, ends_pure]
    exact this.imp (fun b s' h => ⟨fun hb => h.1 (by simpa using hb), fun hb => h.2 (by simpa using hb)⟩)
      fun _ _ hf => hf
  · simp [hiso.clause]

variable {C : Settings} {hooks : Hooks ε} {limits : Limits} {stopped : Bool} {outside : ε} {calls : List Call}
  {s₀ : Solver ε} {key : Key}

/-- Where propagation ended in a conflict above the root during a search, and the trail is not longer than reasons are
followed, minimization removes only redundant literals, and keeps only literals that are not redundant without the
help of those kept before.  No mark is left, and what is left of the clause follows from the stored clauses and the
literals at the root. -/
theorem minimize_sifts (hload : calls.forM Call.run (fresh C hooks limits stopped outside) = .ok () s₀)
    (hrun : Run false (.loaded, s₀) (.conflicted key, s)) (hlev : 1 ≤ s.trail.level)
    (hsize : s.trail.size ≤ minimizeDepth) (haside : Aside s t) :
    ∃ t₁ a rest t₂ kept, firstUip key t = .ok t.trail.level t₁ ∧ t₁.learned.toList = a :: rest ∧
      minimize t.trail.level t₁ = .ok () t₂ ∧ t₂.learned.toList = a :: kept ∧ Sifts t₁.RedundantBut [] rest kept ∧
      (∀ x, (t₂.assignment.record x).removable = false ∧ (t₂.assignment.record x).poisoned = false) ∧
      ∀ v : Valuation, (∀ c redundant, t.Stored c redundant → v.Satisfies c) →
        (∀ l ∈ t.trail.literals, t.assignment.level l = 0 → v.makesTrue l = true) → v.Satisfies (a :: kept) := by
  obtain ⟨hc, hi⟩ := (hrun.at (loaded_run hload)).1
  have hct := hc.aside haside
  have h0 : t.trail.level ≠ 0 := by
    rw [haside.trail]
    exact Nat.one_le_iff_ne_zero.1 hlev
  obtain ⟨p, hinv, -, -⟩ := hct.inv
  obtain ⟨t₁, l, rest, -, -, -, hfirst, hiso, -⟩ := exists_firstUip hct h0
  have hall : ∀ rest', t₁.learned.toList = -l :: rest' → ∀ i < t.trail.size, (t.trail.at' i).var ∈ t₁.analyzed →
      t.assignment.level (t.trail.at' i) < t.trail.level → -t.trail.at' i ∈ rest' := by
    intro rest' hrest' i hi ha hlt
    obtain rfl : rest = rest' := by simpa using hiso.clause.symm.trans hrest'
    refine (hiso.mem_rest _).2 ⟨by rwa [Literal.var_negate], ?_, by rwa [Assignment.level_negate]⟩
    rw [Literal.negate_negate]
    exact Trail.at'_mem hi
  have hsize' : t.trail.size ≤ minimizeDepth := by rwa [haside.trail]
  have hends := ((ends_minimize hinv.toFrame hinv.toWired hiso.toMinimized hall).and
    (hiso.ends_minimize_sifts hinv.toFrame hinv.toWired hsize')).imp (fun _ _ h => h) fun _ _ hf => hf.1
  obtain ⟨_, t₂, hmin, ⟨hm, -⟩, kept, hkept, hsift⟩ := hends.exists_ok
  refine ⟨t₁, -l, rest, t₂, kept, hfirst, hiso.clause, hmin, hkept, hsift, hm.plain, fun v hstored hroot => ?_⟩
  rw [← hkept]
  exact hm.implied v (hinv.holds_of_stored (haside.inconsistent.trans hi) hstored hroot)

/-- Three clauses with a conflict on the second level.  The literal `3` follows from the literal `4`. -/
def keptCalls : List Call :=
  [.clause [-4, 3], .clause [-2, -3, 1], .clause [-2, -4, -1]]

/-- The conflict among these clauses. -/
theorem minimize_sifts_kept : ∃ (s₀ s : Solver Unit) (key : Key),
    keptCalls.forM Call.run (fresh {} {} {} false ()) = .ok () s₀ ∧ Run false (.loaded, s₀) (.conflicted key, s) ∧
      1 ≤ s.trail.level ∧ s.trail.size ≤ minimizeDepth ∧ Aside s s.noteConflict ∧
      ∃ t₁ a rest t₂ kept, firstUip key s.noteConflict = .ok s.noteConflict.trail.level t₁ ∧
        t₁.learned.toList = a :: rest ∧ minimize s.noteConflict.trail.level t₁ = .ok () t₂ ∧
        t₂.learned.toList = a :: kept ∧ Sifts t₁.RedundantBut [] rest kept ∧
        (∀ x, (t₂.assignment.record x).removable = false ∧ (t₂.assignment.record x).poisoned = false) ∧
        ∀ v : Valuation, (∀ c redundant, s.noteConflict.Stored c redundant → v.Satisfies c) →
          (∀ l ∈ s.noteConflict.trail.literals, s.noteConflict.assignment.level l = 0 → v.makesTrue l = true) →
          v.Satisfies (a :: kept) := by
  obtain ⟨s₀, place, s, hload, hrun, htest⟩ := exists_trial (fresh {} {} {} false ()) keptCalls 2
    (fun place s => match place with
      | .conflicted _ => Nat.ble 1 s.trail.level && Nat.ble s.trail.size minimizeDepth
      | _ => false) (by decide +kernel)
  cases place with
  | conflicted key =>
    obtain ⟨hlev, hsize⟩ := Bool.and_eq_true_iff.1 htest
    have hlev := Nat.le_of_ble_eq_true hlev
    have hsize := Nat.le_of_ble_eq_true hsize
    have haside := aside_count s fun c => { c with conflicts := c.conflicts + 1 }
    exact ⟨s₀, s, key, hload, hrun, hlev, hsize, haside, minimize_sifts hload hrun hlev hsize haside⟩
  | _ => simp at htest

/-- What the removal of redundant literals from the learnt clause of a conflict starts from and ends with. -/
def minimized? (s : Solver ε) (key : Key) : Option (Nat × Solver ε × Solver ε) := do
  let (level, t₁) ← result? (firstUip key) s
  let (_, t₂) ← result? (minimize level) t₁
  return (level, t₁, t₂)

/-- Minimization may keep a literal that is redundant by definition: here it is looked at after the literal behind it,
which was kept. -/
theorem minimize_keeps_redundant : ∃ (s₀ s t₁ t₂ : Solver Unit) (key : Key) (l : Literal),
    keptCalls.forM Call.run (fresh {} {} {} false ()) = .ok () s₀ ∧ Run false (.loaded, s₀) (.conflicted key, s) ∧
      s.trail.size ≤ minimizeDepth ∧ firstUip key s.noteConflict = .ok s.noteConflict.trail.level t₁ ∧
      minimize s.noteConflict.trail.level t₁ = .ok () t₂ ∧ l ∈ t₁.learned.toList.drop 1 ∧ t₁.RedundantBut [] l.var ∧
      l ∈ t₂.learned.toList := by
  obtain ⟨s₀, place, s, hload, hrun, htest⟩ := exists_trial (fresh {} {} {} false ()) keptCalls 2
    (fun place s => match place with
      | .conflicted key => Nat.ble s.trail.size minimizeDepth &&
        (s.noteConflict.minimized? key).any fun (level, t₁, t₂) => Decidable.decide
          (level = s.noteConflict.trail.level ∧ t₁.learned.toList = [⟨3⟩, ⟨7⟩, ⟨5⟩] ∧
            (t₁.assignment.record 2).level = t₁.assignment.level ⟨7⟩ ∧
            t₁.assignment.behind t₁.store 2 = some [⟨7⟩] ∧ ⟨5⟩ ∈ t₂.learned.toList)
      | _ => false) (by decide +kernel)
  cases place with
  | conflicted key =>
    obtain ⟨hsize, htest⟩ := Bool.and_eq_true_iff.1 htest
    obtain ⟨⟨level, t₁, t₂⟩, hmin, htest⟩ := (Option.any_eq_true ..).1 htest
    obtain ⟨rfl, hlearned, hlevel, hbehind, hkept⟩ := of_decide_eq_true htest
    simp only [minimized?, Option.bind_eq_bind, Option.bind_eq_some_iff, Option.pure_def] at hmin
    obtain ⟨⟨level, t₁'⟩, hfirst, ⟨⟨⟩, t₂'⟩, hmin, he⟩ := hmin
    obtain ⟨rfl, rfl, rfl⟩ := (by simpa using he : level = _ ∧ t₁' = t₁ ∧ t₂' = t₂)
    refine ⟨s₀, s, _, _, key, ⟨5⟩, hload, hrun, Nat.le_of_ble_eq_true hsize, result?_eq_some.1 hfirst,
      result?_eq_some.1 hmin, by simp [hlearned],
      .intro ?_ hbehind fun m hm _ hn => absurd ⟨?_, List.not_mem_nil⟩ hn, hkept⟩
    · rw [hlearned]
      exact hlevel ▸ List.mem_cons_self ..
    · obtain rfl := List.mem_singleton.1 hm
      rw [hlearned]
      exact List.mem_cons_of_mem _ (List.mem_cons_self ..)
  | _ => simp at htest

end Solver

end ClauseLearning

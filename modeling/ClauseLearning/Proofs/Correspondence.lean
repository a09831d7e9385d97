import ClauseLearning.Proofs.Addition
import ClauseLearning.Register

/-!
# External and internal variables correspond

The two tables of a register have no room for anything but a numbering: the entry of an external variable is the
variable before it, and that one's external variable is the next.  So a register is what a numbering looks like when
it is written out, and every operation on it is one on the numbering.  In the middle of an operation this is not so,
since the first table has grown already and the second has not.

* `Numbering.register` — a numbering, written out.
* `Register.foldl_enter`, `Register.extend_register` — the loop that gives numbers to new variables.
* `Register.mention_register`, `Register.lookup?_register`, `Register.eliminate?_register` — the operations.
* `Register.Request`, `Register.after`, `Register.granted` — requests, and those of them that succeed.
* `Register.Corresponds`, `Register.after_corresponds` — what holds after any requests.
-/

namespace ClauseLearning

/-! ## A numbering, written out -/

namespace Numbering

variable {m : Numbering} {v n : Nat} {e : Int} {l : Literal}

/-- The entry of a variable. -/
def entry (v : Nat) (eliminated : Bool) : Entry := { literal := .make v true, known := true, eliminated }

/-- The tables of a numbering. -/
def register (m : Numbering) : Register where
  entries := if m.size = 0 then #[] else #[{}] ++ m.eliminated.mapIdx entry
  externals := (Array.range m.size).map fun v : Nat => (v : Int) + 1

@[simp] theorem register_empty : register {} = {} := by simp [register, size]

@[simp] theorem size_register (m : Numbering) : m.register.size = m.size := by
  simp [Register.size, register]

/-- There is one more entry than variables, unless there are none at all. -/
theorem size_entries_register (m : Numbering) :
    0 < m.size ∧ m.register.entries.size = m.size + 1 ∨ m.size = 0 ∧ m.register.entries.size = 0 := by
  rw [register]
  by_cases hm : m.size = 0
  · rw [if_pos hm]
    exact .inr ⟨hm, rfl⟩
  · rw [if_neg hm, Array.size_append, Array.size_mapIdx]
    exact .inl ⟨Nat.pos_of_ne_zero hm, Nat.add_comm ..⟩

theorem externals_register (m : Numbering) (v : Nat) :
    m.register.externals[v]? = if v < m.size then some ((v : Int) + 1) else none := by
  simp only [register, Array.getElem?_map, Array.getElem?_range]
  split <;> rfl

theorem entries_register_zero (m : Numbering) :
    m.register.entries[0]? = if 0 < m.size then some ({} : Entry) else none := by
  rw [register]
  by_cases hm : m.size = 0
  · rw [if_pos hm, if_neg (by omega)]
    rfl
  · rw [if_neg hm, if_pos (by omega), Array.getElem?_append_left (by simp)]
    rfl

theorem entries_register_succ (m : Numbering) (v : Nat) :
    m.register.entries[v + 1]? = if v < m.size then some (entry v (m.isEliminated v)) else none := by
  rw [register]
  by_cases hm : m.size = 0
  · rw [if_pos hm, if_neg (by omega)]
    rfl
  · rw [if_neg hm, Array.getElem?_append_right (by simp), Array.getElem?_mapIdx, isEliminated,
      Array.getD_eq_getD_getElem?]
    simp only [List.size_toArray, List.length_singleton, Nat.add_sub_cancel]
    split
    next hv => rw [Array.getElem?_eq_getElem hv]; rfl
    next hv => rw [Array.getElem?_eq_none (Nat.not_lt.1 hv)]; rfl

theorem size_eliminate (m : Numbering) (v : Nat) : (m.eliminate v).size = m.size := by simp [eliminate, size]

theorem eliminate_of_le (h : m.size ≤ v) : m.eliminate v = m := by
  rw [eliminate, Array.setIfInBounds, dif_neg (show ¬ v < m.eliminated.size from Nat.not_lt.2 h)]

end Numbering

namespace Register

open ClauseLearning.Numbering

variable {r : Register} {m : Numbering} {v x n : Nat} {e : Int} {l : Literal}

/-- A register is determined by what is found in it. -/
theorem eq_of_getElem? {r r' : Register} (hent : ∀ x : Nat, r.entries[x]? = r'.entries[x]?)
    (hext : ∀ v : Nat, r.externals[v]? = r'.externals[v]?) : r = r' := by
  obtain ⟨entries, externals⟩ := r
  obtain ⟨entries', externals'⟩ := r'
  exact congrArg₂ mk (Array.ext_getElem? hent) (Array.ext_getElem? hext)

/-! ## New variables -/

/-- Where there is room, variables get their numbers one after another. -/
theorem foldl_enter (n : Nat) (r : Register) (hroom : r.size + n < r.entries.size) :
    let r' := (List.range' (r.size + 1) n).foldl enter r
    (∀ x : Nat, r'.entries[x]? =
        if r.size < x ∧ x ≤ r.size + n then some (entry (x - 1) false) else r.entries[x]?) ∧
      ∀ v : Nat, r'.externals[v]? =
        if r.size ≤ v ∧ v < r.size + n then some ((v : Int) + 1) else r.externals[v]? := by
  induction n generalizing r with
  | zero => exact ⟨fun x => by rw [if_neg (by omega)]; rfl, fun v => by rw [if_neg (by omega)]; rfl⟩
  | succ n ih =>
    have hvars : (r.enter (r.size + 1)).size = r.size + 1 := Array.size_push _
    have hsize : (r.enter (r.size + 1)).entries.size = r.entries.size := Array.size_setIfInBounds
    have hrest := ih (r.enter (r.size + 1)) (by rw [hvars, hsize]; omega)
    rw [hvars] at hrest
    obtain ⟨hentries, hexternals⟩ := hrest
    refine ⟨fun x => (hentries x).trans ?_, fun v => (hexternals v).trans ?_⟩
    · rw [enter, Array.getElem?_setIfInBounds]
      by_cases hx : r.size + 1 = x
      · rw [if_neg (by omega), if_pos hx, if_pos (by omega), if_pos (by omega), ← hx]
        rfl
      · rw [if_neg hx]
        split <;> split <;> first | rfl | omega
    · rw [enter, Array.getElem?_push, ← size]
      by_cases hv : v = r.size
      · rw [if_neg (by omega), if_pos hv, if_pos (by omega), hv]
        simp
      · rw [if_neg hv]
        split <;> split <;> first | rfl | omega

/-- A register that grows is a numbering that grows. -/
theorem extend_register (m : Numbering) (hn : 0 < n) : m.register.extend n = (m.growTo n).register := by
  have hsize := size_entries_register m
  have hgrow := size_growTo m n
  have hroom : (m.register.reach n).entries.size = max m.register.entries.size (n + 1) := by
    simp only [reach, Array.size_append, Array.size_replicate]
    omega
  have hvars : (m.register.reach n).size = m.size := size_register m
  have hloop := foldl_enter (n - m.size) (m.register.reach n) (by rw [hvars, hroom]; omega)
  rw [hvars] at hloop
  obtain ⟨hentries, hexternals⟩ := hloop
  rw [extend, size_register]
  refine eq_of_getElem? (fun x => (hentries x).trans ?_) fun v => (hexternals v).trans ?_
  · rw [reach, Array.getElem?_append, Array.getElem?_replicate]
    cases x with
    | zero =>
      rw [if_neg (by omega), entries_register_zero, entries_register_zero, hgrow]
      by_cases hm : 0 < m.size
      · rw [if_pos (by omega), if_pos hm, if_pos (by omega)]
      · rw [if_neg (by omega), if_pos (by omega), if_pos (by omega)]
    | succ v =>
      rw [entries_register_succ, entries_register_succ, isEliminated_growTo, hgrow]
      by_cases hv : v < m.size
      · rw [if_neg (by omega), if_pos (by omega), if_pos hv, if_pos (by omega)]
      · by_cases hvn : v < n
        · rw [if_pos (by omega), if_pos (by omega), not_isEliminated_of_le (by omega)]
          rfl
        · rw [if_neg (by omega), if_neg hv, if_neg (c := v < _) (by omega), if_neg (c := v + 1 - _ < _) (by omega),
            ite_self]
  · rw [externals_register, hgrow]
    change (if _ then _ else m.register.externals[v]?) = _
    rw [externals_register]
    by_cases hv : v < m.size
    · rw [if_neg (by omega), if_pos hv, if_pos (by omega)]
    · rw [if_neg hv]
      by_cases hvn : v < n
      · rw [if_pos (by omega), if_pos (by omega)]
      · rw [if_neg (by omega), if_neg (by omega)]

/-! ## The operations -/

theorem on_entry (e : Int) (b : Bool) : (entry (e.natAbs - 1) b).on (0 < e) = toLiteral e := by
  rw [Entry.on, toLiteral, entry]
  by_cases he : 0 < e
  · simp [he]
  · simp only [he, decide_false, Bool.false_eq_true, if_false]
    rw [← Literal.make_var_positive (-Literal.make _ _)]
    simp

theorem entry_register (he : e ≠ 0) (hle : e.natAbs ≤ m.size) :
    m.register.entries[e.natAbs]? = some (entry (e.natAbs - 1) (m.isEliminated (e.natAbs - 1))) := by
  have h := entries_register_succ m (e.natAbs - 1)
  rwa [Nat.sub_add_cancel (by omega), if_pos (by omega)] at h

/-- An external literal that passes the check gets its literal. -/
theorem mention_of_check (h : check e = .ok ()) (m : Numbering) :
    m.register.mention e = (.ok (toLiteral e), (m.growTo e.natAbs).register) := by
  obtain ⟨he, -⟩ := check_eq_ok.1 h
  have hentry := entry_register (m := m.growTo e.natAbs) he (by rw [size_growTo]; omega)
  rw [mention, h]
  dsimp only
  rw [extend_register m (by omega), Array.getD_eq_getD_getElem?, hentry, Option.getD_some, on_entry]

/-- To mention an external literal is to import it. -/
theorem mention_register (m : Numbering) (e : Int) :
    m.register.mention e =
      ((m.import? e).map Prod.fst, match m.import? e with
        | .ok (_, m') => m'.register
        | .error _ => m.register) := by
  rw [import?]
  cases h : check e with
  | error fault => rw [mention, h]; rfl
  | ok _ => rw [mention_of_check h]; rfl

theorem get?_register (m : Numbering) (e : Int) :
    m.register.get? e =
      if m.knows e then some (entry (e.natAbs - 1) (m.isEliminated (e.natAbs - 1))) else none := by
  rw [get?]
  cases hx : e.natAbs with
  | zero =>
    rw [entries_register_zero, knows, hx]
    split <;> rfl
  | succ v =>
    rw [entries_register_succ, knows, hx]
    by_cases hv : v < m.size
    · simp [hv, Nat.succ_le_of_lt hv, entry]
    · simp [hv, Nat.lt_succ_of_le (Nat.not_lt.1 hv)]

theorem lookup?_register (m : Numbering) (e : Int) : m.register.lookup? e = m.lookup? e := by
  rw [Register.lookup?, Numbering.lookup?, get?_register]
  by_cases hk : m.knows e
  · simp only [hk, if_true, Option.bind_some, Bool.true_and]
    rw [on_entry]
    cases m.isEliminated (e.natAbs - 1) <;> simp [entry]
  · simp [hk]

theorem export?_register (m : Numbering) (l : Literal) :
    m.register.export? l = if l.var < m.size then some (toExternal l) else none := by
  rw [export?, externals_register, toExternal]
  by_cases h : l.var < m.size
  · rw [if_pos h, if_pos h]
    rfl
  · rw [if_neg h, if_neg h]
    rfl

theorem isEliminated?_register (m : Numbering) (v : Nat) :
    m.register.isEliminated? v = if v < m.size then some (m.isEliminated v) else none := by
  rw [isEliminated?, externals_register]
  split
  next hv =>
    rw [Option.bind_some, show ((v : Int) + 1).toNat = v + 1 by omega, entries_register_succ, if_pos hv]
    rfl
  next => rfl

theorem eliminate?_register (m : Numbering) (v : Nat) :
    m.register.eliminate? v = if v < m.size then some (m.eliminate v).register else none := by
  rw [eliminate?, externals_register]
  split
  next hv =>
    rw [Option.map_some, show ((v : Int) + 1).toNat = v + 1 by omega]
    refine congrArg some (eq_of_getElem? (fun x => ?_) fun w => ?_)
    · rw [Array.getElem?_modify]
      cases x with
      | zero =>
        rw [if_neg (by omega), entries_register_zero, entries_register_zero, size_eliminate]
      | succ w =>
        rw [entries_register_succ, entries_register_succ, size_eliminate, Solver.Numbering.isEliminated_eliminate hv]
        by_cases hw : w < m.size
        · rw [if_pos hw, if_pos hw]
          by_cases hvw : v = w
          · rw [if_pos (by omega), hvw, beq_self_eq_true]
            rfl
          · rw [if_neg (by omega), beq_false_of_ne (Ne.symm hvw)]
            rfl
        · rw [if_neg hw, if_neg hw]
          exact ite_self _
    · rw [externals_register (m.eliminate v), size_eliminate]
      exact externals_register m w
  next => rfl

/-! ## Requests -/

/-- What a register is asked for. -/
inductive Request where
  /-- The literal of an external literal. -/
  | mention (e : Int)
  /-- The elimination of a variable. -/
  | eliminate (v : Nat)
deriving DecidableEq, Repr

/-- The register after a request.  A variable that is not known is not eliminated. -/
def Request.act (r : Register) : Request → Register
  | mention e => (r.mention e).2
  | eliminate v => (r.eliminate? v).getD r

/-- Whether a request succeeds. -/
def Request.succeeds (r : Register) : Request → Bool
  | mention e => (r.mention e).1.isOk
  | eliminate v => (r.eliminate? v).isSome

/-- The external literal of a request. -/
def Request.external? : Request → Option Int
  | mention e => some e
  | eliminate _ => none

/-- The register after some requests. -/
def after (r : Register) (qs : List Request) : Register := qs.foldl Request.act r

/-- Those of some requests that succeed. -/
def granted (r : Register) : List Request → List Request
  | [] => []
  | q :: qs => if q.succeeds r then q :: (q.act r).granted qs else (q.act r).granted qs

/-- What a request does to a numbering. -/
def Request.note (m : Numbering) : Request → Numbering
  | mention e => if check e = .ok () then m.growTo e.natAbs else m
  | eliminate v => m.eliminate v

/-- Whether a request to a numbering succeeds. -/
def Request.valid (m : Numbering) : Request → Bool
  | mention e => check e = .ok ()
  | eliminate v => v < m.size

variable {q : Request} {qs gs : List Request}

theorem mention_of_not_check (h : check e ≠ .ok ()) (m : Numbering) :
    ∃ fault, m.register.mention e = (.error fault, m.register) := by
  rw [mention]
  cases hc : check e with
  | error fault => exact ⟨fault, rfl⟩
  | ok _ => exact absurd hc h

theorem act_register (m : Numbering) (q : Request) : q.act m.register = (q.note m).register := by
  cases q with
  | mention e =>
    rw [Request.act, Request.note]
    by_cases h : check e = .ok ()
    · rw [mention_of_check h, if_pos h]
    · obtain ⟨fault, he⟩ := mention_of_not_check h m
      rw [he, if_neg h]
  | eliminate v =>
    rw [Request.act, Request.note, eliminate?_register]
    by_cases hv : v < m.size
    · rw [if_pos hv, Option.getD_some]
    · rw [if_neg hv, Option.getD_none, eliminate_of_le (Nat.not_lt.1 hv)]

theorem succeeds_register (m : Numbering) (q : Request) : q.succeeds m.register = q.valid m := by
  cases q with
  | mention e =>
    rw [Request.succeeds, Request.valid]
    by_cases h : check e = .ok ()
    · rw [mention_of_check h, h]
      rfl
    · obtain ⟨fault, he⟩ := mention_of_not_check h m
      rw [he, decide_eq_false h]
      rfl
  | eliminate v =>
    rw [Request.succeeds, Request.valid, eliminate?_register]
    by_cases hv : v < m.size <;> simp [hv]

/-- One request: what is known afterwards, if it succeeds and if it does not. -/
theorem note_spec (m : Numbering) (q : Request) :
    (q.note m).size = max m.size (if q.valid m then greatest q.external?.toList else 0) ∧
      ∀ v, (q.note m).isEliminated v = (m.isEliminated v || (q.valid m && decide (q = .eliminate v))) := by
  cases q with
  | mention e =>
    rw [Request.note, Request.valid]
    by_cases h : check e = .ok ()
    · rw [if_pos h, size_growTo]
      exact ⟨by simp [h, greatest, Request.external?], fun v => by simp [isEliminated_growTo]⟩
    · rw [if_neg h]
      exact ⟨by simp [h], fun v => by simp [h]⟩
  | eliminate v =>
    rw [Request.note, Request.valid]
    refine ⟨by simp [size_eliminate, greatest, Request.external?], fun w => ?_⟩
    by_cases hv : v < m.size
    · rw [Solver.Numbering.isEliminated_eliminate hv, Bool.or_comm]
      by_cases hvw : v = w
      · simp [← hvw, hv]
      · simp [hvw, Ne.symm hvw]
    · simp [eliminate_of_le (Nat.not_lt.1 hv), hv]

theorem after_register (m : Numbering) (qs : List Request) :
    m.register.after qs = (qs.foldl Request.note m).register := by
  induction qs generalizing m with
  | nil => rfl
  | cons q qs ih => exact (congrArg (fun r => r.after qs) (act_register m q)).trans (ih (q.note m))

theorem granted_register (m : Numbering) (q : Request) (qs : List Request) :
    m.register.granted (q :: qs) =
      if q.valid m then q :: (q.note m).register.granted qs else (q.note m).register.granted qs := by
  rw [granted, succeeds_register, act_register]

/-- Any requests: what is known afterwards is what was asked for and granted. -/
theorem foldl_note_spec (m : Numbering) (qs : List Request) :
    (qs.foldl Request.note m).size =
        max m.size (greatest ((m.register.granted qs).filterMap Request.external?)) ∧
      ∀ v, (qs.foldl Request.note m).isEliminated v =
        (m.isEliminated v || decide (.eliminate v ∈ m.register.granted qs)) := by
  induction qs generalizing m with
  | nil => exact ⟨by simp [granted, greatest], fun v => by simp [granted]⟩
  | cons q qs ih =>
    obtain ⟨hsize, hgone⟩ := ih (q.note m)
    obtain ⟨hsize', hgone'⟩ := note_spec m q
    rw [List.foldl_cons, hsize, hsize', granted_register]
    refine ⟨?_, fun v => ?_⟩
    · cases q.valid m with
      | false => simp
      | true =>
        cases hx : q.external? with
        | none => simp [hx, greatest]
        | some e => simp [hx, greatest, Nat.max_assoc]
    · rw [hgone, hgone']
      cases q.valid m with
      | false => simp
      | true => simp [Bool.or_assoc, eq_comm]

theorem maxExternal_register (m : Numbering) : m.register.maxExternal = m.size := by
  have := size_entries_register m
  rw [maxExternal]
  omega

theorem check_of_mention (h : (m.register.mention e).1 = .ok l) : check e = .ok () ∧ l = toLiteral e := by
  by_cases hc : check e = .ok ()
  · rw [mention_of_check hc] at h
    exact ⟨hc, (Except.ok.inj h).symm⟩
  · obtain ⟨fault, he⟩ := mention_of_not_check hc m
    rw [he] at h
    cases h

theorem size_le_foldl_note (m : Numbering) (qs : List Request) : m.size ≤ (qs.foldl Request.note m).size :=
  (foldl_note_spec m qs).1 ▸ Nat.le_max_left ..

theorem lookup?_eq (m : Numbering) (e : Int) : m.register.lookup? e =
    if (1 ≤ e.natAbs ∧ e.natAbs ≤ m.size) ∧ m.register.isEliminated? (e.natAbs - 1) = some false then
      some (toLiteral e)
    else none := by
  rw [lookup?_register, Numbering.lookup?, isEliminated?_register, knows]
  by_cases hk : 1 ≤ e.natAbs ∧ e.natAbs ≤ m.size
  · have hlt : e.natAbs - 1 < m.size := by omega
    simp [hk, Nat.lt_of_succ_le hk.1, hlt]
  · rw [if_neg, if_neg fun h => hk h.1]
    simp only [Bool.and_eq_true, decide_eq_true_eq]
    exact fun h => hk h.1

theorem size_note_le (h : m.size ≤ greatestExternal) (q : Request) : (q.note m).size ≤ greatestExternal := by
  cases q with
  | mention e =>
    rw [Request.note]
    split
    next hc => exact size_growTo .. ▸ Nat.max_le.2 ⟨h, (check_eq_ok.1 hc).2⟩
    next => exact h
  | eliminate v => rwa [Request.note, size_eliminate]

theorem size_foldl_note_le (h : m.size ≤ greatestExternal) (qs : List Request) :
    (qs.foldl Request.note m).size ≤ greatestExternal := by
  induction qs generalizing m with
  | nil => exact h
  | cons q qs ih => exact ih (size_note_le h q)

theorem natAbs_toExternal (l : Literal) : (toExternal l).natAbs = l.var + 1 := by
  rw [toExternal]
  split <;> omega

/-! ## Eliminated variables -/

theorem isEliminated?_eliminate (hv : v < m.size) (w : Nat) :
    (m.eliminate v).register.isEliminated? w = if w = v then some true else m.register.isEliminated? w := by
  rw [isEliminated?_register, isEliminated?_register, size_eliminate, Solver.Numbering.isEliminated_eliminate hv]
  by_cases hw : w = v
  · rw [if_pos hw, if_pos (hw ▸ hv), hw, beq_self_eq_true, Bool.true_or]
  · rw [if_neg hw, beq_false_of_ne hw, Bool.false_or]

theorem lookup?_eliminate_self (hv : v < m.size) (he : e.natAbs = v + 1) :
    (m.eliminate v).register.lookup? e = none := by
  rw [lookup?_eq, he, Nat.add_sub_cancel, isEliminated?_eliminate hv, if_pos rfl, if_neg]
  intro h
  cases h.2

theorem lookup?_eliminate_of_ne (hv : v < m.size) (he : e.natAbs ≠ v + 1) :
    (m.eliminate v).register.lookup? e = m.register.lookup? e := by
  by_cases h0 : e.natAbs = 0
  · simp [lookup?_eq, h0]
  · have hne : e.natAbs - 1 ≠ v := by omega
    simp only [lookup?_eq, size_eliminate, isEliminated?_eliminate hv, if_neg hne]

theorem mention_eliminate (m : Numbering) (v : Nat) (e : Int) :
    ((m.eliminate v).register.mention e).1 = (m.register.mention e).1 := by
  rw [mention_register, mention_register, import?, import?]
  cases check e with
  | error fault => rfl
  | ok _ => rfl

/-! ## After any requests -/

/-- What a register has to do with the requests that were granted. -/
structure Corresponds (r : Register) (gs : List Request) : Prop where
  /-- As many variables are known as the greatest external variable says. -/
  size : r.size = greatest (gs.filterMap Request.external?)
  /-- The two tables end with the same variable. -/
  maxExternal : r.maxExternal = r.size
  /-- Zero is refused, and so is what exceeds the greatest external variable; everything else has a literal. -/
  succeeds : ∀ e, (∃ l, (r.mention e).1 = .ok l) ↔ e ≠ 0 ∧ e.natAbs ≤ greatestExternal
  /-- The literal has the polarity of the external literal, and its variable is one less than the external one. -/
  literal : ∀ e l, (r.mention e).1 = .ok l → l = .make (e.natAbs - 1) (0 < e)
  /-- What is refused leaves everything as it is. -/
  refused : ∀ e fault, (r.mention e).1 = .error fault → (r.mention e).2 = r
  /-- From then on, whatever is asked for, the external literal has this literal and the other way round. -/
  lasting : ∀ e l, (r.mention e).1 = .ok l → ∀ qs : List Request,
    let r' := (r.mention e).2.after qs
    (r'.mention e).1 = .ok l ∧ r'.export? l = some e
  /-- The literal of the external literal of a literal is this literal, and to ask for it changes nothing. -/
  exported : ∀ l : Literal, l.var < r.size → ∃ e, r.export? l = some e ∧ r.mention e = (.ok l, r)
  /-- A known variable is eliminated if this was asked for. -/
  eliminated : ∀ v, r.isEliminated? v = if v < r.size then some (decide (.eliminate v ∈ gs)) else none
  /-- Literals on known variables are found, unless these are eliminated. -/
  lookup : ∀ e, r.lookup? e =
    if (1 ≤ e.natAbs ∧ e.natAbs ≤ r.size) ∧ r.isEliminated? (e.natAbs - 1) = some false then
      some (.make (e.natAbs - 1) (0 < e))
    else none
  /-- To eliminate a variable hides it, and does nothing else. -/
  eliminate : ∀ v < r.size, ∃ r', r.eliminate? v = some r' ∧ r'.isEliminated? v = some true ∧
    (∀ w ≠ v, r'.isEliminated? w = r.isEliminated? w) ∧ (∀ e, e.natAbs = v + 1 → r'.lookup? e = none) ∧
    (∀ e, e.natAbs ≠ v + 1 → r'.lookup? e = r.lookup? e) ∧ r'.size = r.size ∧ r'.maxExternal = r.maxExternal ∧
    (∀ l, r'.export? l = r.export? l) ∧ ∀ e, (r'.mention e).1 = (r.mention e).1

theorem corresponds_register (hle : m.size ≤ greatestExternal)
    (hsize : m.size = greatest (gs.filterMap Request.external?))
    (hgone : ∀ v, m.isEliminated v = decide (.eliminate v ∈ gs)) : Corresponds m.register gs where
  size := (size_register m).trans hsize
  maxExternal := (maxExternal_register m).trans (size_register m).symm
  succeeds e := by
    rw [← check_eq_ok]
    refine ⟨fun ⟨l, h⟩ => (check_of_mention h).1, fun h => ⟨toLiteral e, ?_⟩⟩
    rw [mention_of_check h]
  literal e l h := (check_of_mention h).2
  refused e fault h := by
    have hc : check e ≠ .ok () := fun hc => by
      rw [mention_of_check hc] at h
      cases h
    obtain ⟨_, he⟩ := mention_of_not_check hc m
    rw [he]
  lasting e l h qs := by
    obtain ⟨hc, rfl⟩ := check_of_mention h
    obtain ⟨he, -⟩ := check_eq_ok.1 hc
    have hgrow := size_le_foldl_note (m.growTo e.natAbs) qs
    rw [size_growTo] at hgrow
    have hvar : (toLiteral e).var = e.natAbs - 1 := Literal.var_make ..
    simp only [mention_of_check hc, after_register, export?_register, hvar]
    rw [if_pos (by omega), toExternal_toLiteral he]
    exact ⟨trivial, rfl⟩
  exported l hl := by
    rw [size_register] at hl
    have hne : toExternal l ≠ 0 := Int.natAbs_pos.1 (natAbs_toExternal l ▸ Nat.succ_pos _)
    have hc : check (toExternal l) = .ok () := check_eq_ok.2 ⟨hne, natAbs_toExternal l ▸ Nat.le_trans hl hle⟩
    refine ⟨toExternal l, by rw [export?_register, if_pos hl], ?_⟩
    rw [mention_of_check hc, toLiteral_toExternal, natAbs_toExternal, growTo_of_le hl]
  eliminated v := by rw [isEliminated?_register, size_register, hgone]
  lookup e := by rw [lookup?_eq, size_register]; rfl
  eliminate v hv := by
    rw [size_register] at hv
    refine ⟨(m.eliminate v).register, by rw [eliminate?_register, if_pos hv], ?_, fun w hw => ?_,
      fun e => lookup?_eliminate_self hv, fun e => lookup?_eliminate_of_ne hv, ?_, ?_, fun l => ?_, mention_eliminate m v⟩
    · rw [isEliminated?_eliminate hv, if_pos rfl]
    · rw [isEliminated?_eliminate hv, if_neg hw]
    · rw [size_register, size_register, size_eliminate]
    · rw [maxExternal_register, maxExternal_register, size_eliminate]
    · rw [export?_register, export?_register, size_eliminate]

/-- **External and internal variables correspond.**  Whatever is asked for, in any order and with any integers. -/
theorem after_corresponds (qs : List Request) :
    Corresponds (after {} qs) (granted {} qs) := by
  obtain ⟨hsize, hgone⟩ := foldl_note_spec {} qs
  have h : Corresponds (qs.foldl Request.note {}).register (granted {} qs) :=
    corresponds_register (size_foldl_note_le (Nat.zero_le _) qs)
      (by rw [hsize, register_empty]; exact Nat.max_eq_right (Nat.zero_le _))
      (fun v => by rw [hgone, register_empty]; rfl)
  rwa [← after_register, register_empty] at h

end Register

end ClauseLearning

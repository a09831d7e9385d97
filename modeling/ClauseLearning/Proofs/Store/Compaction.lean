import ClauseLearning.Proofs.Store.Ledger

/-!
# Sweeps that follow verdicts

A sweep writes the clauses that are kept over words that it has gone past, which comes to the same as gathering them
in new words.  So what it leaves behind can be said of clauses as values: the clauses before its start are as they
were, and after them come those that were kept, in order, each as its verdict says.

* `Store.Chain.covered` — every word belongs to a clause or is padding.
* `Store.Judge.rule` — which clause is left of each that a sweep visits, with `Judge.tells`.
* `Store.Compacted` — what is true of a sweep when some clauses were visited.
* `Store.compact_compacts` — what a sweep leaves behind.
-/

namespace ClauseLearning

namespace Store

variable {s : Store} {p q : Nat}

/-- Every word that a good walk goes over belongs to a clause or is padding. -/
theorem Chain.covered (h : s.Chain p) {i : Nat} (hp : p ≤ i) (hi : i < s.words.size) :
    (∃ o ∈ s.offsetsFrom p, o ≤ i ∧ i < o + headerWords + s.sizeAt o) ∨ s.word i = padding := by
  induction h with
  | done => omega
  | @gap p inside pad _ ih =>
    rw [offsetsFrom_gap inside pad]
    by_cases hip : i = p
    · exact .inr (hip ▸ pad)
    · exact ih (by omega)
  | @clause p size three fits _ ih =>
    rw [offsetsFrom_clause (by omega) size]
    by_cases hin : i < p + headerWords + s.sizeAt p
    · exact .inl ⟨p, List.mem_cons_self .., hp, hin⟩
    · exact (ih (by omega)).imp_left fun ⟨o, ho, h⟩ => ⟨o, List.mem_cons_of_mem _ ho, h⟩

/-! ## Verdicts -/

theorem Edit.size_foldl (edits : List Edit) (c : Record) :
    (edits.foldl (fun c e => e.apply c) c).literals.size = c.literals.size := by
  induction edits generalizing c with
  | nil => rfl
  | cons e edits ih => rw [List.foldl_cons, ih, Edit.size_apply]

/-- The clause that a verdict leaves. -/
def Verdict.outcome (c : Record) : Verdict → Option Record
  | keep edits n => some ((edits.foldl (fun c e => e.apply c) c).take (max 3 (min n c.literals.size)))
  | drop => none

/-- Which clause is left of each that a sweep visits. -/
def Judge.rule (judge : Judge) : SweepRule (Nat × List Reference) := fun x _ new c =>
  match (judge x.1 c).outcome c with
  | none => (none, x.1 + 1, x.2)
  | some c => (some c, x.1 + 1, x.2 ++ [new])

/-- The rule of verdicts says what a sweep that follows them leaves. -/
theorem Judge.tells (judge : Judge) : judge.rule.Tells judge.visitor where
  left x old new c _ := by
    rw [rule, visitor]
    cases judge x.1 c with
    | keep edits n => rfl
    | drop => rfl
  fits x old new c c' n hkept h3 := by
    rw [visitor] at hkept
    cases hv : judge x.1 c with
    | drop =>
      rw [hv] at hkept
      cases hkept
    | keep edits k =>
      rw [hv] at hkept
      obtain ⟨rfl, rfl⟩ := Prod.mk.inj (Option.some.inj hkept)
      rw [Edit.size_foldl]
      omega

/-- A clause that was kept reads back as a ledger has it. -/
theorem Judge.outcome_eq (judge : Judge) (i : Nat) {c : Record} (h3 : 3 ≤ c.literals.size) :
    judge.outcome i c = ((judge i c).outcome c).map fun c => c.settled.stored := by
  rw [outcome]
  cases judge i c with
  | drop => rfl
  | keep edits n =>
    generalize hk : max 3 (min n c.literals.size) = k
    have hsize : ((edits.foldl (fun c e => e.apply c) c).take k).literals.size = k := by
      simp only [Record.take, Array.take_eq_extract, Array.size_extract, Edit.size_foldl]
      omega
    simp only [Verdict.outcome, Option.map_some, hk, Record.settled, hsize]
    rfl

/-- A clause that is kept has three literals or more, and not more than before. -/
theorem Verdict.size_outcome {v : Verdict} {c c' : Record} (h : v.outcome c = some c')
    (h3 : 3 ≤ c.literals.size) : 3 ≤ c'.literals.size ∧ c'.literals.size ≤ c.literals.size := by
  cases v with
  | drop => cases h
  | keep edits n =>
    obtain rfl : _ = c' := Option.some.inj h
    simp only [Record.take, Array.take_eq_extract, Array.size_extract, Edit.size_foldl]
    omega

/-- What is made of one clause more. -/
theorem Judge.kept_append (judge : Judge) (es : List Entry) (e : Entry) :
    judge.kept (es ++ [e]) =
      judge.kept es ++ ((judge.outcome es.length e.clause).map fun c => { e with clause := c }).toList := by
  rw [Judge.kept, List.mapIdx_append_one, List.reduceOption_append, Judge.kept]
  congr 1

/-! ## The words before the start -/

/-- A clause of the words before a position is one of the store. -/
theorem Seam.recordAt_cut (h : s.Chain 0) (hq : s.Seam q) {o e : Nat} (ho : o ∈ (s.cut q e).offsets) :
    (s.cut q e).recordAt o = s.recordAt o := by
  have hfits := hq.fits h ho
  exact recordAt_congr (h.mem ((hq.mem_cut h).1 ho).1).2 ((hq.chain_cut h e).mem ho).2 fun i _ hi =>
    word_cut (by omega) e

/-! ## A sweep -/

/-- How many words some clauses take. -/
def span (es : List Entry) : Nat := (es.map fun e => headerWords + e.clause.literals.size).sum

/-- What is true of a sweep from a position on when some clauses `done` were visited.  The clauses from that
position on are those of `es`, and the offsets of the ones that were kept are `news`. -/
structure Compacted (s : Store) (q : Nat) (judge : Judge) (es : List Entry) (news done : List Nat) (t : Store)
    (x : Nat × List Reference) : Prop where
  /-- How many clauses were visited. -/
  count : x.1 = done.length
  /-- The references to the clauses that were kept. -/
  refs : x.2 = news.map fun o => ⟨o, nextEpoch s.epoch⟩
  /-- The epoch is the next one. -/
  epoch : t.epoch = nextEpoch s.epoch
  /-- The walk is good. -/
  chain : t.Chain 0
  /-- The clauses that were kept come after those before the start. -/
  offsets : t.offsets = (s.cut q (nextEpoch s.epoch)).offsets ++ news
  /-- Clauses before the start are as they were. -/
  early : ∀ o ∈ (s.cut q (nextEpoch s.epoch)).offsets, t.recordAt o = s.recordAt o
  /-- Clauses that were kept are as the verdicts say. -/
  late : news.map t.recordAt = (judge.kept (es.take done.length)).map Entry.clause
  /-- There is no padding between clauses that were kept. -/
  size : t.words.size = q + span (judge.kept (es.take done.length))

variable {judge : Judge} {es : List Entry} {news done : List Nat} {t : Store} {x : Nat × List Reference} {o : Nat}

theorem compacted_start (h : s.Chain 0) (hq : s.Seam q) :
    Compacted s q judge es [] [] (s.cut q (nextEpoch s.epoch)) (0, []) where
  count := rfl
  refs := rfl
  epoch := rfl
  chain := hq.chain_cut h _
  offsets := (List.append_nil _).symm
  early := fun _ ho => hq.recordAt_cut h ho
  late := rfl
  size := size_cut hq.inside _

/-- What one more verdict makes of the clauses that were kept. -/
theorem take_succ_kept (judge : Judge) {e : Entry} {n : Nat} (he : es[n]? = some e) :
    judge.kept (es.take (n + 1)) =
      judge.kept (es.take n) ++ ((judge.outcome n e.clause).map fun c => { e with clause := c }).toList := by
  have hlt : n < es.length := (List.getElem?_eq_some_iff.1 he).1
  rw [List.take_add_one, he, Option.toList_some, Judge.kept_append, List.length_take, Nat.min_eq_left (by omega)]

/-- A visit to a clause that is dropped. -/
theorem Compacted.skip (h : Compacted s q judge es news done t x) {e : Entry} (he : es[done.length]? = some e)
    (hdrop : judge.outcome done.length e.clause = none) :
    Compacted s q judge es news (done ++ [o]) t (x.1 + 1, x.2) := by
  have hkept := take_succ_kept judge he
  rw [hdrop, Option.map_none, Option.toList_none, List.append_nil] at hkept
  have hlen : (done ++ [o]).length = done.length + 1 := List.length_append
  exact { h with
    count := by rw [hlen, h.count]
    late := by rw [h.late, hlen, hkept]
    size := by rw [h.size, hlen, hkept] }

/-- A visit to a clause that is kept. -/
theorem Compacted.keep (h : Compacted s q judge es news done t x) {e : Entry} {c : Record}
    (he : es[done.length]? = some e) (hkeep : (judge done.length e.clause).outcome e.clause = some c)
    (h3' : 3 ≤ e.clause.literals.size) (h3 : 3 ≤ c.literals.size) (hp : c.literals.size ≠ padding) :
    Compacted s q judge es (news ++ [t.words.size]) (done ++ [o]) (t.append c.settled)
      (x.1 + 1, x.2 ++ [⟨t.words.size, nextEpoch s.epoch⟩]) := by
  have happ := appended_append (c := c.settled) h.chain h3 hp
  have hold : ∀ o ∈ t.offsets, (t.append c.settled).recordAt o = t.recordAt o := fun o ho =>
    happ.recordAt_old h.chain ho
  have hkept := take_succ_kept judge he
  rw [judge.outcome_eq _ h3', hkeep] at hkept
  have hlen : (done ++ [o]).length = done.length + 1 := List.length_append
  refine ⟨by rw [hlen, h.count], by rw [h.refs, List.map_append]; rfl, happ.epoch.trans h.epoch, happ.chain,
    by rw [happ.offsets, h.offsets, List.append_assoc], fun o ho => ?_, ?_, ?_⟩
  · rw [hold o (by rw [h.offsets]; exact List.mem_append_left _ ho), h.early o ho]
  · rw [hlen, hkept, List.map_append, List.map_append, ← h.late]
    congr 1
    · exact List.map_congr_left fun o ho => hold o (by rw [h.offsets]; exact List.mem_append_right _ ho)
    · exact congrArg (fun c => [c]) (recordAt_append h.chain h3 hp)
  · have hsum : span (judge.kept (es.take (done.length + 1))) =
        span (judge.kept (es.take done.length)) + (headerWords + c.literals.size) := by
      rw [hkept, span, List.map_append, List.sum_append]
      rfl
    have hsize : (t.append c.settled).words.size = t.words.size + (headerWords + c.literals.size) := by
      rw [Store.append, Array.size_append, size_words]
      rfl
    rw [hlen, hsum, hsize, h.size, Nat.add_assoc]

/-- What a sweep leaves behind. -/
theorem compact_compacts (h : s.Chain 0) {start : Nat} (hq : s.Seam (min start s.words.size)) (judge : Judge)
    (hes : es.map Entry.clause = (s.offsetsFrom (min start s.words.size)).map s.recordAt)
    (hroom : ∀ o ∈ s.offsets, s.sizeAt o < padding) :
    ∃ news t x garbage, Compacted s (min start s.words.size) judge es news
        (s.offsetsFrom (min start s.words.size)) t x ∧
      s.compact start judge.visitor (0, []) =
        ({ t with garbage }, ⟨min start s.words.size, s.epoch, nextEpoch s.epoch⟩, x) := by
  generalize hqs : min start s.words.size = q at *
  obtain ⟨news, hnews⟩ := @sweepFrom_induct s q _ judge.rule
    (fun done t x => ∃ news, Compacted s q judge es news done t x) [] (s.offsetsFrom q) (s.words.take q) (0, [])
    (hq.chain h) (fun done o rest t x hall ho hP => by
      obtain ⟨news, hP⟩ := hP
      have hmem := ((hq.mem_offsetsFrom h).1 ho).1
      have hat := (h.mem hmem).2
      obtain ⟨e, he, hclause⟩ : ∃ e, es[done.length]? = some e ∧ e.clause = s.recordAt o := by
        have := congrArg (·[done.length]?) hes
        simpa [hall, List.getElem?_map] using this
      have hcount := hP.count
      simp only [Visits, Judge.rule, ← hclause, hcount]
      have hsize : e.clause.literals.size = s.sizeAt o := by rw [hclause, hat.size_recordAt]
      have h3 : 3 ≤ e.clause.literals.size := by rw [hsize]; exact hat.three
      cases hout : (judge done.length e.clause).outcome e.clause with
      | none => exact ⟨news, hcount ▸ hP.skip he (by rw [judge.outcome_eq _ h3, hout]; rfl)⟩
      | some c =>
        obtain ⟨h3', hle⟩ := Verdict.size_outcome hout h3
        have := hroom o hmem
        exact ⟨_, hcount ▸ hP.keep he hout h3 h3' (by omega)⟩)
    rfl ⟨[], compacted_start h hq⟩
  rw [compact_eq_gather judge.tells (by rw [hqs]; exact hq.chain h)]
  simp only [gather, hqs]
  exact ⟨news, _, _, _, hnews, rfl⟩

end Store

end ClauseLearning

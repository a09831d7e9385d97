import ClauseLearning.Luby
import Mathlib.Algebra.GroupWithZero.Nat
import Mathlib.Algebra.Order.Group.Nat

/-!
# The pair generates the Luby sequence

The sequence is made of blocks: the elements up to `2 ^ (k + 1)` are those up to `2 ^ k` twice and then `2 ^ (k + 1)`.
A pair whose first number lies between two multiples of `2 ^ k` does not see which multiples these are, since the lowest
set bit is the same.  So it goes through the same block again, and what follows on the block is read off the one bit
that differs.

* `luby_end`, `luby_again`, `lubyFirst_block` — the sequence block by block.
* `Luby.lowestBit_eq`, `Luby.lowestBit_ne` — the lowest set bit of a word.
* `Luby.Gives` — the elements on the way from one position to another.
* `Luby.gives_block`, `Luby.gives_all` — a block, and all that words have room for.
* `Luby.take_luby` — every element of an index below `2 ^ 64` is generated, and no addition overflows.
-/

namespace ClauseLearning

/-! ## Blocks -/

theorem powerBelow_eq {n k : Nat} (h : 2 ^ k ≤ n) (h' : n < 2 ^ (k + 1)) : powerBelow n = 2 ^ k := by
  have hpos := Nat.two_pow_pos k
  rw [powerBelow, (Nat.log2_eq_iff (by omega)).2 ⟨h, h'⟩, Nat.one_shiftLeft]

/-- The last element of a block. -/
theorem luby_end (k : Nat) : luby (2 ^ (k + 1) - 1) = 2 ^ k := by
  have hpos := Nat.two_pow_pos k
  have hpow : 2 ^ (k + 1) = 2 * 2 ^ k := Nat.pow_succ'
  have hbelow : powerBelow (2 ^ (k + 1) - 1) = 2 ^ k := powerBelow_eq (by omega) (by omega)
  rw [luby, hbelow, if_neg (by omega), if_pos (by omega)]

/-- After a block the sequence is the same as from its start, up to the end of the next block. -/
theorem luby_again {k i : Nat} (hpos : 0 < i) (hi : i < 2 ^ (k + 1)) : luby (2 ^ (k + 1) - 1 + i) = luby i := by
  have hpow : 2 ^ (k + 1 + 1) = 2 * 2 ^ (k + 1) := Nat.pow_succ'
  have hbelow : powerBelow (2 ^ (k + 1) - 1 + i) = 2 ^ (k + 1) := powerBelow_eq (by omega) (by omega)
  rw [luby, hbelow, if_neg (by omega), if_neg (by omega)]
  congr 1
  omega

/-- The first `n` elements. -/
def lubyFirst (n : Nat) : List Nat := (List.range' 1 n).map luby

@[simp] theorem length_lubyFirst (n : Nat) : (lubyFirst n).length = n := by simp [lubyFirst]

theorem lubyFirst_succ (n : Nat) : lubyFirst (n + 1) = lubyFirst n ++ [luby (n + 1)] := by
  rw [lubyFirst, List.range'_1_concat, List.map_append, Nat.add_comm 1 n]
  rfl

/-- The first elements are a block without its end, its end, and then the first elements again. -/
theorem lubyFirst_block {k m : Nat} (hm : m < 2 ^ (k + 1)) :
    lubyFirst (2 ^ (k + 1) - 1 + m) = lubyFirst (2 ^ (k + 1) - 2) ++ ([2 ^ k] ++ lubyFirst m) := by
  induction m with
  | zero =>
    have hpow : 2 ^ (k + 1) = 2 * 2 ^ k := Nat.pow_succ'
    have hpos := Nat.two_pow_pos k
    have hend : 2 ^ (k + 1) - 2 + 1 = 2 ^ (k + 1) - 1 := by omega
    rw [Nat.add_zero, ← hend, lubyFirst_succ, hend, luby_end]
    rfl
  | succ m ih =>
    rw [← Nat.add_assoc, lubyFirst_succ, ih (by omega), lubyFirst_succ, Nat.add_assoc,
      luby_again (Nat.succ_pos m) hm]
    simp only [List.append_assoc]

namespace Luby

variable {u t k n q : Nat} {l l' l'' : Luby} {vs ws : List Nat}

/-! ## The lowest set bit -/

/-- An odd number has one bit in common with its complement. -/
theorem odd_and_complement (h : 2 * q + 1 < 2 ^ n) : (2 * q + 1) &&& (2 ^ n - (2 * q + 1)) = 1 := by
  refine Nat.eq_of_testBit_eq fun i => ?_
  rw [Nat.testBit_and, Nat.testBit_two_pow_sub_succ (by omega)]
  cases i with
  | zero =>
    have hn : 0 < n := Nat.pos_of_ne_zero fun hn => by
      rw [hn] at h
      omega
    simp [hn]
  | succ i =>
    rw [Nat.testBit_succ, Nat.testBit_succ, Nat.testBit_succ, show (2 * q + 1) / 2 = q by omega,
      show 2 * q / 2 = q by omega, show 1 / 2 = 0 from rfl, Nat.zero_testBit]
    cases q.testBit i <;> simp

theorem toNat_lowestBit (hu : 0 < u) (hlt : u < 2 ^ 64) :
    (lowestBit (.ofNat u)).toNat = u &&& (2 ^ 64 - u) := by
  rw [lowestBit, UInt64.toNat_and, UInt64.toNat_sub, UInt64.toNat_ofNat_of_lt' hlt, UInt64.toNat_zero, Nat.add_zero,
    Nat.mod_eq_of_lt (by omega)]

/-- The lowest set bit of an odd multiple of a power of two. -/
theorem lowestBit_eq (hu : u = 2 ^ k * (2 * q + 1)) (hlt : u < 2 ^ 64) : lowestBit (.ofNat u) = .ofNat (2 ^ k) := by
  have hpos : 0 < u := hu ▸ Nat.mul_pos (Nat.two_pow_pos k) (Nat.succ_pos _)
  have hle : 2 ^ k ≤ u := hu ▸ Nat.le_mul_of_pos_right _ (Nat.succ_pos _)
  have hk : k ≤ 64 := Nat.le_of_lt ((Nat.pow_lt_pow_iff_right (by decide)).1 (Nat.lt_of_le_of_lt hle hlt))
  have hsplit : 2 ^ 64 = 2 ^ k * 2 ^ (64 - k) := by rw [← Nat.pow_add, Nat.add_sub_cancel' hk]
  have hq : 2 * q + 1 < 2 ^ (64 - k) := Nat.lt_of_mul_lt_mul_left (hu ▸ hsplit ▸ hlt)
  apply UInt64.toNat_inj.1
  rw [toNat_lowestBit hpos hlt, UInt64.toNat_ofNat_of_lt' (Nat.lt_of_le_of_lt hle hlt), hu, hsplit, ← Nat.mul_sub,
    Nat.mul_comm, Nat.mul_comm (2 ^ k), ← Nat.shiftLeft_eq, ← Nat.shiftLeft_eq, ← Nat.shiftLeft_and_distrib,
    odd_and_complement hq, Nat.one_shiftLeft]

/-- The lowest set bit of a multiple of a power of two is none below it. -/
theorem lowestBit_ne (hdvd : 2 ^ (k + 1) ∣ u) (hpos : 0 < u) (hlt : u < 2 ^ 64) :
    lowestBit (.ofNat u) ≠ .ofNat (2 ^ k) := by
  intro he
  have hk : 2 ^ k < 2 ^ 64 := by
    have := Nat.le_of_dvd hpos hdvd
    rw [Nat.pow_succ] at this
    omega
  have hbit : u.testBit k = false := by
    obtain ⟨q, rfl⟩ := hdvd
    rw [Nat.testBit_two_pow_mul]
    simp
  have hboth := congrArg (fun w : UInt64 => w.toNat.testBit k) he
  simp only [toNat_lowestBit hpos hlt, UInt64.toNat_ofNat_of_lt' hk, Nat.testBit_and, hbit, Nat.testBit_two_pow_self,
    Bool.false_and, Bool.false_eq_true] at hboth

/-! ## From one position to another -/

/-- A position by its numbers. -/
def at' (run value : Nat) : Luby := ⟨.ofNat run, .ofNat value⟩

theorem take_stuck (h : l.next? = none) (n : Nat) : take n l = ([], l) := by
  cases n with
  | zero => rfl
  | succ n => rw [take, h]

theorem take_add (m n : Nat) (l : Luby) :
    take (m + n) l = ((take m l).1 ++ (take n (take m l).2).1, (take n (take m l).2).2) := by
  induction m generalizing l with
  | zero => rw [Nat.zero_add]; rfl
  | succ m ih =>
    rw [Nat.add_right_comm, take, take]
    cases h : l.next? with
    | none => simp only [take_stuck h, List.append_nil]
    | some x => simp only [ih, List.cons_append]

theorem length_take_le (n : Nat) (l : Luby) : (take n l).1.length ≤ n := by
  induction n generalizing l with
  | zero => exact Nat.le_refl _
  | succ n ih =>
    rw [take]
    cases l.next? with
    | none => exact Nat.zero_le _
    | some x => exact Nat.succ_le_succ (ih x.2)

/-- On the way from one position to another there are these elements. -/
def Gives (l : Luby) (vs : List Nat) (l' : Luby) : Prop :=
  (take vs.length l).1.map UInt64.toNat = vs ∧ (take vs.length l).2 = l'

theorem Gives.append (h : Gives l vs l') (h' : Gives l' ws l'') : Gives l (vs ++ ws) l'' := by
  rw [Gives, List.length_append, take_add]
  dsimp only
  rw [h.2, List.map_append, h.1, h'.1]
  exact ⟨rfl, h'.2⟩

/-- The end of a run of doublings. -/
theorem gives_end (hu : u = 2 ^ k * (2 * q + 1)) (hlt : u + 1 < 2 ^ 64) :
    Gives (at' u (2 ^ k)) [2 ^ k] (at' (u + 1) 1) := by
  have hle : 2 ^ k ≤ u := hu ▸ Nat.le_mul_of_pos_right _ (Nat.succ_pos _)
  have hmax : UInt64.ofNat u ≠ 18446744073709551615 := fun he => by
    have hnat := congrArg UInt64.toNat he
    rw [UInt64.toNat_ofNat_of_lt' (by omega : u < 2 ^ 64)] at hnat
    change u = 18446744073709551615 at hnat
    omega
  have hnext : next? (at' u (2 ^ k)) = some (.ofNat (2 ^ k), at' (u + 1) 1) := by
    rw [next?, advance?, at', if_pos (lowestBit_eq hu (by omega)), if_neg hmax, at', UInt64.ofNat_add]
    rfl
  rw [Gives, List.length_singleton, take, hnext]
  exact ⟨by simp [take, UInt64.toNat_ofNat_of_lt' (by omega : 2 ^ k < 2 ^ 64)], rfl⟩

/-- A doubling. -/
theorem gives_double (hdvd : 2 ^ (k + 1) ∣ u) (hpos : 0 < u) (hlt : u < 2 ^ 64) :
    Gives (at' u (2 ^ k)) [2 ^ k] (at' u (2 ^ (k + 1))) := by
  have hle := Nat.le_of_dvd hpos hdvd
  have hpow : 2 ^ (k + 1) = 2 ^ k + 2 ^ k := by rw [Nat.pow_succ]; omega
  have hmax : ¬ 9223372036854775808 ≤ UInt64.ofNat (2 ^ k) := by
    rw [UInt64.le_iff_toNat_le, UInt64.toNat_ofNat_of_lt' (by omega : 2 ^ k < 2 ^ 64)]
    simp
    omega
  have hnext : next? (at' u (2 ^ k)) = some (.ofNat (2 ^ k), at' u (2 ^ (k + 1))) := by
    simp only [next?, advance?, at', if_neg (lowestBit_ne hdvd hpos hlt), if_neg hmax, Option.map_some,
      ← UInt64.ofNat_add, hpow]
  rw [Gives, List.length_singleton, take, hnext]
  exact ⟨by simp [take, UInt64.toNat_ofNat_of_lt' (by omega : 2 ^ k < 2 ^ 64)], rfl⟩

/-- A block without its end, after any multiple of its length. -/
theorem gives_block (hdvd : 2 ^ k ∣ u) (hlt : u + 2 ^ k < 2 ^ 64) :
    Gives (at' (u + 1) 1) (lubyFirst (2 ^ (k + 1) - 2)) (at' (u + 2 ^ k) (2 ^ k)) := by
  induction k generalizing u with
  | zero => exact ⟨rfl, rfl⟩
  | succ k ih =>
    have hpow : 2 ^ (k + 1) = 2 ^ k + 2 ^ k := by rw [Nat.pow_succ]; omega
    have hpow' : 2 ^ (k + 1 + 1) = 2 ^ (k + 1) + 2 ^ (k + 1) := by rw [Nat.pow_succ 2 (k + 1)]; omega
    have hpos := Nat.two_pow_pos k
    obtain ⟨q, rfl⟩ := hdvd
    have hdvd : 2 ^ k ∣ 2 ^ (k + 1) * q := Nat.dvd_mul_right_of_dvd (Nat.pow_dvd_pow 2 (Nat.le_succ k)) q
    have hfirst := ih hdvd (by omega)
    have hend : Gives (at' (2 ^ (k + 1) * q + 2 ^ k) (2 ^ k)) [2 ^ k] (at' (2 ^ (k + 1) * q + 2 ^ k + 1) 1) :=
      gives_end (q := q) (by rw [Nat.pow_succ, Nat.mul_add, Nat.mul_one, Nat.mul_assoc]) (by omega)
    have hsecond := ih (u := 2 ^ (k + 1) * q + 2 ^ k) (Nat.dvd_add hdvd (Nat.dvd_refl _)) (by omega)
    have hdouble : Gives (at' (2 ^ (k + 1) * q + 2 ^ (k + 1)) (2 ^ k)) [2 ^ k]
        (at' (2 ^ (k + 1) * q + 2 ^ (k + 1)) (2 ^ (k + 1))) :=
      gives_double (Nat.dvd_add (Nat.dvd_mul_right ..) (Nat.dvd_refl _)) (by omega) (by omega)
    rw [show 2 ^ (k + 1) * q + 2 ^ k + 2 ^ k = 2 ^ (k + 1) * q + 2 ^ (k + 1) by omega] at hsecond
    -- the end of the second half is not yet the end of the block
    have hlist : lubyFirst (2 ^ (k + 1 + 1) - 2) =
        lubyFirst (2 ^ (k + 1) - 2) ++ ([2 ^ k] ++ (lubyFirst (2 ^ (k + 1) - 2) ++ [2 ^ k])) := by
      have hhalf := lubyFirst_block (k := k) (m := 0) (Nat.two_pow_pos _)
      rw [show 2 ^ (k + 1 + 1) - 2 = 2 ^ (k + 1) - 1 + (2 ^ (k + 1) - 1) by omega, lubyFirst_block (by omega),
        ← Nat.add_zero (2 ^ (k + 1) - 1), hhalf]
      rfl
    rw [hlist]
    exact hfirst.append (hend.append (hsecond.append hdouble))

/-- What is left of the words of 64 bits, from a power of two before their end. -/
theorem gives_rest (hk : k < 64) :
    Gives (at' (2 ^ 64 - 2 ^ (k + 1) + 1) 1) (lubyFirst (2 ^ (k + 1 + 1) - 4 - k)) (at' (2 ^ 64 - 1) 1) := by
  induction k with
  | zero => exact ⟨rfl, rfl⟩
  | succ k ih =>
    obtain ⟨m, hm⟩ := Nat.exists_eq_succ_of_ne_zero (Nat.two_pow_pos (62 - k)).ne'
    have hpow : 2 ^ (k + 1 + 1) = 2 ^ (k + 1) * 2 := rfl
    have hpow' : 2 ^ (k + 1 + 1 + 1) = 2 ^ (k + 1 + 1) * 2 := rfl
    have hlong : k + 4 ≤ 2 ^ (k + 1 + 1) := by
      have := Nat.lt_two_pow_self (n := k)
      rw [Nat.pow_succ, Nat.pow_succ]
      omega
    have hwhole : 2 ^ 64 = 2 ^ (k + 1 + 1) * m + 2 ^ (k + 1 + 1) := by
      rw [← Nat.mul_succ, ← hm, ← Nat.pow_add]
      congr 1
      omega
    have hodd : 2 ^ 64 - 2 ^ (k + 1) = 2 ^ (k + 1) * (2 * m + 1) := by
      rw [Nat.mul_add, Nat.mul_one, ← Nat.mul_assoc, ← hpow]
      omega
    have hhalf : 2 ^ 64 - 2 ^ (k + 1 + 1) + 2 ^ (k + 1) = 2 ^ 64 - 2 ^ (k + 1) := by omega
    have hdvd : 2 ^ (k + 1) ∣ 2 ^ 64 - 2 ^ (k + 1 + 1) :=
      Nat.dvd_sub (Nat.pow_dvd_pow 2 (by omega)) (Nat.pow_dvd_pow 2 (by omega))
    have hblock := gives_block hdvd (by omega)
    rw [hhalf] at hblock
    have hlist : 2 ^ (k + 1 + 1 + 1) - 4 - (k + 1) = 2 ^ (k + 1 + 1) - 1 + (2 ^ (k + 1 + 1) - 4 - k) := by omega
    rw [hlist, lubyFirst_block (by omega)]
    exact hblock.append ((gives_end hodd (by omega)).append (ih (by omega)))

/-- How many elements can be generated in words of 64 bits. -/
def total : Nat := 2 ^ 65 - 67

/-- All of them, from the first one on. -/
theorem gives_all : Gives {} (lubyFirst total) (at' (2 ^ 64 - 1) 1) := gives_rest (k := 63) (by decide)

/-- As long as there are elements, the first ones generated are the first ones of the sequence. -/
theorem map_take (h : n ≤ total) : (take n {}).1.map UInt64.toNat = lubyFirst n := by
  have hall := gives_all.1
  rw [length_lubyFirst, ← Nat.add_sub_cancel' h, take_add, List.map_append, lubyFirst, ← List.range'_append_1,
    List.map_append] at hall
  -- neither part is longer than it should be, so neither is shorter
  have hlong := congrArg List.length hall
  have hfirst := length_take_le n {}
  have hrest := length_take_le (total - n) (take n {}).2
  simp only [List.length_append, List.length_map, List.length_range'] at hlong
  refine List.append_inj_left hall ?_
  rw [List.length_map, length_lubyFirst]
  omega

/-- As long as there are elements, the next one generated is the next one of the sequence. -/
theorem next_take (h : n < total) :
    ∃ v, (take n {}).2.next? = some (v, (take (n + 1) {}).2) ∧ v.toNat = luby (n + 1) := by
  have hnext := map_take h
  rw [Nat.succ_eq_add_one, lubyFirst_succ, ← map_take (Nat.le_of_lt h), take_add, List.map_append] at hnext
  have hone := List.append_cancel_left hnext
  rw [take_add]
  rw [take] at hone ⊢
  cases hx : (take n {}).2.next? with
  | none =>
    rw [hx] at hone
    cases hone
  | some x =>
    rw [hx] at hone
    exact ⟨x.1, rfl, (List.cons.inj hone).1⟩

theorem value_of_next {v : UInt64} (h : l.next? = some (v, l')) : l.value = v := by
  obtain ⟨_, _, he⟩ := Option.map_eq_some_iff.1 h
  exact congrArg Prod.fst he

/-- **The pair generates the Luby sequence.**  The sequence is that of its blocks.  Every call below the `2 ^ 64`-th one
returns its next element, which is the current element before the call. -/
theorem take_luby :
    (∀ k, 1 ≤ k → luby (2 ^ k - 1) = 2 ^ (k - 1)) ∧
      (∀ k n, 2 ^ (k - 1) ≤ n → n < 2 ^ k - 1 → luby n = luby (n - 2 ^ (k - 1) + 1)) ∧
      ∀ n, 1 ≤ n → n < 2 ^ 64 →
        (take n {}).1.map UInt64.toNat = (List.range' 1 n).map luby ∧
          ∃ v, (take (n - 1) {}).2.next? = some (v, (take n {}).2) ∧ v.toNat = luby n ∧
            (take (n - 1) {}).2.value = v := by
  refine ⟨fun k hk => ?_, fun k n hle hlt => ?_, fun n hpos hlt => ?_⟩
  · obtain ⟨k, rfl⟩ := Nat.exists_eq_succ_of_ne_zero (Nat.ne_of_gt hk)
    exact luby_end k
  · -- the block that is repeated is not empty
    obtain _ | _ | k := k
    · simp at hlt
    · simp at hle hlt
      omega
    · have hpow : 2 ^ (k + 1 + 1) = 2 ^ (k + 1) * 2 := rfl
      rw [Nat.add_sub_cancel] at hle ⊢
      have hagain := luby_again (k := k) (i := n - 2 ^ (k + 1) + 1) (Nat.succ_pos _) (by omega)
      rwa [show 2 ^ (k + 1) - 1 + (n - 2 ^ (k + 1) + 1) = n by omega] at hagain
  · have htotal : n ≤ total := by
      rw [total]
      omega
    obtain ⟨n, rfl⟩ := Nat.exists_eq_succ_of_ne_zero (Nat.ne_of_gt hpos)
    obtain ⟨v, hnext, hv⟩ := next_take htotal
    exact ⟨map_take htotal, v, hnext, hv, value_of_next hnext⟩

/-- The fifteenth element, which ends a block. -/
theorem take_luby_fifteen :
    luby 15 = 8 ∧ luby 13 = luby 6 ∧ ∃ v, (take 14 {}).2.next? = some (v, (take 15 {}).2) ∧ v.toNat = 8 := by
  have hend := take_luby.1 4 (by decide)
  obtain ⟨-, v, hnext, hv, -⟩ := take_luby.2.2 15 (by decide) (by decide)
  exact ⟨hend, take_luby.2.1 4 13 (by decide) (by decide), v, hnext, hv.trans hend⟩

end Luby

end ClauseLearning

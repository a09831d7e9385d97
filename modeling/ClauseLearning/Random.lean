/-!
# A source of random words

A linear congruential generator on words of 64 bits.  The low bits of its state have short periods,
so a word drawn from it takes the high half of the state as it is, and mixes the high half into its
low half.

* `Random.ofSeed` — the generator that starts from a seed.
* `Random.next` — one word of 64 bits.
* `Random.nextHalf`, `Random.nextBool`, `Random.bytes` — other draws, each made of whole words.
-/

namespace ClauseLearning

/-- The state of a generator. -/
structure Random where
  /-- The last element of the congruential sequence. -/
  state : UInt64 := 0
deriving DecidableEq, Repr, Inhabited

namespace Random

/-- The generator whose sequence starts after `seed`. -/
def ofSeed (seed : Nat) : Random := ⟨UInt64.ofNat seed⟩

/-- The next element of the congruential sequence. -/
def advance (s : UInt64) : UInt64 := s * 6364136223846793005 + 1442695040888963407

/-- The word drawn at an element of the sequence. -/
def output (s : UInt64) : UInt64 :=
  let high := s >>> 32
  let low := ((s >>> 16) ^^^ high) &&& 4294967295
  (high <<< 32) ||| low

/-- Draws a word of 64 bits. -/
def next (r : Random) : UInt64 × Random :=
  let s := advance r.state
  (output s, ⟨s⟩)

/-- Draws a word of 32 bits, the high half of a whole word. -/
def nextHalf (r : Random) : UInt64 × Random :=
  let (w, r) := r.next
  (w >>> 32, r)

/-- Draws a fair coin: whether a word is in the lower half of all words. -/
def nextBool (r : Random) : Bool × Random :=
  let (w, r) := r.next
  (w < 9223372036854775808, r)

/-- Draws `n` fair coins. -/
def bools : Nat → Random → List Bool × Random
  | 0, r => ([], r)
  | n + 1, r =>
    let (b, r) := r.nextBool
    let (bs, r) := bools n r
    (b :: bs, r)

/-- The `n` lowest bytes of a word, lowest first. -/
def lowBytes : Nat → UInt64 → List UInt8
  | 0, _ => []
  | n + 1, w => w.toUInt8 :: lowBytes n (w >>> 8)

/-- Draws `n` bytes: eight from each whole word, then the rest from one more draw, which is of half
a word if that is enough. -/
def bytes (n : Nat) (r : Random) : List UInt8 × Random :=
  if 8 ≤ n then
    let (w, r) := r.next
    let (rest, r) := bytes (n - 8) r
    (lowBytes 8 w ++ rest, r)
  else if 4 < n then
    let (w, r) := r.next
    (lowBytes n w, r)
  else if 0 < n then
    let (w, r) := r.nextHalf
    (lowBytes n w, r)
  else ([], r)
termination_by n

end Random

end ClauseLearning

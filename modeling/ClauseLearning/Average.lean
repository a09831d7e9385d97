/-!
# Exponential moving averages

An average of the values seen so far, in which recent values weigh more.  A plain exponential
average that starts from zero is biased towards zero; the bias is known exactly, as the weight
that has not yet been given to any value, and dividing it out gives the reported value.

* `Average.ofWindow` — the average that looks back over about so many values.
* `Average.update` — the average after one more value.
-/

namespace ClauseLearning

/-- The greater of two floats, or the one that is a number if the other is not. -/
def greaterFloat (a b : Float) : Float :=
  if a.isNaN then b else if a < b then b else a

/-- An exponential moving average. -/
structure Average where
  /-- The average, corrected for its start. -/
  value : Float
  /-- The average as if zeros had been seen before the first value. -/
  biased : Float
  /-- The weight of a fresh value. -/
  alpha : Float
  /-- The factor by which the weight of the past shrinks. -/
  beta : Float
  /-- The weight that is still left with the start, zero once it is negligible. -/
  startWeight : Float
deriving Inhabited

namespace Average

/-- An average over about `window` values.  A window below one counts as one. -/
def ofWindow (window : Float) : Average :=
  let alpha := 1.0 / greaterFloat window 1.0
  { value := 0.0, biased := 0.0, alpha := alpha, beta := 1.0 - alpha, startWeight := 1.0 }

/-- The weight of the start below which it is dropped. -/
def negligible : Float := 1e-12

/-- The average after the value `y`. -/
def update (a : Average) (y : Float) : Average :=
  let biased := a.biased + a.alpha * (y - a.biased)
  if a.startWeight > 0.0 then
    let rest := a.startWeight * a.beta
    if rest < negligible then
      { a with biased := biased, startWeight := 0.0, value := biased }
    else
      { a with biased := biased, startWeight := rest, value := biased / (1.0 - rest) }
  else
    { a with biased := biased, value := biased }

end Average

end ClauseLearning

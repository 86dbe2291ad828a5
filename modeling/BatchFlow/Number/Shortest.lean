import BatchFlow.Number.Binary

/-!
The text of a floating-point number: the fewest decimal digits that still single it out, the
nearest such decimal of several, always written positionally.
-/
namespace BatchFlow

/-- Twice the midpoints between a magnitude and its two neighbours, in units: the decimals between
them round to that magnitude, the midpoints too if its pattern is even. -/
def Precision.basin (p : Precision) (m : Nat) : Nat × Nat :=
  (p.units (m - 1) + p.units m, p.units m + p.units (m + 1))

/-- The nearest multiple of `10 ^ k` that rounds to the magnitude, as its factor. An exact tie
goes to the greater one. -/
def Precision.onGrid (p : Precision) (m : Nat) (k : Int) : Option Nat :=
  let step := Nat.pow 10 k.toNat * Nat.pow 2 (p.depth + 1)
  let scale := Nat.pow 10 (-k).toNat
  let value := 2 * p.units m * scale
  let (low, high) := p.basin m
  let hits (d : Nat) : Bool :=
    if m % 2 = 0 then low * scale ≤ d * step ∧ d * step ≤ high * scale
    else low * scale < d * step ∧ d * step < high * scale
  let below := value / step
  let above := below + 1
  match hits below, hits above with
  | true, true => some (if value - below * step < above * step - value then below else above)
  | true, false => some below
  | false, true => some above
  | false, false => none

/-- The decimal `factor * 10 ^ exponent` with the fewest digits that rounds to a positive
magnitude: the coarsest grid that has one. -/
def Precision.shortest (p : Precision) (m : Nat) : Nat × Int :=
  let top : Int := (Nat.toDigits 10 (p.units m / Nat.pow 2 p.depth)).length
  let found := (List.range 700).findSome? fun (i : Nat) =>
    (p.onGrid m (top - (i : Int))).map fun (d : Nat) => (d, top - (i : Int))
  found.getD (0, 0)

/-- Writes `factor * 10 ^ exponent` without an exponent: zeros to the right of the digits, or a
point among them with at least one digit before it. -/
def positional (factor : Nat) (exponent : Int) : List Char :=
  let digits := Nat.toDigits 10 factor
  match exponent with
  | .ofNat zeros => digits ++ List.replicate zeros '0'
  | .negSucc places =>
    let padded := List.replicate (places + 2 - digits.length) '0' ++ digits
    let (whole, fraction) := padded.splitAt (padded.length - (places + 1))
    whole ++ '.' :: fraction

/-- The sign, then the digits; `NaN` has no sign. -/
def Binary.text {p : Precision} (x : Binary p) : String :=
  if x.isNaN then "NaN"
  else
    let body :=
      if x.isInfinite then "inf"
      else if x.isZero then "0"
      else
        let (factor, exponent) := p.shortest x.magnitude
        String.ofList (positional factor exponent)
    if x.negative then "-" ++ body else body

end BatchFlow

import BatchFlow.Number.Rounding

/-!
Reading decimal texts. A whole number is an optional sign and ASCII digits. A floating-point
number may have a point and an exponent as well, with a digit before or after the point, and may be
`inf`, `infinity` or `nan` in any case. Blanks are refused.
-/
namespace BatchFlow.Reading

def digitValue (c : Char) : Nat := c.toNat - '0'.toNat

def extend (n : Nat) (digits : List Char) : Nat :=
  digits.foldl (fun acc c => 10 * acc + digitValue c) n

def natural? (cs : List Char) : Option Nat :=
  if cs ≠ [] ∧ cs.all Char.isDigit then some (extend 0 cs) else none

def sign : List Char → Bool × List Char
  | '-' :: cs => (true, cs)
  | '+' :: cs => (false, cs)
  | cs => (false, cs)

def integer? (s : String) : Option Int :=
  let (negative, cs) := sign s.toList
  (natural? cs).map fun n => if negative then -(n : Int) else n

def exponent? : List Char → Option Int
  | [] => some 0
  | c :: cs =>
    if c = 'e' ∨ c = 'E' then
      let (negative, digits) := sign cs
      (natural? digits).map fun n => if negative then -(n : Int) else n
    else none

/-- The digits of an unsigned decimal as one number, how many there are, and the exponent of the
last one. -/
def decimal? (cs : List Char) : Option (Nat × Nat × Int) := do
  let whole := cs.takeWhile Char.isDigit
  let rest := cs.dropWhile Char.isDigit
  let (fraction, rest) := match rest with
    | '.' :: after => (after.takeWhile Char.isDigit, after.dropWhile Char.isDigit)
    | _ => ([], rest)
  let digits := whole ++ fraction
  if digits.isEmpty then none
  else
    let e ← exponent? rest
    some (extend 0 digits, digits.length, e - fraction.length)

/-- The number nearest to `n * 10 ^ e`, where `n` has at most `digits` digits. Exponents beyond
every number of the format are decided without the power. -/
def scale (p : Precision) (negative : Bool) (n digits : Nat) (e : Int) : Binary p :=
  if n = 0 then .zero p negative
  else if 400 ≤ e then .infinity p negative
  else if e + digits ≤ -400 then .zero p negative
  else .ofRatio p negative (n * Nat.pow 10 e.toNat) (Nat.pow 10 (-e).toNat)

def binary? (p : Precision) (s : String) : Option (Binary p) :=
  let (negative, cs) := sign s.toList
  let lower := cs.map Char.toLower
  if lower = "inf".toList ∨ lower = "infinity".toList then some (.infinity p negative)
  else if lower = "nan".toList then some (.nan p negative)
  else (decimal? cs).map fun (n, digits, e) => scale p negative n digits e

end BatchFlow.Reading

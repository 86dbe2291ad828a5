import BatchFlow.Number.Rounding

/-!
The five operations on floating-point numbers. Each rounds its exact result once. An operand that
is not a number is handed on, the left one first; an operation that has no result gives the
negative `nan`.
-/
namespace BatchFlow.Binary

variable {p : Precision}

def firstNaN (x y : Binary p) : Option (Binary p) :=
  if x.isNaN then some x else if y.isNaN then some y else none

/-- The number of the given exact value; an exact zero takes the given sign. -/
def ofSignedUnits (p : Precision) (zeroNegative : Bool) (n : Int) : Binary p :=
  if n = 0 then zero p zeroNegative else ofUnits p (decide (n < 0)) n.natAbs 1

def addNumbers (x y : Binary p) : Binary p :=
  if x.isInfinite then
    if y.isInfinite && x.negative != y.negative then nan p true else x
  else if y.isInfinite then y
  else ofSignedUnits p (x.negative && y.negative) (x.signedUnits + y.signedUnits)

def add (x y : Binary p) : Binary p := (firstNaN x y).getD (addNumbers x y)
def sub (x y : Binary p) : Binary p := (firstNaN x y).getD (addNumbers x y.negate)

def mulNumbers (x y : Binary p) : Binary p :=
  let negative := x.negative != y.negative
  if x.isInfinite || y.isInfinite then
    if x.isZero || y.isZero then nan p true else infinity p negative
  else ofUnits p negative (x.units * y.units) (Nat.pow 2 p.depth)

def mul (x y : Binary p) : Binary p := (firstNaN x y).getD (mulNumbers x y)

def divNumbers (x y : Binary p) : Binary p :=
  let negative := x.negative != y.negative
  if x.isInfinite then if y.isInfinite then nan p true else infinity p negative
  else if y.isInfinite then zero p negative
  else if y.isZero then if x.isZero then nan p true else infinity p negative
  else ofRatio p negative x.units y.units

def div (x y : Binary p) : Binary p := (firstNaN x y).getD (divNumbers x y)

/-- What is left of `x` after taking `y` away as often as it goes toward zero; it has the sign
of `x`. -/
def remNumbers (x y : Binary p) : Binary p :=
  if x.isInfinite || y.isZero then nan p true
  else if y.isInfinite then x
  else ofUnits p x.negative (x.units % y.units) 1

def rem (x y : Binary p) : Binary p := (firstNaN x y).getD (remNumbers x y)

end BatchFlow.Binary

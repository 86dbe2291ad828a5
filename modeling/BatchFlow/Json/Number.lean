import BatchFlow.Json.Basic
import BatchFlow.Number.Arithmetic
import BatchFlow.Number.Reading

/-!
Numbers of JSON text. A whole number of 64 bits is kept exactly. Any other is a double: the digits
are gathered into a significand of at most 64 bits, and the double nearest to it is scaled by
powers of ten of at most 308 places, each step rounded. A number beyond the doubles is refused.
-/
namespace BatchFlow.Json

structure NumberText where
  negative : Bool
  whole : List Char
  fraction : Option (List Char)
  exponent : Option Int

/-- A nonempty row of digits that starts with a zero only if it is that zero. -/
def isWhole : List Char → Bool
  | [] => false
  | c :: cs => (c :: cs).all Char.isDigit && (c ≠ '0' || cs.isEmpty)

/-- Extends `n` by digits while it stays below `2 ^ 64`; also the digits that found no room. -/
def gather (n : Nat) : List Char → Nat × List Char
  | [] => (n, [])
  | c :: cs =>
    let m := Reading.extend n [c]
    if m < 0x10000000000000000 then gather m cs else (n, c :: cs)

def stepPlaces : Nat := 308

def powerOfTen (places : Nat) : Binary .double := .ofInt .double (Nat.pow 10 places)

/-- Moves the point right; `none` if the number then is beyond every double. -/
def scaleUp? (x : Binary .double) (places : Nat) : Option (Binary .double) :=
  if x.isZero then some x
  else if places ≤ stepPlaces then
    let y := x.mul (powerOfTen places)
    if y.isFinite then some y else none
  else none

/-- Moves the point left by whole steps first. Three of them leave nothing of 64 bits. -/
def scaleDown (x : Binary .double) (places : Nat) : Binary .double :=
  let steps := (places - 1) / stepPlaces
  let y := Nat.repeat (·.div (powerOfTen stepPlaces)) (min steps 3) x
  y.div (powerOfTen (places - steps * stepPlaces))

namespace NumberText

def ofChars? (cs : List Char) : Option NumberText := do
  let (negative, cs) := match cs with
    | '-' :: cs => (true, cs)
    | _ => (false, cs)
  let (whole, rest) := cs.span Char.isDigit
  let (fraction, rest) := match rest with
    | '.' :: rest => (some (rest.takeWhile Char.isDigit), rest.dropWhile Char.isDigit)
    | _ => (none, rest)
  let exponent ← if rest.isEmpty then some none else (Reading.exponent? rest).map some
  if isWhole whole ∧ fraction ≠ some [] then some ⟨negative, whole, fraction, exponent⟩ else none

/-- The number where it is written without point and exponent and has 64 bits. Minus zero is left
to the doubles. -/
def integer? (t : NumberText) : Option Int :=
  let n := Reading.extend 0 t.whole
  let z : Int := if t.negative then -n else n
  if t.fraction.isNone ∧ t.exponent.isNone ∧ Exact z ∧ ¬ (t.negative ∧ n = 0) then some z else none

/-- The significand and the exponent of its last digit. A digit of the whole part that finds no
room counts as a place; one of the fraction, and all that follow it, count for nothing. -/
def scientific (t : NumberText) : Nat × Int :=
  let (n, places) := gather 0 t.whole
  let fraction := t.fraction.getD []
  let (n, dropped) := gather n fraction
  (n, t.exponent.getD 0 + places.length - (fraction.length - dropped.length))

def double? (t : NumberText) : Option (Binary .double) :=
  let (n, e) := t.scientific
  let x := Binary.ofInt .double n
  (if 0 ≤ e then scaleUp? x e.toNat else some (scaleDown x (-e).toNat)).map fun y =>
    if t.negative then y.negate else y

end NumberText

def number? (cs : List Char) : Option Json := do
  let t ← NumberText.ofChars? cs
  match t.integer? with
  | some n => some (integer n)
  | none => t.double?.map real

end BatchFlow.Json

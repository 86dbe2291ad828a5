import BatchFlow.Number.Binary
import BatchFlow.Number.Whole

/-!
Rounding an exact ratio to the nearest floating-point number, ties to the even pattern, and the
conversions that are one such rounding.
-/
namespace BatchFlow

/-- The whole number nearest to `n / d`, of two the even one. -/
def roundHalfEven (n d : Nat) : Nat :=
  if d < 2 * (n % d) ∨ d = 2 * (n % d) ∧ n / d % 2 = 1 then n / d + 1 else n / d

/-- The pattern nearest to `n / d` least positive numbers. The significand keeps one bit more than
the fraction field; rounding it up to the next power of two gives the next binade's pattern. -/
def Precision.nearest (p : Precision) (n d : Nat) : Nat :=
  let shift := (n / d).log2 - p.fractionBits
  min (shift * Nat.pow 2 p.fractionBits + roundHalfEven n (d * Nat.pow 2 shift)) p.infinity

namespace Binary

variable {p : Precision}

def ofUnits (p : Precision) (negative : Bool) (n d : Nat) : Binary p :=
  ⟨negative, p.nearest n d, .inl (Nat.min_le_right _ _)⟩

def ofRatio (p : Precision) (negative : Bool) (n d : Nat) : Binary p :=
  ofUnits p negative (n * Nat.pow 2 p.depth) d

def ofInt (p : Precision) (n : Int) : Binary p := ofRatio p (decide (n < 0)) n.natAbs 1

/-- The number nearest to `x` in another format. What is not a number keeps its sign and the
leading bits of its payload. -/
def convert (q : Precision) (x : Binary p) : Binary q :=
  if x.isNaN then
    let payload := (x.magnitude - p.infinity) * Nat.pow 2 q.fractionBits / Nat.pow 2 p.fractionBits
    if h : q.Pattern (q.infinity + payload) then ⟨x.negative, q.infinity + payload, h⟩
    else nan q x.negative
  else if x.isInfinite then infinity q x.negative
  else ofRatio q x.negative x.units (Nat.pow 2 p.depth)

/-- The whole part, toward zero; beyond every finite number for an infinity. -/
def truncate (x : Binary p) : Int :=
  let whole : Int := (x.units / Nat.pow 2 p.depth : Nat)
  if x.negative then -whole else whole

def toDouble : {p : Precision} → Binary p → Binary .double
  | .single, x => x.convert .double
  | .double, x => x

/-- The whole part at the given width, or its nearest bound; zero for what is not a number. -/
def toWhole (w : IntWidth) (x : Binary p) : Whole w :=
  if x.isNaN then Whole.saturate w 0 else Whole.saturate w x.truncate

def toCount (x : Binary p) : Nat := if x.isNaN then 0 else min 0xFFFFFFFFFFFFFFFF x.truncate.toNat

end Binary
end BatchFlow

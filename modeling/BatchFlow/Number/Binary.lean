/-!
Binary floating-point numbers of single and double precision. A number is its sign and its
magnitude pattern (exponent field above fraction field), so magnitudes compare as their patterns
do. Finite magnitudes are whole multiples of the least positive one: `Precision.units` counts
them, and all exact arithmetic is done on these counts.
-/
namespace BatchFlow

inductive Precision where
  | single
  | double
  deriving DecidableEq, Repr

namespace Precision

def fractionBits : Precision → Nat
  | single => 23
  | double => 52

def exponentBits : Precision → Nat
  | single => 8
  | double => 11

def magnitudeBits (p : Precision) : Nat := p.exponentBits + p.fractionBits

/-- The least positive number is `2 ^ -depth`. -/
def depth : Precision → Nat
  | single => 149
  | double => 1074

/-- The pattern of infinity; greater patterns are not numbers. -/
def infinity (p : Precision) : Nat := (Nat.pow 2 p.exponentBits - 1) * Nat.pow 2 p.fractionBits

def quiet (p : Precision) : Nat := p.infinity + Nat.pow 2 (p.fractionBits - 1)

/-- The count of least positive numbers in the magnitude of pattern `m`. -/
def units (p : Precision) (m : Nat) : Nat :=
  let span := Nat.pow 2 p.fractionBits
  if m / span = 0 then m else (span + m % span) * Nat.pow 2 (m / span - 1)

/-- Patterns of magnitudes, of infinity, and of quiet values that are not numbers. -/
def Pattern (p : Precision) (m : Nat) : Prop :=
  m ≤ p.infinity ∨ p.quiet ≤ m ∧ m < Nat.pow 2 p.magnitudeBits

instance (p : Precision) (m : Nat) : Decidable (p.Pattern m) :=
  inferInstanceAs (Decidable (_ ∨ _))

theorem infinity_pattern (p : Precision) : p.Pattern p.infinity := .inl (Nat.le_refl _)
theorem quiet_pattern (p : Precision) : p.Pattern p.quiet := by cases p <;> decide
theorem zero_pattern (p : Precision) : p.Pattern 0 := .inl (Nat.zero_le _)

end Precision

/-- A floating-point number: its sign and the pattern of its magnitude. -/
structure Binary (p : Precision) where
  negative : Bool
  magnitude : Nat
  isPattern : p.Pattern magnitude
  deriving DecidableEq

namespace Binary

variable {p : Precision}

theorem ext_fields {x y : Binary p} (s : x.negative = y.negative)
    (m : x.magnitude = y.magnitude) : x = y := by
  cases x; cases y; cases s; cases m; rfl

/-- Reads the interchange form. A value that is not a number is made quiet. -/
def ofBits (p : Precision) (bits : Nat) : Binary p :=
  let negative := bits / Nat.pow 2 p.magnitudeBits % 2 = 1
  let m := bits % Nat.pow 2 p.magnitudeBits
  if h : m ≤ p.infinity then ⟨negative, m, .inl h⟩
  else if q : p.quiet ≤ m then ⟨negative, m, .inr ⟨q, Nat.mod_lt _ (Nat.two_pow_pos _)⟩⟩
  else ⟨negative, m + Nat.pow 2 (p.fractionBits - 1), .inr (by
    have hm : m < p.quiet := by omega
    have hi : p.infinity < m := by omega
    cases p <;>
      simp only [Precision.quiet, Precision.infinity, Precision.magnitudeBits,
        Precision.exponentBits, Precision.fractionBits, Nat.pow_eq] at * <;> omega)⟩

def toBits (x : Binary p) : Nat :=
  (if x.negative then Nat.pow 2 p.magnitudeBits else 0) + x.magnitude

def isNaN (x : Binary p) : Bool := p.infinity < x.magnitude
def isInfinite (x : Binary p) : Bool := x.magnitude = p.infinity
def isFinite (x : Binary p) : Bool := x.magnitude < p.infinity

def isZero (x : Binary p) : Bool := x.magnitude = 0

def units (x : Binary p) : Nat := p.units x.magnitude

def signedUnits (x : Binary p) : Int := if x.negative then -(x.units : Int) else x.units

def zero (p : Precision) (negative : Bool) : Binary p := ⟨negative, 0, p.zero_pattern⟩
def infinity (p : Precision) (negative : Bool) : Binary p :=
  ⟨negative, p.infinity, p.infinity_pattern⟩

def nan (p : Precision) (negative : Bool) : Binary p := ⟨negative, p.quiet, p.quiet_pattern⟩

def negate (x : Binary p) : Binary p := { x with negative := !x.negative }

/-- Position in the total order of all patterns: negative values by falling magnitude, then the
others by rising magnitude. The two zeros and all values that are not numbers differ. -/
def orderKey (x : Binary p) : Int :=
  if x.negative then -(x.magnitude : Int) - 1 else x.magnitude

def totalCompare (x y : Binary p) : Ordering := compare x.orderKey y.orderKey

theorem orderKey_inj {x y : Binary p} (h : x.orderKey = y.orderKey) : x = y := by
  unfold orderKey at h
  apply ext_fields <;> cases hx : x.negative <;> cases hy : y.negative <;> simp_all <;> omega

end Binary
end BatchFlow

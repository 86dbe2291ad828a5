import BatchFlow.Number.Rounding
import Mathlib.Algebra.Group.Nat.Defs

/-!
Rounding to the nearest number keeps the order: a larger count never gets a smaller pattern. It is not
one to one, but it keeps apart the whole numbers up to the greatest that the significand counts one by
one.
-/
namespace BatchFlow

theorem roundHalfEven_mono {m n : Nat} (d : Nat) (le : m ≤ n) :
    roundHalfEven m d ≤ roundHalfEven n d := by
  have quotient : m / d ≤ n / d := Nat.div_le_div_right le
  rw [roundHalfEven, roundHalfEven]
  by_cases same : m / d = n / d
  · have hm := Nat.div_add_mod m d
    have hn := Nat.div_add_mod n d
    rw [same] at hm ⊢
    split <;> split <;> omega
  · split <;> split <;> omega

theorem roundHalfEven_le {n d q : Nat} (below : n < q * d) : roundHalfEven n d ≤ q := by
  have quotient : n / d < q := Nat.div_lt_of_lt_mul (by rwa [Nat.mul_comm])
  rw [roundHalfEven]
  split <;> omega

theorem le_roundHalfEven {n d q : Nat} (pos : 0 < d) (reached : q * d ≤ n) :
    q ≤ roundHalfEven n d := by
  have quotient : q ≤ n / d := (Nat.le_div_iff_mul_le pos).mpr reached
  rw [roundHalfEven]
  split <;> omega

theorem roundHalfEven_of_dvd {n d : Nat} (pos : 0 < d) (exact : d ∣ n) :
    roundHalfEven n d = n / d := by
  have none := Nat.mod_eq_zero_of_dvd exact
  rw [roundHalfEven, none, if_neg (by omega)]

namespace Precision

variable {p : Precision} {m n : Nat}

/-- How many of the low bits of a count are rounded off. -/
def shift (p : Precision) (n : Nat) : Nat := n.log2 - p.fractionBits

def rounded (p : Precision) (n : Nat) : Nat :=
  p.shift n * 2 ^ p.fractionBits + roundHalfEven n (2 ^ p.shift n)

theorem nearest_one (p : Precision) (n : Nat) : p.nearest n 1 = min (p.rounded n) p.infinity := by
  simp only [nearest, rounded, shift, Nat.div_one, Nat.one_mul, Nat.pow_eq]

theorem shift_mono (le : m ≤ n) : p.shift m ≤ p.shift n := by
  by_cases zero : m = 0
  · simp [shift, zero]
  · have := (Nat.le_log2 (by omega)).mpr (Nat.le_trans (Nat.log2_self_le zero) le)
    rw [shift, shift]
    omega

/-- What is left of a count has at most one bit more than the fraction field. -/
theorem lt_of_shift (p : Precision) (n : Nat) :
    n < 2 ^ (p.fractionBits + 1) * 2 ^ p.shift n := by
  have top : n < 2 ^ (n.log2 + 1) := Nat.lt_log2_self
  rw [← Nat.pow_add]
  exact Nat.lt_of_lt_of_le top (Nat.pow_le_pow_right (by decide) (by rw [shift]; omega))

/-- If bits are rounded off, what is left has exactly one bit more. -/
theorem le_of_shift (off : 0 < p.shift n) : 2 ^ p.fractionBits * 2 ^ p.shift n ≤ n := by
  rw [shift] at off
  have some : n ≠ 0 := by
    rintro rfl
    simp at off
  rw [← Nat.pow_add, shift, Nat.add_sub_cancel' (by omega)]
  exact Nat.log2_self_le some

theorem rounded_le (p : Precision) (n : Nat) :
    p.rounded n ≤ p.shift n * 2 ^ p.fractionBits + 2 ^ (p.fractionBits + 1) :=
  Nat.add_le_add_left (roundHalfEven_le (p.lt_of_shift n)) _

/-- A larger count never gets a smaller pattern. With as many bits rounded off the counts left are in
order; with more of them the pattern is in a later binade. -/
theorem rounded_mono (p : Precision) (le : m ≤ n) : p.rounded m ≤ p.rounded n := by
  by_cases same : p.shift m = p.shift n
  · rw [rounded, rounded, same]
    exact Nat.add_le_add_left (roundHalfEven_mono _ le) _
  · have later : p.shift m + 1 ≤ p.shift n := Nat.lt_of_le_of_ne (shift_mono le) same
    have full : 2 ^ p.fractionBits ≤ roundHalfEven n (2 ^ p.shift n) :=
      le_roundHalfEven (Nat.two_pow_pos _) (le_of_shift (by omega))
    calc p.rounded m
      _ ≤ p.shift m * 2 ^ p.fractionBits + 2 ^ (p.fractionBits + 1) := p.rounded_le m
      _ = (p.shift m + 1) * 2 ^ p.fractionBits + 2 ^ p.fractionBits := by
        rw [Nat.pow_succ, Nat.succ_mul]
        omega
      _ ≤ p.shift n * 2 ^ p.fractionBits + roundHalfEven n (2 ^ p.shift n) :=
        Nat.add_le_add (Nat.mul_le_mul_right _ later) full

theorem nearest_mono (p : Precision) (le : m ≤ n) : p.nearest m 1 ≤ p.nearest n 1 := by
  have := p.rounded_mono le
  rw [nearest_one, nearest_one]
  omega

/-- The count of a pattern by its significand. In the lowest binade the significand may be of any
size; in the others its top bit is set. -/
theorem units_significand {s q : Nat} (below : q < 2 ^ (p.fractionBits + 1))
    (full : s = 0 ∨ 2 ^ p.fractionBits ≤ q) :
    p.units (s * 2 ^ p.fractionBits + q) = q * 2 ^ s := by
  have pos : 0 < 2 ^ p.fractionBits := Nat.two_pow_pos _
  rw [Nat.pow_succ] at below
  simp only [units, Nat.pow_eq]
  generalize 2 ^ p.fractionBits = span at *
  by_cases small : q < span
  · obtain rfl : s = 0 := full.resolve_right (Nat.not_le.mpr small)
    rw [Nat.zero_mul, Nat.zero_add, Nat.div_eq_of_lt small, if_pos rfl, Nat.pow_zero, Nat.mul_one]
  · obtain ⟨rest, rfl⟩ := Nat.exists_eq_add_of_le (Nat.not_lt.mp small)
    have less : rest < span := by omega
    have together : s * span + (span + rest) = rest + span * (s + 1) := by
      rw [Nat.mul_succ, Nat.mul_comm]
      omega
    rw [together, Nat.add_mul_div_left _ _ pos, Nat.add_mul_mod_self_left, Nat.div_eq_of_lt less,
      Nat.mod_eq_of_lt less, Nat.zero_add, if_neg (Nat.succ_ne_zero s), Nat.add_sub_cancel]

/-- A count whose low bits are all zero is read back from its pattern. -/
theorem units_rounded (exact : 2 ^ p.shift n ∣ n) : p.units (p.rounded n) = n := by
  have pos : 0 < 2 ^ p.shift n := Nat.two_pow_pos _
  have below : n / 2 ^ p.shift n < 2 ^ (p.fractionBits + 1) :=
    Nat.div_lt_of_lt_mul (by rw [Nat.mul_comm]; exact p.lt_of_shift n)
  have full : p.shift n = 0 ∨ 2 ^ p.fractionBits ≤ n / 2 ^ p.shift n := by
    rcases Nat.eq_zero_or_pos (p.shift n) with none | off
    · exact .inl none
    · exact .inr ((Nat.le_div_iff_mul_le pos).mpr (le_of_shift off))
  rw [rounded, roundHalfEven_of_dvd pos exact, units_significand below full,
    Nat.div_mul_cancel exact]

/-- Whole numbers up to the greatest that the significand counts one by one have zero bits only where
bits are rounded off. -/
theorem shift_dvd (counted : n ≤ 2 ^ (p.fractionBits + 1)) :
    2 ^ p.shift (n * 2 ^ p.depth) ∣ n * 2 ^ p.depth := by
  rcases Nat.eq_zero_or_pos n with rfl | pos
  · rw [Nat.zero_mul]
    exact Nat.dvd_zero _
  · rcases Nat.lt_or_eq_of_le counted with less | rfl
    · have some : n * 2 ^ p.depth ≠ 0 := Nat.ne_of_gt (Nat.mul_pos pos (Nat.two_pow_pos _))
      have top : (n * 2 ^ p.depth).log2 < p.fractionBits + 1 + p.depth := by
        rw [Nat.log2_lt some, Nat.pow_add]
        exact Nat.mul_lt_mul_of_pos_right less (Nat.two_pow_pos _)
      exact Nat.dvd_mul_left_of_dvd (Nat.pow_dvd_pow 2 (by rw [shift]; omega)) _
    · rw [← Nat.pow_add, shift, Nat.log2_two_pow]
      exact Nat.pow_dvd_pow 2 (by omega)

theorem rounded_le_infinity (counted : n ≤ 2 ^ (p.fractionBits + 1)) :
    p.rounded (n * 2 ^ p.depth) ≤ p.infinity := by
  have range : p.depth + 3 ≤ 2 ^ p.exponentBits - 1 := by cases p <;> decide
  have most : p.shift (2 ^ (p.fractionBits + 1) * 2 ^ p.depth) = p.depth + 1 := by
    rw [← Nat.pow_add, shift, Nat.log2_two_pow]
    omega
  calc p.rounded (n * 2 ^ p.depth)
    _ ≤ p.rounded (2 ^ (p.fractionBits + 1) * 2 ^ p.depth) :=
      p.rounded_mono (Nat.mul_le_mul_right _ counted)
    _ ≤ (p.depth + 1) * 2 ^ p.fractionBits + 2 ^ (p.fractionBits + 1) := most ▸ p.rounded_le _
    _ = (p.depth + 3) * 2 ^ p.fractionBits := by
      rw [Nat.pow_succ, Nat.add_mul, Nat.add_mul]
      omega
    _ ≤ p.infinity := Nat.mul_le_mul_right _ range

theorem units_nearest (counted : n ≤ 2 ^ (p.fractionBits + 1)) :
    p.units (p.nearest (n * 2 ^ p.depth) 1) = n * 2 ^ p.depth := by
  rw [nearest_one, Nat.min_eq_left (rounded_le_infinity counted), units_rounded (shift_dvd counted)]

theorem nearest_eq_zero : p.nearest (n * 2 ^ p.depth) 1 = 0 ↔ n = 0 := by
  rcases Nat.eq_zero_or_pos n with rfl | pos
  · simp [nearest_one, rounded, shift, roundHalfEven]
  · have one : p.units (p.nearest (1 * 2 ^ p.depth) 1) = 1 * 2 ^ p.depth :=
      units_nearest Nat.one_le_two_pow
    have least : p.nearest (1 * 2 ^ p.depth) 1 ≤ p.nearest (n * 2 ^ p.depth) 1 :=
      p.nearest_mono (Nat.mul_le_mul_right _ pos)
    refine iff_of_false (fun zero => ?_) (Nat.ne_of_gt pos)
    rw [zero] at least
    rw [Nat.le_zero.mp least, Nat.one_mul] at one
    have none : p.units 0 = 0 := by simp [units]
    exact Nat.ne_of_lt (Nat.two_pow_pos _) (none.symm.trans one)

end Precision

namespace Binary

variable {p : Precision} {m n : Int}

theorem orderKey_ofInt (p : Precision) (n : Int) : (ofInt p n).orderKey =
    if n < 0 then -(p.nearest (n.natAbs * 2 ^ p.depth) 1 : Int) - 1
    else p.nearest (n.natAbs * 2 ^ p.depth) 1 := by
  simp [orderKey, ofInt, ofRatio, ofUnits]

/-- A larger whole number never comes earlier. -/
theorem orderKey_ofInt_mono (p : Precision) (le : m ≤ n) :
    (ofInt p m).orderKey ≤ (ofInt p n).orderKey := by
  have magnitudes {a b : Nat} (le : a ≤ b) :
      p.nearest (a * 2 ^ p.depth) 1 ≤ p.nearest (b * 2 ^ p.depth) 1 :=
    p.nearest_mono (Nat.mul_le_mul_right _ le)
  rw [orderKey_ofInt, orderKey_ofInt]
  by_cases negative : n < 0
  · rw [if_pos negative, if_pos (by omega)]
    have := magnitudes (a := n.natAbs) (b := m.natAbs) (by omega)
    omega
  · rw [if_neg negative]
    split
    · omega
    · have := magnitudes (a := m.natAbs) (b := n.natAbs) (by omega)
      omega

/-- Of two whole numbers that are the same number here, one is beyond what the significand counts. -/
theorem lt_natAbs_of_ofInt_eq (same : ofInt p m = ofInt p n) (differ : m ≠ n) :
    2 ^ (p.fractionBits + 1) < m.natAbs ∨ 2 ^ (p.fractionBits + 1) < n.natAbs := by
  by_cases counted : m.natAbs ≤ 2 ^ (p.fractionBits + 1) ∧ n.natAbs ≤ 2 ^ (p.fractionBits + 1)
  · have magnitude : p.nearest (m.natAbs * 2 ^ p.depth) 1 = p.nearest (n.natAbs * 2 ^ p.depth) 1 :=
      congrArg Binary.magnitude same
    have sign : (decide (m < 0)) = decide (n < 0) := congrArg Binary.negative same
    have units := congrArg p.units magnitude
    rw [Precision.units_nearest counted.1, Precision.units_nearest counted.2] at units
    have size := Nat.eq_of_mul_eq_mul_right (Nat.two_pow_pos _) units
    rw [decide_eq_decide] at sign
    omega
  · omega

theorem isZero_ofInt : (ofInt p n).isZero = true ↔ n = 0 := by
  have magnitude : (ofInt p n).magnitude = p.nearest (n.natAbs * 2 ^ p.depth) 1 := rfl
  rw [isZero, decide_eq_true_eq, magnitude, Precision.nearest_eq_zero, Int.natAbs_eq_zero]

end Binary
end BatchFlow

import BatchFlow.Proofs.Number.Rounding

/-!
Numbers of single precision at double precision. A pattern is the nearest one to its own count, and
the count of a single precision number, taken in the finer units of double precision, has no low bits
that are rounded off. So widening is exact, and narrowing brings back the number that was widened,
the payload of what is not a number included.
-/
namespace BatchFlow

/-- A ratio is rounded by its value, whatever its terms are. -/
theorem roundHalfEven_mul (n d : Nat) {c : Nat} (pos : 0 < c) :
    roundHalfEven (n * c) (d * c) = roundHalfEven n d := by
  have quotient : n * c / (d * c) = n / d := Nat.mul_div_mul_right n d pos
  have rest : 2 * (n * c % (d * c)) = 2 * (n % d) * c := by
    rw [Nat.mul_mod_mul_right, Nat.mul_assoc]
  simp only [roundHalfEven, quotient, rest, Nat.mul_lt_mul_right pos, Nat.mul_right_cancel_iff pos]

namespace Precision

variable {p : Precision} {m n s q : Nat}

theorem nearest_mul (p : Precision) (n : Nat) {d : Nat} (pos : 0 < d) :
    p.nearest (n * d) d = p.nearest n 1 := by
  simp only [nearest, Nat.mul_div_cancel n pos, Nat.div_one, Nat.one_mul, Nat.mul_comm d,
    roundHalfEven_mul _ _ pos]

/-- A pattern is a number of binades and a significand. In every binade but the lowest the top bit of
the significand is set. -/
theorem exists_significand (p : Precision) (m : Nat) :
    ∃ s q, m = s * 2 ^ p.fractionBits + q ∧ q < 2 ^ (p.fractionBits + 1) ∧
      (s = 0 ∨ 2 ^ p.fractionBits ≤ q) := by
  have pos : 0 < 2 ^ p.fractionBits := Nat.two_pow_pos _
  have split := Nat.div_add_mod m (2 ^ p.fractionBits)
  have less := Nat.mod_lt m pos
  rw [Nat.mul_comm] at split
  rw [Nat.pow_succ]
  generalize 2 ^ p.fractionBits = span at *
  cases binade : m / span with
  | zero => exact ⟨0, m % span, by rw [binade] at split; omega, by omega, .inl rfl⟩
  | succ s =>
    rw [binade, Nat.succ_mul] at split
    exact ⟨s, span + m % span, by omega, by omega, .inr (Nat.le_add_right ..)⟩

/-- As many bits are rounded off a count as it has beyond those of a significand. -/
theorem shift_le (below : n < 2 ^ (p.fractionBits + 1 + s)) : p.shift n ≤ s := by
  by_cases zero : n = 0
  · simp [shift, zero]
  · have top := (Nat.log2_lt zero).mpr below
    rw [shift]
    omega

theorem shift_significand (below : q < 2 ^ (p.fractionBits + 1))
    (full : s = 0 ∨ 2 ^ p.fractionBits ≤ q) : p.shift (q * 2 ^ s) = s := by
  apply Nat.le_antisymm
  · apply shift_le
    rw [Nat.pow_add]
    exact Nat.mul_lt_mul_of_pos_right below (Nat.two_pow_pos s)
  · rcases full with rfl | full
    · exact Nat.zero_le _
    · have some : q * 2 ^ s ≠ 0 :=
        Nat.ne_of_gt (Nat.mul_pos (Nat.lt_of_lt_of_le (Nat.two_pow_pos _) full) (Nat.two_pow_pos s))
      have top : p.fractionBits + s ≤ (q * 2 ^ s).log2 := by
        rw [Nat.le_log2 some, Nat.pow_add]
        exact Nat.mul_le_mul_right _ full
      rw [shift]
      omega

/-- The nearest pattern to the count of a pattern is that pattern. -/
theorem rounded_units (p : Precision) (m : Nat) : p.rounded (p.units m) = m := by
  obtain ⟨s, q, rfl, below, full⟩ := p.exists_significand m
  have pos : 0 < 2 ^ s := Nat.two_pow_pos s
  rw [units_significand below full, rounded, shift_significand below full,
    roundHalfEven_of_dvd pos (Nat.dvd_mul_left ..), Nat.mul_div_cancel q pos]

/-- Double precision counts this many of its least positive numbers in one of single precision. -/
def finer : Nat := 2 ^ (double.depth - single.depth)

theorem finer_mul : finer * 2 ^ single.depth = 2 ^ double.depth := by
  have depths : double.depth - single.depth + single.depth = double.depth := by decide
  rw [finer, ← Nat.pow_add, depths]

/-- The pattern at double precision of a finite number of single precision is finite, and its count is
exact: the count has a significand of single precision, which leaves 29 low bits for zeros. -/
theorem units_widened (finite : m < single.infinity) :
    double.rounded (single.units m * finer) < double.infinity ∧
      double.units (double.rounded (single.units m * finer)) = single.units m * finer := by
  obtain ⟨s, q, rfl, below, full⟩ := single.exists_significand m
  have binades : s < 254 := by
    simp only [infinity, exponentBits, fractionBits, Nat.pow_eq] at finite full
    omega
  obtain ⟨e, exponent⟩ : ∃ e, e = s + (double.depth - single.depth) := ⟨_, rfl⟩
  have count : single.units (s * 2 ^ single.fractionBits + q) * finer = q * 2 ^ e := by
    rw [units_significand below full, finer, Nat.mul_assoc, ← Nat.pow_add, exponent]
  have size : 29 ≤ e ∧ e < 1179 := by
    simp only [depth] at exponent
    omega
  have bits : single.fractionBits + 1 + e = double.fractionBits + 1 + (e - 29) := by
    simp only [fractionBits]
    omega
  have few : double.shift (q * 2 ^ e) ≤ e - 29 := by
    apply shift_le
    rw [← bits, Nat.pow_add]
    exact Nat.mul_lt_mul_of_pos_right below (Nat.two_pow_pos e)
  have exact : 2 ^ double.shift (q * 2 ^ e) ∣ q * 2 ^ e :=
    Nat.dvd_mul_left_of_dvd (Nat.pow_dvd_pow 2 (by omega)) q
  rw [count]
  refine ⟨?_, units_rounded exact⟩
  calc double.rounded (q * 2 ^ e)
    _ ≤ double.shift (q * 2 ^ e) * 2 ^ double.fractionBits + 2 ^ (double.fractionBits + 1) :=
      double.rounded_le _
    _ ≤ 1150 * 2 ^ double.fractionBits + 2 ^ (double.fractionBits + 1) :=
      Nat.add_le_add_right (Nat.mul_le_mul_right _ (by omega)) _
    _ < double.infinity := by decide

end Precision

namespace Binary

section

variable {p q : Precision} {x : Binary p}

theorem negative_convert (x : Binary p) : (x.convert q).negative = x.negative := by
  rw [convert]
  split
  · simp only
    split <;> rfl
  · split <;> rfl

/-- What is not a number keeps its payload where the other format has room for it. -/
theorem magnitude_convert_nan {payload : Nat} (other : p.infinity < x.magnitude)
    (kept : (x.magnitude - p.infinity) * 2 ^ q.fractionBits / 2 ^ p.fractionBits = payload)
    (pattern : q.Pattern (q.infinity + payload)) :
    (x.convert q).magnitude = q.infinity + payload := by
  subst kept
  have nan : x.isNaN = true := decide_eq_true other
  rw [convert, if_pos nan]
  exact congrArg Binary.magnitude (dif_pos pattern)

theorem magnitude_convert_infinite (infinite : x.magnitude = p.infinity) :
    (x.convert q).magnitude = q.infinity := by
  simp [convert, isNaN, isInfinite, infinite, infinity]

theorem magnitude_convert_finite (finite : x.magnitude < p.infinity) :
    (x.convert q).magnitude = q.nearest (p.units x.magnitude * 2 ^ q.depth) (2 ^ p.depth) := by
  have rounded : x.convert q = ofRatio q x.negative x.units (2 ^ p.depth) := by
    simp [convert, isNaN, isInfinite, Nat.not_lt.mpr (Nat.le_of_lt finite), Nat.ne_of_lt finite]
  rw [rounded]
  rfl

end

variable {x : Binary .single}

theorem narrowed_nan (other : Precision.single.infinity < x.magnitude) :
    ((x.convert .double).convert .single).magnitude = x.magnitude := by
  obtain ⟨quiet, top⟩ := x.isPattern.resolve_left (Nat.not_le.mpr other)
  obtain ⟨payload, magnitude⟩ := Nat.exists_eq_add_of_le (Nat.le_of_lt other)
  have pattern : Precision.double.Pattern (Precision.double.infinity + payload * 2 ^ 29) := by
    refine .inr ?_
    simp only [Precision.quiet, Precision.infinity, Precision.magnitudeBits,
      Precision.exponentBits, Precision.fractionBits, Nat.pow_eq] at *
    omega
  have wide : (x.convert .double).magnitude = Precision.double.infinity + payload * 2 ^ 29 := by
    refine magnitude_convert_nan other ?_ pattern
    rw [magnitude, Nat.add_sub_cancel_left]
    simp only [Precision.fractionBits]
    omega
  have still : Precision.double.infinity < (x.convert .double).magnitude := by omega
  rw [magnitude]
  refine magnitude_convert_nan still ?_ (magnitude ▸ x.isPattern)
  rw [wide, Nat.add_sub_cancel_left]
  simp only [Precision.fractionBits]
  omega

theorem narrowed_infinite (infinite : x.magnitude = Precision.single.infinity) :
    ((x.convert .double).convert .single).magnitude = x.magnitude := by
  rw [magnitude_convert_infinite (magnitude_convert_infinite infinite), infinite]

/-- The count is exact at double precision, and at single precision its nearest pattern is the one that
it was the count of. -/
theorem narrowed_finite (finite : x.magnitude < Precision.single.infinity) :
    ((x.convert .double).convert .single).magnitude = x.magnitude := by
  obtain ⟨bounded, exact⟩ := Precision.units_widened finite
  have wide : (x.convert .double).magnitude =
      Precision.double.rounded (Precision.single.units x.magnitude * Precision.finer) := by
    rw [magnitude_convert_finite finite, ← Precision.finer_mul, ← Nat.mul_assoc,
      Precision.nearest_mul _ _ (Nat.two_pow_pos _), Precision.nearest_one]
    exact Nat.min_eq_left (Nat.le_of_lt bounded)
  rw [magnitude_convert_finite (wide ▸ bounded), wide, exact, Nat.mul_assoc, Precision.finer_mul,
    Precision.nearest_mul _ _ (Nat.two_pow_pos _), Precision.nearest_one, Precision.rounded_units]
  exact Nat.min_eq_left (Nat.le_of_lt finite)

/-- A number of single precision is brought back from double precision. -/
theorem convert_toDouble (x : Binary .single) : x.toDouble.convert .single = x := by
  have magnitude : (x.toDouble.convert .single).magnitude = x.magnitude := by
    rcases Nat.lt_trichotomy x.magnitude Precision.single.infinity with finite | infinite | other
    · exact narrowed_finite finite
    · exact narrowed_infinite infinite
    · exact narrowed_nan other
  have sign : (x.toDouble.convert .single).negative = x.negative :=
    (negative_convert _).trans (negative_convert x)
  exact ext_fields sign magnitude

end Binary
end BatchFlow

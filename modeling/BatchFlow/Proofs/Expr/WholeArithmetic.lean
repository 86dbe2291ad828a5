import BatchFlow.Proofs.Expr.Typing
import BatchFlow.Proofs.Number.Rounding

/-!
Arithmetic on whole numbers. The operands may be of any widths; the result is exact and has 64 bits,
or is refused. A remainder is refused together with its quotient, so there is one that 64 bits would
hold and that is refused all the same: that of the least number by `-1`.
-/
namespace BatchFlow.ArithmeticOp

/-- The exact result on whole numbers. The quotient goes toward zero, and the remainder has the sign of
the dividend. -/
def exact (op : ArithmeticOp) (m n : Int) : Int :=
  match op with
  | plus => m + n
  | minus => m - n
  | times => m * n
  | divide => m.tdiv n
  | modulo => m.tmod n

def IsLeastRemainder (op : ArithmeticOp) (m n : Int) : Prop :=
  op = modulo ∧ m = -IntWidth.big.bound ∧ n = -1

instance (op : ArithmeticOp) (m n : Int) : Decidable (op.IsLeastRemainder m n) :=
  inferInstanceAs (Decidable (_ ∧ _))

variable {op : ArithmeticOp} {v w : IntWidth} {m n : Int}

/-- A quotient is no greater than its dividend, so 64 bits hold it, unless it is the negative of the
least number. -/
theorem holds_tdiv (inRange : IntWidth.big.Holds m) :
    IntWidth.big.Holds (m.tdiv n) ↔ ¬(m = -IntWidth.big.bound ∧ n = -1) := by
  simp only [IntWidth.Holds, IntWidth.bound] at *
  by_cases minus : n = -1
  · subst minus
    rw [Int.tdiv_neg, Int.tdiv_one]
    omega
  · by_cases one : n = 1
    · subst one
      rw [Int.tdiv_one]
      omega
    · have size : (m.tdiv n).natAbs = m.natAbs / n.natAbs := Int.natAbs_tdiv m n
      have half : m.natAbs / n.natAbs ≤ m.natAbs / 2 := by
        rcases Nat.eq_zero_or_pos n.natAbs with zero | pos
        · rw [zero, Nat.div_zero]
          exact Nat.zero_le _
        · exact Nat.div_le_div_left (by omega) (by decide)
      omega

/-- The result is the exact one wherever 64 bits hold that and, for a remainder, the quotient. -/
theorem onWhole?_eq_some (inRange : IntWidth.big.Holds m) {r : Whole .big} :
    op.onWhole? m n = some r ↔ r.toInt = op.exact m n ∧ ¬op.IsLeastRemainder m n := by
  cases op with
  | modulo =>
    have quotient : (∃ q, Whole.ofInt? .big (m.tdiv n) = some q) ↔
        ¬IsLeastRemainder modulo m n := by
      rw [← Option.isSome_iff_exists, Option.isSome_iff_ne_none, Ne, Whole.ofInt?_eq_none,
        Decidable.not_not, holds_tdiv inRange]
      simp [IsLeastRemainder]
    rw [onWhole?, Option.bind_eq_some_iff, exists_and_right, quotient, Whole.ofInt?_eq_some, exact,
      and_comm]
  | plus | minus | times | divide =>
    simp [onWhole?, Whole.ofInt?_eq_some, exact, IsLeastRemainder]

theorem onWhole?_eq_none (inRange : IntWidth.big.Holds m) :
    op.onWhole? m n = none ↔ ¬(IntWidth.big.Holds (op.exact m n) ∧ ¬op.IsLeastRemainder m n) := by
  rw [Option.eq_none_iff_forall_ne_some]
  constructor
  · rintro refused ⟨holds, least⟩
    exact refused ⟨_, holds⟩ ((onWhole?_eq_some inRange).mpr ⟨rfl, least⟩)
  · intro unheld r result
    obtain ⟨same, least⟩ := (onWhole?_eq_some inRange).mp result
    exact unheld ⟨same ▸ r.inRange, least⟩

theorem isZero_integer (n : Whole w) : isZero (.integer w n) = true ↔ n.toInt = 0 :=
  Binary.isZero_ofInt

/-- What arithmetic on two whole numbers answers. -/
theorem apply_integers (op : ArithmeticOp) (m : Whole v) (n : Whole w) :
    BinaryOp.apply (.arithmetic op) (.integer v m) (.integer w n) =
      if op.divides = true ∧ n.toInt = 0 then .error .divisionByZero
      else match op.onWhole? m.toInt n.toInt with
        | some r => .ok (.integer .big r)
        | none => .error (.overflow m.toInt op n.toInt) := by
  cases come : op.onWhole? m.toInt n.toInt <;>
    simp [BinaryOp.apply, Value.isNull, apply, Value.isFloating, isZero_integer, come]

/-- Arithmetic on two whole numbers is refused for a zero on the right exactly if it divides. Otherwise
it comes to the exact result, exactly if 64 bits hold it, and is refused as too large exactly if they
do not; except that the remainder of the least number by `-1` is refused like the quotient. -/
theorem exact_or_refused (op : ArithmeticOp) (m : Whole v) (n : Whole w) :
    let answer := BinaryOp.apply (.arithmetic op) (.integer v m) (.integer w n)
    (answer = .error .divisionByZero ↔ op.divides = true ∧ n.toInt = 0) ∧
      (¬(op.divides = true ∧ n.toInt = 0) →
        ((∃ r : Whole .big, answer = .ok (.integer .big r) ∧ r.toInt = op.exact m.toInt n.toInt) ↔
          IntWidth.big.Holds (op.exact m.toInt n.toInt) ∧ ¬op.IsLeastRemainder m.toInt n.toInt) ∧
        (answer = .error (.overflow m.toInt op n.toInt) ↔
          ¬(IntWidth.big.Holds (op.exact m.toInt n.toInt) ∧
            ¬op.IsLeastRemainder m.toInt n.toInt))) := by
  intro answer
  have answered : answer = _ := apply_integers op m n
  by_cases zero : op.divides = true ∧ n.toInt = 0
  · rw [if_pos zero] at answered
    exact ⟨iff_of_true answered zero, absurd zero⟩
  · rw [if_neg zero] at answered
    cases come : op.onWhole? m.toInt n.toInt with
    | some r =>
      rw [come] at answered
      obtain ⟨same, least⟩ := (onWhole?_eq_some m.inRange.big).mp come
      have held : IntWidth.big.Holds (op.exact m.toInt n.toInt) := same ▸ r.inRange
      refine ⟨iff_of_false (by simp [answered]) zero, fun _ => ⟨?_, ?_⟩⟩
      · exact iff_of_true ⟨r, answered, same⟩ ⟨held, least⟩
      · exact iff_of_false (by simp [answered]) (not_not.mpr ⟨held, least⟩)
    | none =>
      rw [come] at answered
      have unheld := (onWhole?_eq_none m.inRange.big).mp come
      refine ⟨iff_of_false (by simp [answered]) zero, fun _ => ⟨?_, ?_⟩⟩
      · exact iff_of_false (by simp [answered]) unheld
      · exact iff_of_true answered unheld

/-- `-7` is `-3` times `2`, and `-1` is left; the least number by `-1` is too large. -/
theorem quotients_toward_zero :
    let m : Whole .tiny := ⟨-7, by decide⟩
    let n : Whole .big := ⟨2, by decide⟩
    let least : Whole .big := ⟨-0x8000000000000000, by decide⟩
    let minusOne : Whole .tiny := ⟨-1, by decide⟩
    (∃ r : Whole .big, BinaryOp.apply (.arithmetic .modulo) (.integer .tiny m) (.integer .big n) =
        .ok (.integer .big r) ∧ r.toInt = -1) ∧
      BinaryOp.apply (.arithmetic .divide) (.integer .big least) (.integer .tiny minusOne) =
        .error (.overflow (-0x8000000000000000) .divide (-1)) := by
  intro m n least minusOne
  have remainder := (exact_or_refused .modulo m n).2 (by decide)
  have quotient := (exact_or_refused .divide least minusOne).2 (by decide)
  exact ⟨remainder.1.mpr (by decide), quotient.2.mpr (by decide)⟩

/-- 64 bits hold the remainder zero of the least number by `-1`, which is refused as too large. -/
theorem least_remainder_refused :
    ¬∀ (op : ArithmeticOp) (v w : IntWidth) (m : Whole v) (n : Whole w),
      ¬(op.divides = true ∧ n.toInt = 0) → IntWidth.big.Holds (op.exact m.toInt n.toInt) →
        ∃ r : Whole .big,
          BinaryOp.apply (.arithmetic op) (.integer v m) (.integer w n) = .ok (.integer .big r) ∧
            r.toInt = op.exact m.toInt n.toInt := by
  intro exact
  let least : Whole .big := ⟨-0x8000000000000000, by decide⟩
  let minusOne : Whole .tiny := ⟨-1, by decide⟩
  obtain ⟨r, answer, -⟩ := exact .modulo .big .tiny least minusOne (by decide) (by decide)
  have refused : BinaryOp.apply (.arithmetic .modulo) (.integer .big least) (.integer .tiny minusOne) =
      .error (.overflow (-0x8000000000000000) .modulo (-1)) := by decide +kernel
  rw [refused] at answer
  cases answer

end BatchFlow.ArithmeticOp

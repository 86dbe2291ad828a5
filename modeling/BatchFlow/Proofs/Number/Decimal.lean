import BatchFlow.Number.Reading

/-!
Decimal texts of whole numbers. Whatever its sign and its size, a whole number is read back from the
text that is written for it.
-/
namespace BatchFlow.Reading

theorem sign_digit {c : Char} {cs : List Char} (digit : c.isDigit = true) :
    sign (c :: cs) = (false, c :: cs) := by
  rw [sign]
  · rintro _ ⟨⟩
    cases digit
  · rintro _ ⟨⟩
    cases digit

/-- The digits of a number are read as it. -/
theorem natural?_toDigits (n : Nat) : natural? (Nat.toDigits 10 n) = some n := by
  have digits : (Nat.toDigits 10 n).all Char.isDigit = true :=
    List.all_eq_true.mpr fun _ member => Nat.isDigit_of_mem_toDigits (by decide) (by decide) member
  have value : extend 0 (Nat.toDigits 10 n) = n := Nat.ofDigitChars_ten_toDigits
  rw [natural?, if_pos ⟨Nat.toDigits_ne_nil, digits⟩, value]

theorem sign_toDigits (n : Nat) : sign (Nat.toDigits 10 n) = (false, Nat.toDigits 10 n) := by
  cases written : Nat.toDigits 10 n with
  | nil => exact absurd written Nat.toDigits_ne_nil
  | cons c cs =>
    have member : c ∈ Nat.toDigits 10 n := by simp [written]
    exact sign_digit (Nat.isDigit_of_mem_toDigits (by decide) (by decide) member)

theorem integer?_toString (n : Int) : integer? (toString n) = some n := by
  cases n with
  | ofNat n =>
    have written : (toString (Int.ofNat n)).toList = Nat.toDigits 10 n := Nat.toList_repr
    simp only [integer?, written, sign_toDigits, natural?_toDigits]
    rfl
  | negSucc n =>
    have written : (toString (Int.negSucc n)).toList = '-' :: Nat.toDigits 10 (n + 1) := by
      simp [Int.repr]
    simp only [integer?, written, sign, natural?_toDigits]
    rfl

end BatchFlow.Reading

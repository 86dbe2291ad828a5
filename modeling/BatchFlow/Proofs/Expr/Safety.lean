import BatchFlow.Proofs.Expr.Resolution

/-!
Type safety of expressions. A bound expression has a type, every value it comes to is of that type,
and where nothing is cast and arithmetic is done on numbers only, the numbers themselves are all
that can go wrong: a zero to divide by, or a result that 64 bits do not hold.
-/
namespace BatchFlow

namespace Expr

variable {s : Schema} {row : Row} {e b : Expr} {err : EvalError}

/-- Whether no list is written out anywhere. -/
def listFree : Expr → Bool
  | column .. => true
  | literal v => match v with
    | .list _ => false
    | _ => true
  | binary l _ r => l.listFree && r.listFree
  | cast e _ => e.listFree

def castFree : Expr → Bool
  | column .. | literal _ => true
  | binary l _ r => l.castFree && r.castFree
  | cast .. => false

def isNumeric (s : Schema) (e : Expr) : Bool := (e.dataType s).toOption.any DataType.isNumeric

/-- Whether the operands of all arithmetic have numeric types over the schema. -/
def computesOnNumbers (s : Schema) : Expr → Bool
  | column .. | literal _ => true
  | binary l op r => l.computesOnNumbers s && r.computesOnNumbers s &&
    match op with
    | .arithmetic _ => l.isNumeric s && r.isNumeric s
    | _ => true
  | cast e _ => e.computesOnNumbers s

theorem listFree_literal {v : Value} (free : (literal v).listFree = true) (items : List Value) :
    v ≠ .list items := by
  rintro rfl
  cases free

theorem exists_dataType (bound : e.bind s = .ok b) : ∃ t, e.dataType s = .ok t := by
  induction e generalizing b with
  | column name index =>
    obtain ⟨-, f, -, -, typed⟩ := bind_column bound
    exact ⟨f.dataType, typed⟩
  | literal v => exact ⟨v.dataType, rfl⟩
  | binary l op r left right =>
    obtain ⟨l', boundLeft, bound⟩ := bind_eq_ok.mp bound
    obtain ⟨r', boundRight, -⟩ := bind_eq_ok.mp bound
    cases op with
    | arithmetic op =>
      obtain ⟨t, typedLeft⟩ := left boundLeft
      obtain ⟨u, typedRight⟩ := right boundRight
      exact ⟨_, by rw [dataType, typedLeft, typedRight]; rfl⟩
    | comparison op | logic op => exact ⟨.boolean, rfl⟩
  | cast e t => exact ⟨t, rfl⟩

/-- An operand of a numeric type comes to a number, or to NULL. -/
theorem isNumeric_of_eval {v : Value} (admitted : s.Admits row) (numeric : e.isNumeric s = true)
    (bound : e.bind s = .ok b) (value : b.eval row = .ok v) (some : v.isNull = false) :
    v.isNumeric = true := by
  obtain ⟨t, typed, number⟩ := exists_ok_of_any numeric
  rcases eval_fits admitted typed bound value with fit | ⟨items, rfl, -⟩
  · exact Value.isNumeric_of_fits fit some number
  · -- A list that is written out has the type of an array, which is no number.
    obtain rfl := Except.ok.inj typed
    cases number

/-- Without casts, and with arithmetic on numbers only, every failure is one of arithmetic. -/
theorem eval_error (admitted : s.Admits row) (uncast : e.castFree = true)
    (numbers : e.computesOnNumbers s = true) (bound : e.bind s = .ok b)
    (failed : b.eval row = .error err) :
    err = .divisionByZero ∨ ∃ m op n, err = .overflow m op n := by
  induction e generalizing b with
  | column name index =>
    obtain ⟨i, f, rfl, there, -⟩ := bind_column bound
    obtain ⟨v, value⟩ : ∃ v, row[i]? = some v := by
      have inside := (List.getElem?_eq_some_iff.mp there).1
      rw [admitted.length_eq] at inside
      exact ⟨row[i], List.getElem?_eq_getElem inside⟩
    rw [eval_column.mpr value] at failed
    cases failed
  | literal v =>
    obtain rfl := Except.ok.inj bound
    cases failed
  | binary l op r left right =>
    obtain ⟨l', boundLeft, bound⟩ := bind_eq_ok.mp bound
    obtain ⟨r', boundRight, bound⟩ := bind_eq_ok.mp bound
    obtain rfl := pure_eq_ok.mp bound
    obtain ⟨uncastLeft, uncastRight⟩ := Bool.and_eq_true_iff.mp uncast
    simp only [computesOnNumbers, Bool.and_eq_true] at numbers
    obtain ⟨⟨numbersLeft, numbersRight⟩, operands⟩ := numbers
    rcases bind_eq_error.mp failed with failed | ⟨x, valueLeft, failed⟩
    · exact left uncastLeft numbersLeft boundLeft failed
    · rcases bind_eq_error.mp failed with failed | ⟨y, valueRight, failed⟩
      · exact right uncastRight numbersRight boundRight failed
      · obtain ⟨op, rfl, someLeft, someRight, failed⟩ := BinaryOp.apply_error failed
        obtain ⟨numericLeft, numericRight⟩ := Bool.and_eq_true_iff.mp operands
        have number := isNumeric_of_eval admitted numericLeft boundLeft valueLeft someLeft
        have number' := isNumeric_of_eval admitted numericRight boundRight valueRight someRight
        rcases ArithmeticOp.apply_error failed with zero | ⟨m, n, large⟩ | ⟨-, other⟩
        · exact .inl zero
        · exact .inr ⟨m, op, n, large⟩
        · exact absurd ⟨number, number'⟩ other
  | cast e t => cases uncast

/-- A bound expression without lists written out has a type, and on a row whose values are of the
types of their fields it comes to values of that type only. If besides nothing is cast and
arithmetic is done on numbers only, it comes to a value, unless a number is divided by zero or too
large. -/
theorem eval_safe (plain : e.listFree = true) (admitted : s.Admits row) (bound : e.bind s = .ok b) :
    (∃ t, e.dataType s = .ok t ∧ ∀ v, b.eval row = .ok v → v.fits t = true) ∧
      (e.castFree = true → e.computesOnNumbers s = true →
        (∃ v, b.eval row = .ok v) ∨ b.eval row = .error .divisionByZero ∨
          ∃ m op n, b.eval row = .error (.overflow m op n)) := by
  constructor
  · obtain ⟨t, typed⟩ := exists_dataType bound
    refine ⟨t, typed, fun v value => ?_⟩
    rcases eval_fits admitted typed bound value with fit | ⟨items, rfl, -⟩
    · exact fit
    · exact absurd rfl (listFree_literal plain items)
  · intro uncast numbers
    cases come : b.eval row with
    | ok v => exact .inl ⟨v, rfl⟩
    | error err =>
      right
      rcases eval_error admitted uncast numbers bound come with rfl | ⟨m, op, n, rfl⟩
      · exact .inl rfl
      · exact .inr ⟨m, op, n, rfl⟩

/-- The remainder of one column by another, compared with the first. -/
theorem eval_safe_sample :
    let s : Schema := ⟨[⟨"x", .integer .medium, true⟩, ⟨"y", .integer .big, true⟩]⟩
    let row : Row := [.integer .medium ⟨7, by decide⟩, .integer .big ⟨2, by decide⟩]
    let e : Expr := .binary
      (.binary (.column "x" none) (.arithmetic .modulo) (.column "y" none)) (.comparison .lt)
      (.column "x" none)
    ∃ b v, s.Admits row ∧ e.bind s = .ok b ∧ b.eval row = .ok v ∧ e.dataType s = .ok .boolean ∧
      v.fits .boolean = true := by
  intro s row e
  have admitted : s.Admits row := .cons (by decide) (.cons (by decide) .nil)
  have bound : e.bind s = .ok (e.resolve s) := rfl
  obtain ⟨⟨t, typed, preserved⟩, progress⟩ := eval_safe (e := e) rfl admitted bound
  obtain rfl := Except.ok.inj typed
  have succeeds : ((e.resolve s).eval row).toOption.isSome = true := by decide +kernel
  rcases progress rfl (by decide) with ⟨v, value⟩ | zero | ⟨m, op, n, large⟩
  · exact ⟨_, v, admitted, bound, value, rfl, preserved v value⟩
  · rw [zero] at succeeds
    cases succeeds
  · rw [large] at succeeds
    cases succeeds

end Expr
end BatchFlow

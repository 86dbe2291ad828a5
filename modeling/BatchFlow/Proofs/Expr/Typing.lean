import BatchFlow.Expr.Binding
import BatchFlow.Expr.Evaluation
import BatchFlow.Proofs.Batch.Fitting

/-!
Expressions come to values of the type that they were given. The one exception is a list that is
written out: its type is that of its first element, whatever the others are.
-/
namespace BatchFlow

namespace Value

variable {v w : Value} {t : DataType}

@[simp] theorem fits_boolean (b : Bool) : fits (.boolean b) t = true ↔ t = .boolean := by
  cases t <;> simp [fits, dataType?]

@[simp] theorem fits_integer {width : IntWidth} (n : Whole width) :
    fits (.integer width n) t = true ↔ t = .integer width := by
  cases t <;> simp [fits, dataType?, eq_comm]

@[simp] theorem fits_floating {precision : Precision} (x : Binary precision) :
    fits (.floating precision x) t = true ↔ t = .floating precision := by
  cases t <;> simp [fits, dataType?, eq_comm]

@[simp] theorem fits_text (s : String) : fits (.text s) t = true ↔ t = .text := by
  cases t <;> simp [fits, dataType?]

theorem fits_list {items : List Value} :
    fits (.list items) t = true ↔ ∃ u, t = .array u ∧ allFit items u = true := by
  cases t <;> simp [fits]

/-- Only a list need not be of the type that it names. -/
theorem fits_dataType (flat : ∀ items, v ≠ .list items) : v.fits v.dataType = true := by
  cases v with
  | list items => exact absurd rfl (flat items)
  | _ => simp [dataType, dataType?]

theorem isFloating_of_fits (fit : v.fits t = true) (some : v.isNull = false) :
    v.isFloating = t.isFloating := by
  cases v with
  | null => cases some
  | list items =>
    obtain ⟨u, rfl, -⟩ := fits_list.mp fit
    rfl
  | _ =>
    simp only [fits_boolean, fits_integer, fits_floating, fits_text] at fit
    subst fit
    rfl

def isNumeric (v : Value) : Bool := v.isIntegral || v.isFloating

theorem toDouble?_of_numeric (number : v.isNumeric = true) : ∃ x, v.toDouble? = some x := by
  cases v <;> simp_all [isNumeric, isIntegral, isFloating, toDouble?]

theorem integer_of_numeric (number : v.isNumeric = true) (whole : v.isFloating = false) :
    ∃ width n, v = .integer width n := by
  cases v <;> simp_all [isNumeric, isIntegral, isFloating]

/-- A value of a numeric type is a number or NULL. -/
theorem isNumeric_of_fits (fit : v.fits t = true) (some : v.isNull = false)
    (numeric : t.isNumeric = true) : v.isNumeric = true := by
  cases v with
  | null => cases some
  | integer | floating => rfl
  | list items =>
    obtain ⟨u, rfl, -⟩ := fits_list.mp fit
    cases numeric
  | boolean | text =>
    simp only [fits_boolean, fits_text] at fit
    subst fit
    cases numeric

theorem list_of_cast {items : List Value} (h : v.cast (.array t) = .ok (.list items)) :
    ∃ items', v = .list items' := by
  cases v with
  | list items' => exact ⟨items', rfl⟩
  | _ => simp [cast] at h

theorem converted_fits (h : v.cast t = .ok w) (some : v ≠ .null)
    (other : ∀ items u, v = .list items → t ≠ .array u) : w.fits t = true := by
  unfold cast at h
  split at h
  · exact absurd rfl some
  · exact absurd rfl (other _ _ rfl)
  · simp only at h
    split at h
    next converted =>
      obtain rfl := Except.ok.inj h
      cases t with
      | array => cases converted
      | floating p =>
        cases p <;>
          · obtain ⟨_, -, rfl⟩ := Option.map_eq_some_iff.mp converted
            simp
      | _ =>
        obtain ⟨_, -, rfl⟩ := Option.map_eq_some_iff.mp converted
        simp
    · cases h

mutual

/-- A value that has been brought to a type is of that type. -/
theorem cast_fits : ∀ (v : Value) (t : DataType) (w : Value), v.cast t = .ok w → w.fits t = true
  | null, t, w, h => by
    obtain rfl := Except.ok.inj h
    exact null_fits t
  | list items, .array t, w, h => by
    simp only [cast] at h
    obtain ⟨ws, brought, rfl⟩ := map_eq_ok.mp h
    exact fits_list.mpr ⟨t, rfl, castAll_fit items t ws brought⟩
  | boolean _, t, w, h | integer _ _, t, w, h | floating _ _, t, w, h | text _, t, w, h =>
    converted_fits h (by simp) (by simp)
  | list _, .boolean, w, h | list _, .integer _, w, h | list _, .floating _, w, h
  | list _, .text, w, h => converted_fits h (by simp) (by simp)

theorem castAll_fit : ∀ (vs : List Value) (t : DataType) (ws : List Value),
    castAll vs t = .ok ws → allFit ws t = true
  | [], _, ws, h => by
    obtain rfl := Except.ok.inj h
    rfl
  | v :: vs, t, ws, h => by
    obtain ⟨w, first, h⟩ := bind_eq_ok.mp h
    obtain ⟨rest, others, h⟩ := bind_eq_ok.mp h
    obtain rfl := pure_eq_ok.mp h
    simp [allFit, cast_fits v t w first, castAll_fit vs t rest others]

end

end Value

/-- Arithmetic has no lists for operands, and comes to a double if one of its operands has a
fraction. -/
theorem ArithmeticOp.apply_ok {op : ArithmeticOp} {a b v : Value} (h : op.apply a b = .ok v) :
    v.fits (if a.isFloating || b.isFloating then .floating .double else .integer .big) = true ∧
      (∀ items, a ≠ .list items) ∧ ∀ items, b ≠ .list items := by
  unfold apply at h
  split at h
  · cases h
  · split at h
    next floating =>
      rw [if_pos floating]
      split at h
      next x y left right =>
        obtain rfl := Except.ok.inj h
        refine ⟨by simp, ?_, ?_⟩
        · rintro items rfl
          cases left
        · rintro items rfl
          cases right
      · cases h
    next whole =>
      rw [if_neg whole]
      split at h
      · split at h
        · obtain rfl := Except.ok.inj h
          simp
        · cases h
      · cases h

/-- Arithmetic refuses a division by zero, a result too large, and operands that are not both
numbers. -/
theorem ArithmeticOp.apply_error {op : ArithmeticOp} {a b : Value} {e : EvalError}
    (h : op.apply a b = .error e) :
    e = .divisionByZero ∨ (∃ m n, e = .overflow m op n) ∨
      e = .operands a (.arithmetic op) b ∧ ¬(a.isNumeric = true ∧ b.isNumeric = true) := by
  unfold apply at h
  split at h
  · exact .inl (Except.error.inj h).symm
  · split at h
    · split at h
      · cases h
      next unread =>
        refine .inr (.inr ⟨(Except.error.inj h).symm, fun ⟨left, right⟩ => ?_⟩)
        obtain ⟨x, first⟩ := Value.toDouble?_of_numeric left
        obtain ⟨y, second⟩ := Value.toDouble?_of_numeric right
        exact unread x y first second
    next whole =>
      obtain ⟨wholeLeft, wholeRight⟩ := Bool.or_eq_false_iff.mp (Bool.eq_false_iff.mpr whole)
      split at h
      · split at h
        · cases h
        · exact .inr (.inl ⟨_, _, (Except.error.inj h).symm⟩)
      next other =>
        refine .inr (.inr ⟨(Except.error.inj h).symm, fun ⟨left, right⟩ => ?_⟩)
        obtain ⟨_, m, rfl⟩ := Value.integer_of_numeric left wholeLeft
        obtain ⟨_, n, rfl⟩ := Value.integer_of_numeric right wholeRight
        exact other _ m _ n rfl rfl

/-- Logic and comparison refuse nothing. -/
theorem BinaryOp.apply_error {op : BinaryOp} {a b : Value} {e : EvalError}
    (h : op.apply a b = .error e) :
    ∃ o, op = .arithmetic o ∧ a.isNull = false ∧ b.isNull = false ∧ o.apply a b = .error e := by
  cases op with
  | arithmetic o =>
    simp only [apply] at h
    split at h
    · cases h
    next some =>
      obtain ⟨left, right⟩ := Bool.or_eq_false_iff.mp (Bool.eq_false_iff.mpr some)
      exact ⟨o, rfl, left, right, h⟩
  | comparison o =>
    simp only [apply] at h
    split at h <;> cases h
  | logic o => cases h

theorem BinaryOp.apply_truth {op : BinaryOp} {a b v : Value} (h : op.apply a b = .ok v)
    (truth : ∀ o, op ≠ .arithmetic o) : v.fits .boolean = true := by
  cases op with
  | arithmetic o => exact absurd rfl (truth o)
  | comparison o =>
    simp only [apply] at h
    split at h <;> cases h <;> simp
  | logic o =>
    obtain rfl := Except.ok.inj h
    unfold LogicOp.apply
    split <;> simp

theorem BinaryOp.apply_flat {op : BinaryOp} {a b v : Value} (h : op.apply a b = .ok v)
    (items : List Value) : v ≠ .list items := by
  rintro rfl
  cases op with
  | arithmetic op =>
    simp only [apply] at h
    split at h
    · cases h
    · have fits := (ArithmeticOp.apply_ok h).1
      split at fits <;> simp [Value.fits] at fits
  | comparison op | logic op =>
    have fits := apply_truth h (by simp)
    simp [Value.fits] at fits

namespace Expr

variable {s : Schema} {row : Row}

def IsList (e : Expr) : Prop := ∃ items, e = .literal (.list items)

theorem bind_column {name : String} {index : Option Nat} {e' : Expr}
    (bound : (column name index).bind s = .ok e') :
    ∃ i f, e' = column name (some i) ∧ s.fields[i]? = some f ∧
      (column name index).dataType s = .ok f.dataType := by
  unfold bind at bound
  split at bound
  next i place =>
    obtain rfl := Except.ok.inj bound
    have inside : i < s.fields.length := (List.findIdx?_eq_some_iff_findIdx_eq.mp place).1
    have there : s.fields[i]? = some s.fields[i] := List.getElem?_eq_getElem inside
    exact ⟨i, s.fields[i], rfl, there, by simp [dataType, Schema.field?, place, there]⟩
  · cases bound

theorem eval_column {name : String} {i : Nat} {v : Value} :
    (column name (some i)).eval row = .ok v ↔ row[i]? = some v := by
  unfold eval
  split <;> simp_all

/-- An expression comes to a value of its type, on every row that the schema admits, unless it is a
list that is written out. -/
theorem eval_fits {e e' : Expr} {t : DataType} {v : Value} (admitted : s.Admits row)
    (typed : e.dataType s = .ok t) (bound : e.bind s = .ok e') (value : e'.eval row = .ok v) :
    v.fits t = true ∨ ∃ items, e = .literal (.list items) ∧ v = .list items := by
  induction e generalizing e' t v with
  | column name index =>
    obtain ⟨i, f, rfl, there, typed'⟩ := bind_column bound
    obtain rfl := Except.ok.inj (typed.symm.trans typed')
    exact .inl (rel_of_getElem? admitted there (eval_column.mp value))
  | literal u =>
    obtain rfl := Except.ok.inj typed
    obtain rfl := Except.ok.inj bound
    obtain rfl := Except.ok.inj value
    by_cases list : ∃ items, u = .list items
    · obtain ⟨items, rfl⟩ := list
      exact .inr ⟨items, rfl, rfl⟩
    · exact .inl (Value.fits_dataType fun items same => list ⟨items, same⟩)
  | binary l op r left right =>
    left
    obtain ⟨l', boundLeft, bound⟩ := bind_eq_ok.mp bound
    obtain ⟨r', boundRight, bound⟩ := bind_eq_ok.mp bound
    obtain rfl := pure_eq_ok.mp bound
    obtain ⟨a, valueLeft, value⟩ := bind_eq_ok.mp value
    obtain ⟨b, valueRight, value⟩ := bind_eq_ok.mp value
    cases op with
    | arithmetic op =>
      obtain ⟨u, typedLeft, typed⟩ := bind_eq_ok.mp typed
      obtain ⟨u', typedRight, typed⟩ := bind_eq_ok.mp typed
      obtain rfl := pure_eq_ok.mp typed
      simp only [BinaryOp.apply] at value
      split at value
      · obtain rfl := Except.ok.inj value
        exact Value.null_fits _
      next some =>
        obtain ⟨someLeft, someRight⟩ := Bool.or_eq_false_iff.mp (Bool.eq_false_iff.mpr some)
        obtain ⟨fits, flatLeft, flatRight⟩ := ArithmeticOp.apply_ok value
        have fitsLeft : a.fits u = true :=
          (left typedLeft boundLeft valueLeft).resolve_right fun ⟨items, _, list⟩ =>
            flatLeft items list
        have fitsRight : b.fits u' = true :=
          (right typedRight boundRight valueRight).resolve_right fun ⟨items, _, list⟩ =>
            flatRight items list
        rwa [Value.isFloating_of_fits fitsLeft someLeft,
          Value.isFloating_of_fits fitsRight someRight] at fits
    | comparison op | logic op =>
      obtain rfl := Except.ok.inj typed
      exact BinaryOp.apply_truth value (by simp)
  | cast e u =>
    obtain rfl := Except.ok.inj typed
    obtain ⟨x, boundInner, bound⟩ := bind_eq_ok.mp bound
    obtain rfl := pure_eq_ok.mp bound
    obtain ⟨w, -, value⟩ := bind_eq_ok.mp value
    exact .inl (Value.cast_fits w u v (mapError_eq_ok.mp value))

/-- On the rows that batches of a schema give back, an expression comes to lists always or never. -/
theorem eval_lists {e e' : Expr} (bound : e.bind s = .ok e') :
    (∀ row v, s.Gives row → e'.eval row = .ok v → ∃ items, v = .list items) ∨
      ∀ row v, s.Gives row → e'.eval row = .ok v → ∀ items, v ≠ .list items := by
  induction e generalizing e' with
  | column name index =>
    obtain ⟨i, f, rfl, there, -⟩ := bind_column bound
    cases many : f.dataType.isRepeated with
    | true =>
      left
      intro row v given value
      obtain ⟨fits, some⟩ := rel_of_getElem? given there (eval_column.mp value)
      cases v with
      | list items => exact ⟨items, rfl⟩
      | null => simp [many] at some
      | _ => cases type : f.dataType <;> simp_all [DataType.isRepeated]
    | false =>
      right
      rintro row v given value items rfl
      obtain ⟨fits, -⟩ := rel_of_getElem? given there (eval_column.mp value)
      obtain ⟨u, array, -⟩ := Value.fits_list.mp fits
      simp [array, DataType.isRepeated] at many
  | literal v =>
    obtain rfl := Except.ok.inj bound
    by_cases list : ∃ items, v = .list items
    · left
      rintro row w - value
      obtain rfl := Except.ok.inj value
      exact list
    · right
      rintro row w - value items rfl
      exact list ⟨items, Except.ok.inj value⟩
  | binary l op r =>
    right
    rintro row v - value
    obtain ⟨l', -, bound⟩ := bind_eq_ok.mp bound
    obtain ⟨r', -, bound⟩ := bind_eq_ok.mp bound
    obtain rfl := pure_eq_ok.mp bound
    obtain ⟨a, -, value⟩ := bind_eq_ok.mp value
    obtain ⟨b, -, value⟩ := bind_eq_ok.mp value
    exact BinaryOp.apply_flat value
  | cast e t ih =>
    obtain ⟨x, boundInner, bound⟩ := bind_eq_ok.mp bound
    obtain rfl := pure_eq_ok.mp bound
    have inner {row : Row} {v : Value} (value : (Expr.cast x t).eval row = .ok v) :
        ∃ w, x.eval row = .ok w ∧ w.cast t = .ok v := by
      obtain ⟨w, before, value⟩ := bind_eq_ok.mp value
      exact ⟨w, before, mapError_eq_ok.mp value⟩
    cases t with
    | array u =>
      refine (ih boundInner).imp ?_ ?_
      · intro lists row v given value
        obtain ⟨w, before, brought⟩ := inner value
        obtain ⟨items, rfl⟩ := lists row w given before
        obtain ⟨ws, -, rfl⟩ := map_eq_ok.mp brought
        exact ⟨ws, rfl⟩
      · rintro never row v given value items rfl
        obtain ⟨w, before, brought⟩ := inner value
        obtain ⟨items', rfl⟩ := Value.list_of_cast brought
        exact never row _ given before items' rfl
    | _ =>
      right
      rintro row v given value items rfl
      obtain ⟨w, -, brought⟩ := inner value
      have fits := Value.cast_fits w _ _ brought
      simp [Value.fits] at fits

end Expr
end BatchFlow

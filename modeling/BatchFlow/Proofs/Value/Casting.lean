import BatchFlow.Proofs.Expr.Typing
import BatchFlow.Proofs.Number.Decimal
import BatchFlow.Proofs.Number.Widening

/-!
Casts to the type that a value already has, and casts of whole numbers there and back. A cast comes to
a value of the type asked for and leaves such a value alone, through lists of any depth, so it does
nothing a second time. A whole number survives any other width that holds it, and survives its text.
-/
namespace BatchFlow.Value

mutual

/-- A value of a type is not changed by a cast to it. The one conversion that could change it is that
of a number of single precision, which goes through double precision. -/
theorem cast_of_fits : ∀ (v : Value) (t : DataType), v.fits t = true → v.cast t = .ok v
  | null, _, _ => by simp [cast]
  | list items, t, fit => by
    obtain ⟨u, rfl, each⟩ := fits_list.mp fit
    simp [cast, castAll_of_fit items u each, Except.map]
  | boolean b, t, fit => by
    obtain rfl := (fits_boolean b).mp fit
    rfl
  | integer w n, t, fit => by
    obtain rfl := (fits_integer n).mp fit
    simp [cast, toBig?, Whole.toBig]
  | floating .single x, t, fit => by
    obtain rfl := (fits_floating x).mp fit
    simp [cast, toDouble?, Binary.convert_toDouble]
  | floating .double x, t, fit => by
    obtain rfl := (fits_floating x).mp fit
    rfl
  | text s, t, fit => by
    obtain rfl := (fits_text s).mp fit
    rfl

theorem castAll_of_fit : ∀ (vs : List Value) (t : DataType), allFit vs t = true →
    castAll vs t = .ok vs
  | [], _, _ => rfl
  | v :: vs, t, fit => by
    simp only [allFit, Bool.and_eq_true] at fit
    simp only [castAll, cast_of_fits v t fit.1, castAll_of_fit vs t fit.2]
    rfl

end

/-- What a cast comes to is of the type asked for, and a value of that type comes to itself. So a
second cast to the type comes to what the first one came to. -/
theorem cast_settles (v : Value) (t : DataType) :
    (∀ w, v.cast t = .ok w → w.fits t = true) ∧ (v.fits t = true → v.cast t = .ok v) ∧
      (v.cast t).bind (·.cast t) = v.cast t := by
  refine ⟨cast_fits v t, cast_of_fits v t, ?_⟩
  cases come : v.cast t with
  | error e => rfl
  | ok w => exact cast_of_fits w t (cast_fits v t w come)

/-- A list of lists with NULL at both depths, whose numbers are the least and the greatest positive ones
of single precision and one that is not a number. -/
theorem nested_singles_settle :
    let least : Binary .single := ⟨false, 1, by decide⟩
    let greatest : Binary .single := ⟨false, Precision.single.infinity - 1, by decide⟩
    let v := list [list [floating .single least, null], null, list [],
      list [floating .single greatest, floating .single (.nan .single true)]]
    v.fits (.array (.array (.floating .single))) = true ∧
      v.cast (.array (.array (.floating .single))) = .ok v := by
  intro least greatest v
  have fit : v.fits (.array (.array (.floating .single))) = true := by decide
  exact ⟨fit, (cast_settles v _).2.1 fit⟩

section

variable {v w : IntWidth}

/-- A cast to another width keeps the number, where the width holds it. -/
theorem cast_integer (n : Whole v) (w : IntWidth) :
    (integer v n).cast (.integer w) =
      match Whole.ofInt? w n.toInt with
      | some m => .ok (integer w m)
      | none => .error ⟨integer v n, .integer w⟩ := by
  cases held : Whole.ofInt? w n.toInt <;> simp [cast, toBig?, Whole.toBig, held]

theorem cast_text_integer (n : Whole v) :
    (integer v n).cast .text = .ok (text (toString n.toInt)) := by
  simp [cast, toText?, toText]

/-- A text is read at 64 bits, which hold every width. -/
theorem cast_text_of_read {s : String} {n : Whole v} (read : Reading.integer? s = some n.toInt) :
    (text s).cast (.integer v) = .ok (integer v n) := by
  have big : toBig? (text s) = some n.toBig := by
    rw [toBig?, read]
    exact Whole.ofInt?_toInt n.toBig
  simp [cast, big, Whole.toBig]

/-- A whole number that has been cast to another width or to text is brought back by a cast to its own
width. A cast to another width is refused exactly if the width does not hold the number, and a cast to
text never is. -/
theorem cast_whole_back (n : Whole v) :
    (∀ t w, t.isIntegral = true ∨ t = .text → (integer v n).cast t = .ok w →
        w.cast (integer v n).dataType = .ok (integer v n)) ∧
      (∀ w, (∃ e, (integer v n).cast (.integer w) = .error e) ↔ ¬w.Holds n.toInt) ∧
      ∃ s, (integer v n).cast .text = .ok (text s) := by
  refine ⟨fun t r kind come => ?_, fun w => ?_, _, cast_text_integer n⟩
  · cases t with
    | integer w =>
      rw [cast_integer] at come
      split at come
      next m held =>
        obtain rfl := Except.ok.inj come
        have back : Whole.ofInt? v m.toInt = some n := by
          rw [Whole.ofInt?_eq_some.mp held]
          exact Whole.ofInt?_toInt n
        show (integer w m).cast (.integer v) = _
        rw [cast_integer, back]
      · cases come
    | text =>
      rw [cast_text_integer] at come
      obtain rfl := Except.ok.inj come
      exact cast_text_of_read (Reading.integer?_toString n.toInt)
    | boolean | floating | array => simp [DataType.isIntegral] at kind
  · rw [cast_integer, ← Whole.ofInt?_eq_none]
    cases Whole.ofInt? w n.toInt <;> simp

/-- The least number of 64 bits comes back from its text, and one of 8 bits from 64. -/
theorem least_whole_back :
    let least : Whole .big := ⟨-0x8000000000000000, by decide⟩
    let seven : Whole .tiny := ⟨-7, by decide⟩
    (text "-9223372036854775808").cast (.integer .big) = .ok (integer .big least) ∧
      (integer .big ⟨-7, by decide⟩).cast (.integer .tiny) = .ok (integer .tiny seven) ∧
      ∃ e, (integer .big least).cast (.integer .medium) = .error e := by
  intro least seven
  exact ⟨(cast_whole_back least).1 .text _ (.inr rfl) (cast_text_integer least),
    (cast_whole_back seven).1 (.integer .big) _ (.inl rfl) (cast_integer seven .big),
    ((cast_whole_back least).2.1 .medium).mpr (by decide)⟩

end

end BatchFlow.Value

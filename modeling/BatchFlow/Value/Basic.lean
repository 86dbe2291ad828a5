import BatchFlow.DataType

/-!
Values of columns and rows. NULL belongs to every type; a list holds the values of one row of a
repeated column.
-/
namespace BatchFlow

inductive Value where
  | null
  | boolean (b : Bool)
  | integer (width : IntWidth) (n : Whole width)
  | floating (precision : Precision) (x : Binary precision)
  | text (s : String)
  | list (items : List Value)

namespace Value

def headerSize : Nat := 16

def isNull : Value → Bool
  | null => true
  | _ => false

def isIntegral : Value → Bool
  | integer .. => true
  | _ => false

def isFloating : Value → Bool
  | floating .. => true
  | _ => false

mutual

/-- Bytes that a value is reckoned to occupy: its header, and the bytes of a text or the elements
of a list. -/
def footprint : Value → Nat
  | text s => headerSize + s.utf8ByteSize
  | list items => headerSize + totalFootprint items
  | _ => headerSize

def totalFootprint : List Value → Nat
  | [] => 0
  | v :: vs => v.footprint + totalFootprint vs

end

mutual

/-- The type of a value; NULL has none. A list takes the type of its first element that has one,
and text if no element has. -/
def dataType? : Value → Option DataType
  | null => none
  | boolean _ => some .boolean
  | integer w _ => some (.integer w)
  | floating p _ => some (.floating p)
  | text _ => some .text
  | list items => some (.array ((elementType? items).getD .text))

def elementType? : List Value → Option DataType
  | [] => none
  | v :: vs => v.dataType?.or (elementType? vs)

end

/-- The type of a value where one has to be named: text for NULL. -/
def dataType (v : Value) : DataType := v.dataType?.getD .text

mutual

/-- Whether a column of type `t` may hold the value: NULL fits every type, a list fits an array
that each element fits, any other value fits its own type. -/
def fits : Value → DataType → Bool
  | null, _ => true
  | list items, .array t => allFit items t
  | list _, _ => false
  | v, t => v.dataType? = some t

def allFit : List Value → DataType → Bool
  | [], _ => true
  | v :: vs, t => v.fits t && allFit vs t

end

theorem allFit_eq_all (vs : List Value) (t : DataType) : allFit vs t = vs.all (·.fits t) := by
  induction vs with
  | nil => rfl
  | cons v vs ih => simp [allFit, ih]

@[simp] theorem null_fits (t : DataType) : fits null t = true := by simp [fits]

mutual

def same : Value → Value → Bool
  | null, null => true
  | boolean a, boolean b => a = b
  | integer v a, integer w b => v = w && a.toInt = b.toInt
  | floating p a, floating q b => p = q && a.negative = b.negative && a.magnitude = b.magnitude
  | text a, text b => a = b
  | list a, list b => allSame a b
  | _, _ => false

def allSame : List Value → List Value → Bool
  | [], [] => true
  | a :: as, b :: bs => same a b && allSame as bs
  | _, _ => false

end

mutual

theorem same_iff : ∀ a b : Value, same a b = true ↔ a = b
  | null, b => by cases b <;> simp [same]
  | boolean x, b => by cases b <;> simp [same]
  | integer v x, b => by
    cases b with
    | integer w y =>
      by_cases h : v = w
      · subst h
        simpa [same] using ⟨Whole.ext_toInt, congrArg _⟩
      · simp [same, h]
    | _ => simp [same]
  | floating p x, b => by
    cases b with
    | floating q y =>
      by_cases h : p = q
      · subst h
        simp only [same, decide_true, Bool.true_and, Bool.and_eq_true, decide_eq_true_eq,
          floating.injEq, heq_eq_eq, true_and]
        exact ⟨fun ⟨s, m⟩ => Binary.ext_fields s m, fun e => e ▸ ⟨rfl, rfl⟩⟩
      · simp [same, h]
    | _ => simp [same]
  | text x, b => by cases b <;> simp [same]
  | list xs, b => by
    cases b with
    | list ys => simp [same, allSame_iff xs ys]
    | _ => simp [same]

theorem allSame_iff : ∀ as bs : List Value, allSame as bs = true ↔ as = bs
  | [], bs => by cases bs <;> simp [allSame]
  | a :: as, bs => by
    cases bs with
    | nil => simp [allSame]
    | cons b bs => simp [allSame, same_iff a b, allSame_iff as bs]

end

instance : DecidableEq Value := fun a b => decidable_of_iff _ (same_iff a b)

end Value
end BatchFlow

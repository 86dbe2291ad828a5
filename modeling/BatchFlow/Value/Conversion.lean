import BatchFlow.Number.Reading
import BatchFlow.Value.Text

/-!
Conversions between kinds of values, and casts to a type as one of these conversions followed by a
check of the bounds. NULL is cast to NULL.
-/
namespace BatchFlow

structure CastError where
  value : Value
  target : DataType
  deriving DecidableEq

def CastError.message (e : CastError) : String :=
  "cannot cast " ++ e.value.toText ++ " to " ++ e.target.name

namespace Value

/-- The value as a 64-bit whole number: fractions are cut off, a text is read. -/
def toBig? : Value → Option (Whole .big)
  | boolean b => some (Whole.saturate .big (if b then 1 else 0))
  | integer _ n => some n.toBig
  | floating _ x => some (x.toWhole .big)
  | text s => (Reading.integer? s).bind (Whole.ofInt? .big)
  | null | list _ => none

def toDouble? : Value → Option (Binary .double)
  | boolean b => some (.ofInt .double (if b then 1 else 0))
  | integer _ n => some (.ofInt .double n.toInt)
  | floating _ x => some x.toDouble
  | text s => Reading.binary? .double s
  | null | list _ => none

/-- The value as a truth value; a whole number is true unless it is zero. -/
def toBool? : Value → Option Bool
  | boolean b => some b
  | integer _ n => some (n.toInt != 0)
  | _ => none

def toText? : Value → Option String
  | null => none
  | v => some v.toText

mutual

/-- The value brought to a type. Of a list it is each element that is brought to the element
type, and the first that cannot be is the one in error. -/
def cast : Value → DataType → Except CastError Value
  | null, _ => .ok null
  | list items, .array t => (castAll items t).map list
  | v, t =>
    let converted := match t with
      | .boolean => v.toBool?.map boolean
      | .integer w => (v.toBig?.bind fun n => Whole.ofInt? w n.toInt).map (integer w)
      | .floating .single => v.toDouble?.map fun x => floating .single (x.convert .single)
      | .floating .double => v.toDouble?.map (floating .double)
      | .text => v.toText?.map text
      | .array _ => none
    match converted with
    | some w => .ok w
    | none => .error ⟨v, t⟩

def castAll : List Value → DataType → Except CastError (List Value)
  | [], _ => .ok []
  | v :: vs, t => do
    let w ← v.cast t
    let ws ← castAll vs t
    pure (w :: ws)

end

end Value
end BatchFlow

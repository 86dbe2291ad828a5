import BatchFlow.Number.Shortest
import BatchFlow.Value.Basic

/-! The text of a value, as messages and casts to text show it. -/
namespace BatchFlow.Value

mutual

def toText : Value → String
  | null => "NULL"
  | boolean b => if b then "true" else "false"
  | integer _ n => toString n.toInt
  | floating _ x => x.text
  | text s => s
  | list items => "[" ++ ", ".intercalate (texts items) ++ "]"

def texts : List Value → List String
  | [] => []
  | v :: vs => v.toText :: texts vs

end

theorem texts_eq_map (vs : List Value) : texts vs = vs.map toText := by
  induction vs with
  | nil => rfl
  | cons v vs ih => simp [texts, ih]

end BatchFlow.Value

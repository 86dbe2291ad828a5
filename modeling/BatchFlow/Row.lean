import BatchFlow.Value.Order

/-! Rows: one value per column, in order. -/
namespace BatchFlow

abbrev Row := List Value

namespace Row

def footprint (r : Row) : Nat := Value.totalFootprint r

def toText (r : Row) : String := "(" ++ ", ".intercalate (Value.texts r) ++ ")"

end Row
end BatchFlow

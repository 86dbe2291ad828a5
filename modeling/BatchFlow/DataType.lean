import BatchFlow.Number.Binary
import BatchFlow.Number.Whole

/-! Declared types of columns. An array is the type of a column whose rows hold lists. -/
namespace BatchFlow

inductive DataType where
  | boolean
  | integer (width : IntWidth)
  | floating (precision : Precision)
  | text
  | array (element : DataType)
  deriving DecidableEq, Repr

namespace DataType

def isIntegral : DataType → Bool
  | integer _ => true
  | _ => false

def isFloating : DataType → Bool
  | floating _ => true
  | _ => false

def isNumeric (t : DataType) : Bool := t.isIntegral || t.isFloating

def isRepeated : DataType → Bool
  | array _ => true
  | _ => false

def element? : DataType → Option DataType
  | array t => some t
  | _ => none

def name : DataType → String
  | boolean => "BOOLEAN"
  | integer .tiny => "TINYINT"
  | integer .small => "SMALLINT"
  | integer .medium => "INT"
  | integer .big => "BIGINT"
  | floating .single => "FLOAT"
  | floating .double => "DOUBLE"
  | text => "TEXT"
  | array t => "ARRAY<" ++ t.name ++ ">"

end DataType
end BatchFlow

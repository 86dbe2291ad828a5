/-! Selection vectors: which rows of a batch count, by two-byte or four-byte indices. -/
namespace BatchFlow

inductive SelectionMode where
  | all
  | twoByte
  | fourByte
  deriving DecidableEq, Repr

def SelectionMode.text : SelectionMode → String
  | all => "NONE"
  | twoByte => "TWO_BYTE"
  | fourByte => "FOUR_BYTE"

inductive Selection where
  | twoByte (rows : List UInt16)
  | fourByte (rows : List UInt32)
  deriving DecidableEq

namespace Selection

def mode : Selection → SelectionMode
  | twoByte _ => .twoByte
  | fourByte _ => .fourByte

def length : Selection → Nat
  | twoByte rows => rows.length
  | fourByte rows => rows.length

end Selection
end BatchFlow

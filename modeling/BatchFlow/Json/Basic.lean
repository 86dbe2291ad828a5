import BatchFlow.Number.Binary

/-!
JSON values. A number without point and exponent that has 64 bits is whole; any other is a double.
-/
namespace BatchFlow

inductive Json where
  | null
  | boolean (b : Bool)
  | integer (n : Int)
  | real (x : Binary .double)
  | text (s : String)
  | array (items : List Json)
  | object (members : List (String × Json))

namespace Json

/-- Whole numbers kept exactly: those of 64 bits, signed or not. -/
def Exact (n : Int) : Prop := -0x8000000000000000 ≤ n ∧ n < 0x10000000000000000

instance (n : Int) : Decidable (Exact n) := inferInstanceAs (Decidable (_ ∧ _))

def member? (name : String) : Json → Option Json
  | object members => members.lookup name
  | _ => none

/-- The members of a record written as an object, or as an array of at least `least` of its fields
in order. -/
def record? (names : List String) (least : Nat) : Json → Option (List (String × Json))
  | object members => some members
  | array items =>
    if least ≤ items.length ∧ items.length ≤ names.length then some (names.zip items) else none
  | _ => none

def text? : Json → Option String
  | text s => some s
  | _ => none

def boolean? : Json → Option Bool
  | boolean b => some b
  | _ => none

def count? : Json → Option Nat
  | integer n => if 0 ≤ n then some n.toNat else none
  | _ => none

def array? : Json → Option (List Json)
  | array items => some items
  | _ => none

end Json
end BatchFlow

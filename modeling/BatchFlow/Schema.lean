import BatchFlow.DataType

/-!
Fields and schemas. The shape of a schema is its names and types in order; whether NULL is allowed
is not part of it.
-/
namespace BatchFlow

structure Field where
  name : String
  dataType : DataType
  nullable : Bool
  deriving DecidableEq, Repr

namespace Field

def sameShape (f g : Field) : Bool := f.name = g.name && f.dataType = g.dataType

def text (f : Field) : String :=
  f.name ++ ": " ++ f.dataType.name ++ if f.nullable then "" else " NOT NULL"

end Field

structure Schema where
  fields : List Field
  deriving DecidableEq, Repr

namespace Schema

def empty : Schema := ⟨[]⟩

def width (s : Schema) : Nat := s.fields.length

/-- The position of the first field of that name. -/
def indexOf? (s : Schema) (name : String) : Option Nat := s.fields.findIdx? (·.name = name)

def field? (s : Schema) (name : String) : Option Field := (s.indexOf? name).bind (s.fields[·]?)

def names (s : Schema) : List String := s.fields.map Field.name

def shape (s : Schema) : List (String × DataType) := s.fields.map fun f => (f.name, f.dataType)

def sameShape (s t : Schema) : Bool := s.shape = t.shape

def text (s : Schema) : String := "[" ++ ", ".intercalate (s.fields.map Field.text) ++ "]"

end Schema
end BatchFlow

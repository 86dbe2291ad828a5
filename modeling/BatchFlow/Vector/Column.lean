import BatchFlow.Vector.Lists

/-! Columns of a batch: one value per row, or a list per row. -/
namespace BatchFlow

inductive Column where
  | flat (v : FlatVector)
  | repeated (v : ListVector)

namespace Column

def empty (field : Field) (origin : Option Nat) : Column :=
  if field.dataType.isRepeated then repeated (.empty field origin)
  else flat (.empty field origin)

/-- A row of a repeated column: a list, or NULL for the empty one. -/
def rowItems (field : Field) : Value → Except Fault (List Value)
  | .list items => .ok items
  | .null => .ok []
  | v => .error (.ofTypes field.name field.dataType v.dataType)

def ofValues (field : Field) (values : List Value) (origin : Option Nat) : Except Fault Column :=
  if field.dataType.isRepeated then do
    let lists ← values.mapM (rowItems field)
    let v ← ListVector.ofLists field lists origin
    pure (repeated v)
  else do
    let v ← FlatVector.ofFitting field values origin
    pure (flat v)

def field : Column → Field
  | flat v => v.field
  | repeated v => v.field

def length : Column → Nat
  | flat v => v.length
  | repeated v => v.length

def value? : Column → Nat → Option Value
  | flat v, row => v.get? row
  | repeated v, row => v.listAt? row

def asLists : Column → Except Fault ListVector
  | repeated v => .ok v
  | flat v => .error (.notRepeated v.field.name)

def take (c : Column) (origin : Option Nat) : Column × Column :=
  match c with
  | flat v => (c, flat (v.take origin).2)
  | repeated v => (c, repeated (v.take origin).2)

def clear (c : Column) (origin : Option Nat) : Column :=
  match c with
  | flat v => flat (v.clear origin)
  | repeated v => repeated (v.clear origin)

def footprint : Column → Nat
  | flat v => v.footprint
  | repeated v => v.footprint

end Column
end BatchFlow

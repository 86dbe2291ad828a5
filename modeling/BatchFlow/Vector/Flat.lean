import BatchFlow.Fault
import BatchFlow.Schema
import BatchFlow.Vector.Window

/-!
Flat vectors: a field and a window on values. Storage moves between vectors of one type without
copying; a vector keeps its field whatever storage it gets.
-/
namespace BatchFlow

def Fault.ofTypes (column : String) (expected actual : DataType) : Fault :=
  .typeMismatch column expected.name actual.name

structure FlatVector where
  field : Field
  window : Window

namespace FlatVector

def ofList (field : Field) (values : List Value) (origin : Option Nat) : FlatVector :=
  ⟨field, .ofList origin values⟩

/-- A vector of values that all fit the field; the first that does not is the one refused. -/
def ofFitting (field : Field) (values : List Value) (origin : Option Nat) :
    Except Fault FlatVector :=
  match values.find? (fun v => !v.fits field.dataType) with
  | some v => .error (.ofTypes field.name field.dataType v.dataType)
  | none => .ok (ofList field values origin)

def empty (field : Field) (origin : Option Nat) : FlatVector := ofList field [] origin

def length (v : FlatVector) : Nat := v.window.length
def toList (v : FlatVector) : List Value := v.window.toList
def get? (v : FlatVector) (i : Nat) : Option Value := v.window.get? i
def footprint (v : FlatVector) : Nat := Value.totalFootprint v.toList
def shares (v w : FlatVector) : Bool := v.window.shares w.window

def slice (v : FlatVector) (start count : Nat) : Except Fault FlatVector :=
  if h : start + count ≤ v.window.length then .ok { v with window := v.window.slice start count h }
  else .error (.argument (.window start count v.field.name v.length))

def clear (v : FlatVector) (origin : Option Nat) : FlatVector := empty v.field origin

def take (v : FlatVector) (origin : Option Nat) : FlatVector × FlatVector :=
  (v, v.clear origin)

/-- Moves the storage of `v` into `target`, which must be of the same type. Gives `v` as it is
left, empty, and `target` as it becomes. -/
def transfer (v target : FlatVector) (origin : Option Nat) :
    Except Fault (FlatVector × FlatVector) :=
  if target.field.dataType = v.field.dataType then
    .ok (v.clear origin, { target with window := v.window })
  else .error (.ofTypes target.field.name target.field.dataType v.field.dataType)

end FlatVector

/-- A source, and a target of the same type that is pointed at ranges of the source. -/
structure Slicer where
  source : FlatVector
  target : FlatVector

namespace Slicer

def ofSource (source : FlatVector) (field : Field) (origin : Option Nat) :
    Except Fault Slicer :=
  if field.dataType = source.field.dataType then .ok ⟨source, .empty field origin⟩
  else .error (.ofTypes field.name field.dataType source.field.dataType)

def slice (s : Slicer) (start count : Nat) : Except Fault Slicer := do
  let part ← s.source.slice start count
  pure { s with target := { s.target with window := part.window } }

def clear (s : Slicer) (sourceOrigin targetOrigin : Option Nat) : Slicer :=
  ⟨s.source.clear sourceOrigin, s.target.clear targetOrigin⟩

end Slicer
end BatchFlow

import BatchFlow.Vector.Flat

/-!
List vectors: each outer row holds a list. The lists lie one after another in an inner vector,
and row `r` owns the values from `offsets[r]` up to `offsets[r + 1]`.
-/
namespace BatchFlow

def rising : List Nat → Bool
  | a :: b :: rest => a ≤ b && rising (b :: rest)
  | _ => true

/-- Offsets that cut `n` values into consecutive lists. -/
def cuts (offsets : List Nat) (n : Nat) : Bool :=
  offsets.head? = some 0 && rising offsets && offsets.getLast? = some n

structure ListVector where
  field : Field
  offsets : Array Nat
  inner : FlatVector
  partitions : cuts offsets.toList inner.length = true

namespace ListVector

def innerField (f : Field) : Field := ⟨f.name, f.dataType.element?.getD f.dataType, true⟩

/-- Refuses a field that is not an array of the inner type, then offsets that do not cut the inner
values. -/
def ofOffsets (field : Field) (offsets : List Nat) (inner : FlatVector) :
    Except Fault ListVector :=
  let expected := DataType.array inner.field.dataType
  if field.dataType ≠ expected then .error (.ofTypes field.name expected field.dataType)
  else if h : cuts offsets inner.length = true then .ok ⟨field, offsets.toArray, inner, h⟩
  else .error (.argument (.offsets field.name))

/-- Where each list ends, counted from `start`, after `start` itself. -/
def offsetsFrom (start : Nat) : List (List Value) → List Nat
  | [] => [start]
  | l :: ls => start :: offsetsFrom (start + l.length) ls

def ofLists (field : Field) (lists : List (List Value)) (origin : Option Nat) :
    Except Fault ListVector := do
  let inner ← FlatVector.ofFitting (innerField field) lists.flatten origin
  ofOffsets field (offsetsFrom 0 lists) inner

def empty (field : Field) (origin : Option Nat) : ListVector :=
  ⟨field, #[0], .empty (innerField field) origin, rfl⟩

def length (v : ListVector) : Nat := v.offsets.size - 1

/-- The number of values of a row; none past the end. Rows have no greatest number here: the greatest of
a machine word, to which one cannot be added, is left out. -/
def countAt (v : ListVector) (row : Nat) : Nat :=
  match v.offsets[row]?, v.offsets[row + 1]? with
  | some start, some stop => stop - start
  | _, _ => 0

/-- Where the values of a row begin; at the end of all values past the last row. -/
def offsetAt (v : ListVector) (row : Nat) : Nat := v.offsets[row]?.getD v.inner.length

def valuesAt (v : ListVector) (row : Nat) : List Value :=
  (v.inner.toList.drop (v.offsetAt row)).take (v.countAt row)

def listAt? (v : ListVector) (row : Nat) : Option Value :=
  if row < v.length then some (.list (v.valuesAt row)) else none

def clear (v : ListVector) (origin : Option Nat) : ListVector :=
  ⟨v.field, #[0], v.inner.clear origin, rfl⟩

def take (v : ListVector) (origin : Option Nat) : ListVector × ListVector :=
  (v, empty v.field origin)

/-- Eight bytes are counted for each offset. -/
def footprint (v : ListVector) : Nat := v.inner.footprint + v.offsets.size * 8

end ListVector
end BatchFlow

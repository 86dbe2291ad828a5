import BatchFlow.Batch.Basic

/-!
Expanding a repeated column one outer row at a time. An expansion that a bound stops early goes on
where it stopped as long as the outer row stays the same; another row starts at its beginning.
-/
namespace BatchFlow

structure Progress where
  row : Nat
  made : Nat
  deriving DecidableEq, Repr

structure Expansion where
  ready : Bool
  column : Option ListVector
  rowCap : Nat
  progress : Option Progress

namespace Expansion

def start : Expansion := ⟨false, none, Limits.maxRows, none⟩

/-- Outer batches with a selection are refused. -/
def setUp (x : Expansion) (mode : SelectionMode) : Except Fault Expansion :=
  if mode = .all then .ok { x with ready := true }
  else .error (.unsupportedSelection "Unnest" mode.text)

def setColumn (x : Expansion) (c : Column) : Except Fault Expansion := do
  let v ← c.asLists
  pure { x with column := some v, progress := none }

def outputField? (x : Expansion) : Option Field :=
  x.column.map fun v => ⟨v.field.name, v.inner.field.dataType, true⟩

def setRowCap (x : Expansion) (cap : Nat) : Expansion :=
  { x with rowCap := max cap Limits.minRows }

def made (x : Expansion) (row : Nat) : Nat :=
  match x.progress with
  | some p => if p.row = row then p.made else 0
  | none => 0

/-- Puts storage into the flat column of a field; the column has to be there with that type. -/
def fill (out : Batch) (field : Field) (w : Window) : Except Fault Unit × Batch :=
  let clash : Option DataType := do
    let c ← out.columnNamed? field.name
    if c.field.dataType ≠ field.dataType then some c.field.dataType else none
  match clash with
  | some actual => (.error (.ofTypes field.name field.dataType actual), out)
  | none =>
    let (out, flag, i) := out.ensureColumn field .lowered
    if flag.raised then (.error (.missingColumn field.name "outgoing batch"), out)
    else
      match out.columns[i]? with
      | some (.flat v) => (.ok (), out.setColumn i (.flat { v with window := w }))
      | some (.repeated v) =>
        (.error (.ofTypes field.name field.dataType v.field.dataType), out)
      | none => (.error (.missingColumn field.name "outgoing batch"), out)

/-- Moves the next inner values of the outer row into `out`: as many as are left, the cap and the
request allow. Answers how many; `out` gets that record count. -/
def expand (x : Expansion) (row requested : Nat) (out : Batch) :
    Except Fault Nat × Expansion × Batch :=
  match x.ready, x.column, x.outputField? with
  | true, some v, some field =>
    if v.length ≤ row then
      (.error (.argument (.outerRow row v.field.name v.length)), x, out)
    else
      let made := x.made row
      let count := min (min (v.countAt row - made) x.rowCap) requested
      match v.inner.slice (v.offsetAt row + made) count with
      | .error e => (.error e, x, out)
      | .ok part =>
        match fill out field part.window with
        | (.error e, out) => (.error e, x, out)
        | (.ok (), out) =>
          match out.resize count with
          | .error e => (.error e, x, out)
          | .ok out => (.ok count, { x with progress := some ⟨row, made + count⟩ }, out)
  | _, _, _ => (.error (.misuse .unnestNotSetUp), x, out)

/-- Whether the last call made the last inner value of this row. -/
def isDrained (x : Expansion) (row : Nat) : Bool :=
  match x.progress, x.column with
  | some p, some v => x.ready && p.row = row && v.countAt row ≤ p.made
  | _, _ => false

def resetProgress (x : Expansion) : Expansion := { x with progress := none }

def close (x : Expansion) : Expansion := { x with column := none, progress := none }

end Expansion
end BatchFlow

import BatchFlow.Batch.Selection
import BatchFlow.Row
import BatchFlow.Vector.Column

/-!
Record batches: a schema, one column per field, a record count, and perhaps a selection. Columns
may be longer than the record count; a row that some column lacks cannot be read.
-/
namespace BatchFlow

/-- Remembers that a batch had to change its columns, until it is asked. -/
structure ChangeFlag where
  raised : Bool
  deriving DecidableEq, Repr

namespace ChangeFlag

def lowered : ChangeFlag := ⟨false⟩
def raise (_ : ChangeFlag) : ChangeFlag := ⟨true⟩

def read (f : ChangeFlag) : Bool × ChangeFlag := (f.raised, lowered)

end ChangeFlag

structure Batch where
  schema : Schema
  columns : List Column
  numRows : Nat
  selection : Option Selection
  schemaVersion : Nat

namespace Batch

/-- Refuses a wrong number of columns, then a column of another shape than its field, then columns
of different lengths. -/
def ofColumns (schema : Schema) (columns : List Column) : Except Fault Batch :=
  if columns.length ≠ schema.width then
    .error (.argument (.columnCount columns.length schema.width))
  else
    match (schema.fields.zip columns).find? (fun (f, c) => !f.sameShape c.field) with
    | some (f, c) => .error (.ofTypes f.name f.dataType c.field.dataType)
    | none =>
      let numRows := (columns.head?.map Column.length).getD 0
      match columns.find? (fun c => c.length ≠ numRows) with
      | some c => .error (.argument (.columnLength c.field.name c.length numRows))
      | none => .ok ⟨schema, columns, numRows, none, 0⟩

def empty (schema : Schema) : Batch :=
  ⟨schema, schema.fields.map (Column.empty · none), 0, none, 0⟩

/-- The first column of that name. -/
def columnNamed? (b : Batch) (name : String) : Option Column :=
  (b.schema.indexOf? name).bind (b.columns[·]?)

def selectionMode (b : Batch) : SelectionMode := (b.selection.map Selection.mode).getD .all

def select (b : Batch) (s : Selection) : Batch := { b with selection := some s }

/-- A row below the record count, if every column has it. -/
def row? (b : Batch) (i : Nat) : Option Row :=
  if i < b.numRows then b.columns.mapM (·.value? i) else none

def rows (b : Batch) : List Row := (List.range b.numRows).filterMap b.row?

def readings (b : Batch) : List (Except Fault Row) :=
  (List.range b.numRows).map fun i =>
    match b.row? i with
    | some r => .ok r
    | none => .error (.misuse (.unreadableRow i))

/-- Sets the record count, which no column may fall short of. -/
def resize (b : Batch) (count : Nat) : Except Fault Batch :=
  match b.columns.find? (fun c => c.length < count) with
  | some c => .error (.argument (.recordCount count c.length c.field.name))
  | none => .ok { b with numRows := count }

def withColumns (b : Batch) (columns : List Column) : Batch :=
  { b with
    columns
    schema := ⟨columns.map Column.field⟩
    schemaVersion := b.schemaVersion + 1 }

def setColumn (b : Batch) (i : Nat) (c : Column) : Batch :=
  { b with columns := b.columns.set i c }

/-- Sees to it that there is a column for a field. A column of the same name and type is kept; one
of another type is replaced by an empty one; where there is none, an empty one is added. A change
raises the flag. Gives the position of the column. -/
def ensureColumn (b : Batch) (field : Field) (flag : ChangeFlag) :
    Batch × ChangeFlag × Nat :=
  match b.schema.indexOf? field.name with
  | some i =>
    match b.columns[i]? with
    | some c =>
      if c.field.sameShape field then (b, flag, i)
      else (b.withColumns (b.columns.set i (.empty field none)), flag.raise, i)
    | none => (b, flag, i)
  | none => (b.withColumns (b.columns ++ [.empty field none]), flag.raise, b.columns.length)

/-- The batch as it was, and what stays in its place: empty columns of the same shape. -/
def take (b : Batch) : Batch × Batch :=
  (b, { b with columns := b.columns.map fun c => (c.take none).2, numRows := 0, selection := none })

def clear (b : Batch) : Batch :=
  { b with columns := b.columns.map (·.clear none), numRows := 0, selection := none }

def footprint (b : Batch) : Nat := (b.columns.map Column.footprint).foldr (· + ·) 0

def text (b : Batch) : String :=
  let head := s!"RecordBatch ({b.numRows} rows x {b.columns.length} cols)"
  let names := " | ".intercalate b.schema.names
  let shown := (b.rows.take 10).map Row.toText
  let more := if 10 < b.numRows then [s!"... ({b.numRows - 10} more rows)"] else []
  String.join ((head :: names :: shown ++ more).map (· ++ "\n"))

end Batch
end BatchFlow

import BatchFlow.Batch.Basic

/-! Building a batch row by row. Values are checked against the schema when the batch is built. -/
namespace BatchFlow

structure BatchBuilder where
  schema : Schema
  columns : List (Array Value)

namespace BatchBuilder

def ofSchema (schema : Schema) : BatchBuilder := ⟨schema, schema.fields.map fun _ => #[]⟩

def append (b : BatchBuilder) (row : Row) : Except Fault BatchBuilder :=
  if row.length ≠ b.columns.length then
    .error (.argument (.rowWidth row.length b.columns.length))
  else .ok { b with columns := b.columns.zipWith Array.push row }

def numRows (b : BatchBuilder) : Nat := (b.columns.head?.map Array.size).getD 0

def build (b : BatchBuilder) : Except Fault Batch := do
  let columns ← (b.schema.fields.zip b.columns).mapM fun (f, vs) =>
    Column.ofValues f vs.toList none
  Batch.ofColumns b.schema columns

end BatchBuilder

def Batch.ofRows (schema : Schema) (rows : List Row) : Except Fault Batch := do
  let b ← rows.foldlM BatchBuilder.append (.ofSchema schema)
  b.build

end BatchFlow

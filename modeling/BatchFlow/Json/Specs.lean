import BatchFlow.Json.Exprs
import BatchFlow.Settings
import BatchFlow.Specs

/-! The JSON form of settings and configurations. What is left out takes its usual value. -/
namespace BatchFlow

namespace Settings

def toJson (s : Settings) : Json :=
  .object [("output_batch_rows", .integer s.batchRows),
    ("memory_limit_bytes", .integer s.memoryLimit)]

def ofJson? (j : Json) : Option Settings := do
  let ms ← j.record? ["output_batch_rows", "memory_limit_bytes"] 0
  let batchRows ← (ms.lookup "output_batch_rows").elim (some default.batchRows) Json.count?
  let memoryLimit ← (ms.lookup "memory_limit_bytes").elim (some default.memoryLimit) Json.count?
  some ⟨batchRows, memoryLimit⟩

end Settings

namespace AggregateSpec

def toJson (c : AggregateSpec) : Json :=
  .object [("group_by", .array (c.groupBy.map Projection.toJson)),
    ("aggregates", .array (c.aggregates.map AggregateCall.toJson)),
    ("output_batch_size_fraction", c.fraction.toJson)]

def partsOfJson? {α : Type} (read : Json → Option α) : Option Json → Option (List α)
  | none => some []
  | some j => j.array?.bind (·.mapM read)

def ofJson? (j : Json) : Option AggregateSpec := do
  let ms ← j.record? ["group_by", "aggregates", "output_batch_size_fraction"] 0
  let groupBy ← partsOfJson? Projection.ofJson? (ms.lookup "group_by")
  let aggregates ← partsOfJson? AggregateCall.ofJson? (ms.lookup "aggregates")
  let fraction ← (ms.lookup "output_batch_size_fraction").elim (some fullFraction)
    (Binary.ofJson? .single)
  some ⟨groupBy, aggregates, fraction⟩

end AggregateSpec

namespace UnnestSpec

def toJson (c : UnnestSpec) : Json :=
  .object [("unnest_field", .text c.field), ("output_row_cap", .integer c.rowCap)]

def ofJson? (j : Json) : Option UnnestSpec := do
  let ms ← j.record? ["unnest_field", "output_row_cap"] 1
  let field ← (← ms.lookup "unnest_field").text?
  let rowCap ← (ms.lookup "output_row_cap").elim (some Limits.maxRows) Json.count?
  some ⟨field, rowCap⟩

end UnnestSpec
end BatchFlow

import BatchFlow.Aggregate.Call
import BatchFlow.Fault
import BatchFlow.Number.Arithmetic

/-!
What operators are asked to do: the keys and calls of an aggregation with the size of its batches,
and the column that an unnest expands.
-/
namespace BatchFlow

structure AggregateSpec where
  groupBy : List Projection
  aggregates : List AggregateCall
  fraction : Binary .single
  deriving DecidableEq

namespace AggregateSpec

def fullFraction : Binary .single := .ofInt .single 1

/-- Fractions above zero and up to one are accepted. -/
def validateFraction (x : Binary .single) : Except Fault Unit :=
  if !x.isNaN && 0 < x.signedUnits && x.signedUnits ≤ fullFraction.signedUnits then .ok ()
  else .error (.config (.fraction x))

def validate (c : AggregateSpec) : Except Fault Unit := do
  validateFraction c.fraction
  if c.groupBy.isEmpty && c.aggregates.isEmpty then .error (.config .nothingToAggregate)
  else .ok ()

/-- Rows of an output batch: the fraction of the usual number, rounded down, and at least one. -/
def rowCap (fraction : Binary .single) (batchRows : Nat) : Nat :=
  max Limits.minRows ((Binary.ofInt .double batchRows).mul fraction.toDouble).toCount

end AggregateSpec

structure UnnestSpec where
  field : String
  rowCap : Nat
  deriving DecidableEq, Repr

namespace UnnestSpec

def ofField (field : String) : UnnestSpec := ⟨field, Limits.maxRows⟩

def validate (c : UnnestSpec) : Except Fault Unit :=
  if c.field.isEmpty then .error (.config .noUnnestField)
  else if c.rowCap = 0 || Limits.maxRows < c.rowCap then .error (.config (.rowCap c.rowCap))
  else .ok ()

end UnnestSpec
end BatchFlow

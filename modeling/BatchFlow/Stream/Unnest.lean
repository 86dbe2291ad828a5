import BatchFlow.Specs
import BatchFlow.Stream.Expansion
import BatchFlow.Stream.Fragment
import BatchFlow.Stream.Outcome

/-!
The unnest operator: it expands the outer row at which a lateral cursor stands, with `data` while
inner values are left and `endOfGroup` for the last of them. An outer batch is bound when the
cursor's generation changes, and announced if the output shape does.
-/
namespace BatchFlow

structure Unnest where
  spec : UnnestSpec
  expansion : Expansion
  generation : Option Nat
  output : Option Batch
  outputSchema : Option Schema
  phase : Phase
  recordCount : Nat

namespace Unnest

def operatorName : String := "UnnestExec"

def ofSpec (c : UnnestSpec) : Except Fault Unnest := do
  c.validate
  pure ⟨c, Expansion.start.setRowCap c.rowCap, none, none, none, .running, 0⟩

def release (u : Unnest) : Unnest := { u with expansion := u.expansion.close, output := none }

/-- Binds an outer batch. Gives the output schema if it has to be announced. -/
def bind (u : Unnest) (outer : Batch) : Except Fault (Unnest × Option Schema) := do
  let x ← u.expansion.setUp outer.selectionMode
  let column ← match outer.columnNamed? u.spec.field with
    | some c => pure c
    | none => .error (.missingColumn u.spec.field "incoming batch")
  let x ← x.setColumn column
  let schema : Schema := ⟨x.outputField?.toList⟩
  let u := { u with expansion := x, output := some (.empty schema) }
  if (u.outputSchema.map schema.sameShape).getD false then pure (u, none)
  else pure ({ u with outputSchema := some schema }, some schema)

def expand (u : Unnest) (f : Fragment) (outer : Batch) :
    Except Fault (Outcome × Unnest) :=
  match u.output with
  | none => .error (.misuse .noOutputBatch)
  | some out =>
    if outer.numRows = 0 then
      let (b, left) := out.take
      .ok (.endOfGroup b, { u with output := some left })
    else
      match u.expansion.expand f.cursor.row f.settings.batchRows out with
      | (.error e, _, _) => .error e
      | (.ok _, x, out) =>
        let (b, left) := out.take
        let u := { u with expansion := x, output := some left }
        .ok (if x.isDrained f.cursor.row then .endOfGroup b else .data b, u)

def next (u : Unnest) (f : Fragment) : Except Fault (Outcome × Unnest) :=
  match f.cursor.outer with
  | none => .ok (.endOfStream, { u with phase := .finished }.release)
  | some outer =>
    if u.generation = some f.cursor.generation then u.expand f outer
    else do
      let (u, announced) ← { u with generation := some f.cursor.generation }.bind outer
      match announced with
      | some schema => pure (.newSchema (.empty schema), u)
      | none => u.expand f outer

def advance (u : Unnest) (f : Fragment) : Except Fault Outcome × Unnest :=
  match u.phase with
  | .running =>
    match u.next f with
    | .ok (o, u) => (.ok o, { u with recordCount := o.recordCount })
    | .error e => (.error e, { u with phase := .failed, recordCount := 0 }.release)
  | .finished => (.ok .endOfStream, u)
  | .failed => (.error (.misuse (.advancedAfterFailure operatorName)), u)
  | .closed => (.error (.misuse (.advancedAfterClose operatorName)), u)

def close (u : Unnest) : Unnest := { u.release with phase := .closed }

def resetProgress (u : Unnest) : Unnest := { u with expansion := u.expansion.resetProgress }

/-- The inner values that are left of the outer row at which the cursor stands. -/
def backlog (u : Unnest) (f : Fragment) : Nat :=
  let count (v : ListVector) := v.countAt f.cursor.row
  if u.generation = some f.cursor.generation then
    (u.expansion.column.map count).getD 0 - u.expansion.made f.cursor.row
  else
    match f.cursor.outer.bind (·.columnNamed? u.spec.field) with
    | some (.repeated v) => count v
    | _ => 0

end Unnest
end BatchFlow

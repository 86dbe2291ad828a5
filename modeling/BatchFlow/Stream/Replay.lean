import BatchFlow.Stream.Outcome

/-!
A scripted source: it gives a list of outcomes as they stand, then fails once if told to, and then
ends. Closing it drops the outcomes that are left, not the failure.
-/
namespace BatchFlow

structure Replay where
  steps : List Outcome
  failure : Option Fault
  schema : Option Schema
  recordCount : Nat
  closed : Bool

namespace Replay

def operatorName : String := "ReplayExec"

def ofSteps (steps : List Outcome) (failure : Option Fault) : Replay :=
  ⟨steps, failure, none, 0, false⟩

def schemaAfter (r : Replay) (o : Outcome) : Option Schema :=
  match o.batch? with
  | some b => some b.schema
  | none => r.schema

def advance (r : Replay) : Except Fault Outcome × Replay :=
  match r.steps, r.failure with
  | o :: rest, _ =>
    (.ok o, { r with steps := rest, schema := r.schemaAfter o, recordCount := o.recordCount })
  | [], some e => (.error e, { r with failure := none })
  | [], none => (.ok .endOfStream, { r with recordCount := 0 })

def close (r : Replay) : Replay := { r with steps := [], closed := true }

end Replay
end BatchFlow

import BatchFlow.Stream.Aggregation
import BatchFlow.Stream.Replay
import BatchFlow.Stream.Unnest

/-!
Operators: a source with any number of aggregations on top of it. The depth in the type counts the
aggregations, so that a turn is defined by recursion on it.
-/
namespace BatchFlow

inductive Operator : Nat → Type where
  | replay (r : Replay) : Operator 0
  | unnest (u : Unnest) : Operator 0
  | aggregate {depth : Nat} (a : Aggregation) (child : Operator depth) : Operator (depth + 1)

namespace Operator

/-- A bound on how many `data` outcomes in a row the operator has left, as long as the lateral
cursor stays where it is. -/
def backlog (f : Fragment) : {depth : Nat} → Operator depth → Nat
  | 0, replay r => r.steps.length + Outcome.totalRecords r.steps
  | 0, unnest u => u.backlog f
  | _ + 1, aggregate a child => a.backlog + child.backlog f + 1

/-- One turn. Only the budget of the fragment can change. -/
def advance (f : Fragment) :
    (depth : Nat) → Operator depth → Budget → Except Fault Outcome × Operator depth × Budget
  | 0, replay r, memory =>
    let (result, r) := r.advance
    (result, replay r, memory)
  | 0, unnest u, memory =>
    let (result, u) := u.advance f
    (result, unnest u, memory)
  | depth + 1, aggregate a child, memory =>
    let (result, w, child) :=
      a.advance (fun child memory => advance f depth child memory) (child.backlog f + 1) child
        memory
    (result, aggregate w.toAggregation child, w.memory)

/-- Gives up all storage, from the top down; a second time changes nothing. -/
def close : {depth : Nat} → Operator depth → Budget → Operator depth × Budget
  | 0, replay r, memory => (replay r.close, memory)
  | 0, unnest u, memory => (unnest u.close, memory)
  | _ + 1, aggregate a child, memory =>
    if a.phase = .closed then (aggregate a child, memory)
    else
      let w : Working := { a with memory }
      let w := w.release
      let (child, memory) := child.close w.memory
      (aggregate { w.toAggregation with phase := .closed } child, memory)

def name : {depth : Nat} → Operator depth → String
  | 0, replay _ => Replay.operatorName
  | 0, unnest _ => Unnest.operatorName
  | _ + 1, aggregate .. => Aggregation.operatorName

def schema : {depth : Nat} → Operator depth → Option Schema
  | 0, replay r => r.schema
  | 0, unnest u => u.outputSchema
  | _ + 1, aggregate a _ => a.outputSchema

def recordCount : {depth : Nat} → Operator depth → Nat
  | 0, replay r => r.recordCount
  | 0, unnest u => u.recordCount
  | _ + 1, aggregate a _ => a.recordCount

def sourcesClosed : {depth : Nat} → Operator depth → List Bool
  | 0, replay r => [r.closed]
  | 0, unnest _ => []
  | _ + 1, aggregate _ child => child.sourcesClosed

end Operator
end BatchFlow

import BatchFlow.Stream.Operator

/-!
Plans of operators, the pipelines built from them, and the loops that drive a pipeline.
-/
namespace BatchFlow

/-- What is to be built. With `direct` an aggregation is checked for its fraction only. -/
inductive Plan where
  | replay (steps : List Outcome) (failure : Option Fault)
  | unnest (spec : UnnestSpec)
  | aggregate (child : Plan) (spec : AggregateSpec) (direct : Bool)

namespace Plan

def depth : Plan → Nat
  | replay .. | unnest _ => 0
  | aggregate child .. => child.depth + 1

/-- Builds the source first, then each aggregation on top of it. -/
def build (settings : Settings) : (p : Plan) → Except Fault (Operator p.depth)
  | replay steps failure => .ok (.replay (.ofSteps steps failure))
  | unnest spec => (Unnest.ofSpec spec).map .unnest
  | aggregate child spec direct => do
    let c ← child.build settings
    let a ← if direct then
        Aggregation.ofFold (.ofCalls spec.groupBy spec.aggregates) spec.fraction settings
      else Aggregation.ofSpec spec settings
    pure (.aggregate a c)

end Plan

structure Pipeline where
  depth : Nat
  root : Operator depth
  fragment : Fragment

namespace Pipeline

def ofPlan (p : Plan) (fragment : Fragment) : Except Fault Pipeline :=
  (p.build fragment.settings).map fun root => ⟨p.depth, root, fragment⟩

def advance (p : Pipeline) : Except Fault Outcome × Pipeline :=
  let (result, root, memory) := p.root.advance p.fragment p.depth p.fragment.memory
  (result, { p with root, fragment := { p.fragment with memory } })

def close (p : Pipeline) : Pipeline :=
  let (root, memory) := p.root.close p.fragment.memory
  { p with root, fragment := { p.fragment with memory } }

def withCursor (p : Pipeline) (move : OuterCursor → OuterCursor) : Pipeline :=
  { p with fragment := { p.fragment with cursor := move p.fragment.cursor } }

def resetProgress (p : Pipeline) : Pipeline :=
  match p with
  | ⟨0, .unnest u, f⟩ => ⟨0, .unnest u.resetProgress, f⟩
  | p => p

/-- Asks for outcomes up to the end, a failure or `limit` turns, and keeps the pipeline as it was
after each. `after` acts on the pipeline between two turns. -/
def drive (after : Outcome → Pipeline → Pipeline) :
    Nat → Pipeline → List (Except Fault Outcome × Pipeline) × Pipeline
  | 0, p => ([], p)
  | limit + 1, p =>
    match p.advance with
    | (.error e, p) => ([(.error e, p)], p)
    | (.ok .endOfStream, p) => ([(.ok .endOfStream, p)], p)
    | (.ok o, p) =>
      let (rest, last) := drive after limit (after o p)
      ((.ok o, p) :: rest, last)

def drain : Nat → Pipeline → List (Except Fault Outcome × Pipeline) × Pipeline :=
  drive fun _ p => p

/-- Goes to the next outer row after a group has ended; without one the outer side is finished. -/
def followRows (o : Outcome) (p : Pipeline) : Pipeline :=
  match o with
  | .endOfGroup _ =>
    p.withCursor fun c =>
      let (inside, c) := c.next
      if inside then c else c.finish
  | _ => p

def drainLateral : Nat → Pipeline → List (Except Fault Outcome × Pipeline) × Pipeline :=
  drive followRows

end Pipeline
end BatchFlow

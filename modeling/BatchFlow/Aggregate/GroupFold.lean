import BatchFlow.Aggregate.Accumulator
import BatchFlow.Expr.Binding
import BatchFlow.Expr.Evaluation

/-!
Grouping keys and accumulators of one aggregation: laid out for an input schema, fed row by row,
and read out once per group.
-/
namespace BatchFlow

/-- Keys and arguments bound to the input schema; a count of rows has no argument. -/
structure GroupBinding where
  keys : List Expr
  args : List (Option Expr)
  deriving DecidableEq

structure GroupFold where
  groupBy : List Projection
  aggregates : List AggregateCall
  binding : Option GroupBinding
  accumulators : List Accumulator
  deriving DecidableEq

namespace GroupFold

def ofCalls (groupBy : List Projection) (aggregates : List AggregateCall) : GroupFold :=
  ⟨groupBy, aggregates, none, aggregates.map fun a => .start a.func⟩

def hasKeys (g : GroupFold) : Bool := !g.groupBy.isEmpty

def restart (g : GroupFold) : GroupFold :=
  { g with accumulators := g.accumulators.map Accumulator.reset }

def layKey (s : Schema) (k : Projection) : Except Fault (Expr × Field) := do
  let e ← k.expr.bind s
  let t ← k.expr.dataType s
  pure (e, ⟨k.name, t, true⟩)

def layCall (s : Schema) (a : AggregateCall) : Except Fault (Option Expr × Field) :=
  match a.func, a.args with
  | .countAll, _ => .ok (none, ⟨a.name, AggregateOp.countAll.resultType none, true⟩)
  | f, [] => .error (.config (.noArgument f))
  | f, e :: _ => do
    let t ← e.dataType s
    let b ← e.bind s
    pure (some b, ⟨a.name, f.resultType (some t), true⟩)

/-- Lays the group out for an input schema and gives the output schema: keys first. -/
def setUp (g : GroupFold) (s : Schema) : Except Fault (GroupFold × Schema) := do
  let keys ← g.groupBy.mapM (layKey s)
  let calls ← g.aggregates.mapM (layCall s)
  let binding := some ⟨keys.map Prod.fst, calls.map Prod.fst⟩
  pure ({ g with binding }.restart, ⟨keys.map Prod.snd ++ calls.map Prod.snd⟩)

def bound (g : GroupFold) : Except Fault GroupBinding :=
  match g.binding with
  | some b => .ok b
  | none => .error (.misuse .aggregationNotSetUp)

def evalKey (row : Row) (e : Expr) : Except Fault Value := (e.eval row).mapError .evaluation

def key (g : GroupFold) (row : Row) : Except Fault (List Value) := do
  let b ← g.bound
  b.keys.mapM (evalKey row)

/-- What an accumulator takes in from a row: its argument, or a constant to count by. -/
def evalArg (row : Row) : Option Expr → Except EvalError Value
  | some e => e.eval row
  | none => .ok (.integer .medium (.saturate .medium 1))

/-- Feeds the accumulators in order. The first error ends it; what was fed before stays. -/
def feed (row : Row) :
    List Accumulator → List (Option Expr) → Except EvalError Unit × List Accumulator
  | a :: as, e :: es =>
    match (evalArg row e).bind a.accumulate with
    | .error err => (.error err, a :: as)
    | .ok a =>
      let (r, as) := feed row as es
      (r, a :: as)
  | as, _ => (.ok (), as)

def accumulate (g : GroupFold) (row : Row) : Except Fault Unit × GroupFold :=
  match g.bound with
  | .error e => (.error e, g)
  | .ok b =>
    let (r, as) := feed row g.accumulators b.args
    (r.mapError .evaluation, { g with accumulators := as })

/-- The output row of the group with the given key, and the fold ready for the next group. -/
def finish (g : GroupFold) (key : List Value) : Row × GroupFold :=
  (key ++ g.accumulators.map Accumulator.result, g.restart)

end GroupFold
end BatchFlow

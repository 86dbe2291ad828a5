import BatchFlow.Expr.Basic

/-! Aggregate functions, and calls of them under an output name. -/
namespace BatchFlow

/-- `count` and the functions after `countAll` skip NULL; `countAll` counts rows. -/
inductive AggregateOp where
  | count
  | countAll
  | sum
  | avg
  | min
  | max
  | first
  | last
  deriving DecidableEq, Repr

namespace AggregateOp

def text : AggregateOp → String
  | count | countAll => "count"
  | sum => "sum"
  | avg => "avg"
  | min => "min"
  | max => "max"
  | first => "first"
  | last => "last"

def resultType : AggregateOp → Option DataType → DataType
  | count, _ | countAll, _ => .integer .big
  | sum, some (.integer _) => .integer .big
  | sum, _ | avg, _ => .floating .double
  | min, t | max, t | first, t | last, t => t.getD .text

end AggregateOp

structure AggregateCall where
  func : AggregateOp
  args : List Expr
  name : String
  deriving DecidableEq

def AggregateCall.text (a : AggregateCall) : String :=
  match a.func with
  | .countAll => "count(*) AS " ++ a.name
  | f => f.text ++ "(" ++ ", ".intercalate (a.args.map Expr.text) ++ ") AS " ++ a.name

end BatchFlow

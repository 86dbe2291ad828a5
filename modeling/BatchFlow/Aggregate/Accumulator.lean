import BatchFlow.Aggregate.Call
import BatchFlow.Fault
import BatchFlow.Number.Arithmetic
import BatchFlow.Value.Order

/-!
The running state of one aggregate over one group. NULL is skipped by all but the count of rows; a
value that is refused leaves the state as it was.
-/
namespace BatchFlow

/-- A sum stays whole until a floating value arrives. -/
inductive RunningSum where
  | empty
  | whole (total : Whole .big)
  | floating (total : Binary .double)
  deriving DecidableEq

namespace RunningSum

def add : RunningSum → Value → Except EvalError RunningSum
  | empty, .integer _ n => .ok (whole n.toBig)
  | whole t, .integer _ n =>
    match Whole.ofInt? .big (t.toInt + n.toInt) with
    | some s => .ok (whole s)
    | none => .error (.sumOverflow t.toInt n.toInt)
  | floating t, .integer _ n => .ok (floating (t.add (.ofInt .double n.toInt)))
  | empty, .floating _ x => .ok (floating x.toDouble)
  | whole t, .floating _ x => .ok (floating ((Binary.ofInt .double t.toInt).add x.toDouble))
  | floating t, .floating _ x => .ok (floating (t.add x.toDouble))
  | _, v => .error (.argument .sum v)

def result : RunningSum → Value
  | empty => .null
  | whole t => .integer .big t
  | floating t => .floating .double t

end RunningSum

/-- One state per function. `min` to `last` hold the value chosen so far. -/
inductive Accumulator where
  | count (n : Nat)
  | countAll (n : Nat)
  | sum (s : RunningSum)
  | avg (total : Binary .double) (n : Nat)
  | min (best : Option Value)
  | max (best : Option Value)
  | first (chosen : Option Value)
  | last (chosen : Option Value)
  deriving DecidableEq

namespace Accumulator

def start : AggregateOp → Accumulator
  | .count => count 0
  | .countAll => countAll 0
  | .sum => sum .empty
  | .avg => avg (.zero .double false) 0
  | .min => min none
  | .max => max none
  | .first => first none
  | .last => last none

def func : Accumulator → AggregateOp
  | count _ => .count
  | countAll _ => .countAll
  | sum _ => .sum
  | avg .. => .avg
  | min _ => .min
  | max _ => .max
  | first _ => .first
  | last _ => .last

def reset (a : Accumulator) : Accumulator := start a.func

def takeIn (v : Value) : Accumulator → Except EvalError Accumulator
  | count n => .ok (count (n + 1))
  | countAll n => .ok (countAll (n + 1))
  | sum s => (s.add v).map sum
  | avg t n =>
    match v.toDouble? with
    | some x => .ok (avg (t.add x) (n + 1))
    | none => .error (.argument .avg v)
  | min none => .ok (min (some v))
  | min (some m) => .ok (min (some (if v.compare m = .lt then v else m)))
  | max none => .ok (max (some v))
  | max (some m) => .ok (max (some (if v.compare m = .gt then v else m)))
  | first none => .ok (first (some v))
  | first (some c) => .ok (first (some c))
  | last _ => .ok (last (some v))

def accumulate (a : Accumulator) (v : Value) : Except EvalError Accumulator :=
  if v.isNull && a.func ≠ .countAll then .ok a else a.takeIn v

def result : Accumulator → Value
  | count n | countAll n => .integer .big (Whole.wrap .big n)
  | sum s => s.result
  | avg t n => if n = 0 then .null else .floating .double (t.div (.ofInt .double n))
  | min v | max v | first v | last v => v.getD .null

@[simp] theorem func_start (f : AggregateOp) : (start f).func = f := by cases f <;> rfl

end Accumulator
end BatchFlow

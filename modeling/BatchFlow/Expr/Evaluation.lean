import BatchFlow.Fault
import BatchFlow.Number.Arithmetic
import BatchFlow.Row

/-!
The value of a bound expression on a row. Logic is three-valued; NULL makes every other operation
NULL; arithmetic stays with whole numbers unless an operand is floating.
-/
namespace BatchFlow

namespace ComparisonOp

def holds : ComparisonOp → Ordering → Bool
  | eq, o => o = .eq
  | ne, o => o ≠ .eq
  | lt, o => o = .lt
  | le, o => o ≠ .gt
  | gt, o => o = .gt
  | ge, o => o ≠ .lt

end ComparisonOp

namespace LogicOp

/-- A false operand decides a conjunction and a true one a disjunction; otherwise both have to be
known. -/
def apply : LogicOp → Option Bool → Option Bool → Value
  | and, some false, _ | and, _, some false => .boolean false
  | and, some true, some true => .boolean true
  | or, some true, _ | or, _, some true => .boolean true
  | or, some false, some false => .boolean false
  | _, _, _ => .null

end LogicOp

namespace ArithmeticOp

/-- The exact result, if it has 64 bits. Division goes toward zero; a remainder is refused
together with its quotient. -/
def onWhole? (op : ArithmeticOp) (a b : Int) : Option (Whole .big) :=
  match op with
  | plus => Whole.ofInt? .big (a + b)
  | minus => Whole.ofInt? .big (a - b)
  | times => Whole.ofInt? .big (a * b)
  | divide => Whole.ofInt? .big (a.tdiv b)
  | modulo => (Whole.ofInt? .big (a.tdiv b)).bind fun _ => Whole.ofInt? .big (a.tmod b)

def onDoubles (op : ArithmeticOp) (x y : Binary .double) : Binary .double :=
  match op with
  | plus => x.add y
  | minus => x.sub y
  | times => x.mul y
  | divide => x.div y
  | modulo => x.rem y

def divides : ArithmeticOp → Bool
  | divide | modulo => true
  | _ => false

/-- Whether an operand counts as zero: its double is a zero of either sign. -/
def isZero (v : Value) : Bool :=
  match v.toDouble? with
  | some x => x.isZero
  | none => false

def apply (op : ArithmeticOp) (a b : Value) : Except EvalError Value :=
  if op.divides && isZero b then .error .divisionByZero
  else if a.isFloating || b.isFloating then
    match a.toDouble?, b.toDouble? with
    | some x, some y => .ok (.floating .double (op.onDoubles x y))
    | _, _ => .error (.operands a (.arithmetic op) b)
  else
    match a, b with
    | .integer _ m, .integer _ n =>
      match op.onWhole? m.toInt n.toInt with
      | some r => .ok (.integer .big r)
      | none => .error (.overflow m.toInt op n.toInt)
    | _, _ => .error (.operands a (.arithmetic op) b)

end ArithmeticOp

def BinaryOp.apply (op : BinaryOp) (a b : Value) : Except EvalError Value :=
  match op with
  | .logic op => .ok (op.apply a.toBool? b.toBool?)
  | .comparison op =>
    if a.isNull || b.isNull then .ok .null else .ok (.boolean (op.holds (a.compare b)))
  | .arithmetic op => if a.isNull || b.isNull then .ok .null else op.apply a b

/-- The left operand is evaluated first, and its error wins. -/
def Expr.eval (row : Row) : Expr → Except EvalError Value
  | .column name none => .error (.unbound name)
  | .column _ (some i) =>
    match row[i]? with
    | some v => .ok v
    | none => .error (.noSuchPosition i)
  | .literal v => .ok v
  | .binary l op r => do
    let a ← l.eval row
    let b ← r.eval row
    op.apply a b
  | .cast e t => do
    let v ← e.eval row
    (v.cast t).mapError EvalError.cast

end BatchFlow

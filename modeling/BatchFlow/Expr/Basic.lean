import BatchFlow.Value.Text

/-!
Expressions over the columns of a row. A column is referred to by name and, once bound, by its
position.
-/
namespace BatchFlow

inductive ArithmeticOp where
  | plus
  | minus
  | times
  | divide
  | modulo
  deriving DecidableEq, Repr

inductive ComparisonOp where
  | eq
  | ne
  | lt
  | le
  | gt
  | ge
  deriving DecidableEq, Repr

inductive LogicOp where
  | and
  | or
  deriving DecidableEq, Repr

inductive BinaryOp where
  | arithmetic (op : ArithmeticOp)
  | comparison (op : ComparisonOp)
  | logic (op : LogicOp)
  deriving DecidableEq, Repr

namespace BinaryOp

def text : BinaryOp → String
  | arithmetic .plus => "+"
  | arithmetic .minus => "-"
  | arithmetic .times => "*"
  | arithmetic .divide => "/"
  | arithmetic .modulo => "%"
  | comparison .eq => "="
  | comparison .ne => "<>"
  | comparison .lt => "<"
  | comparison .le => "<="
  | comparison .gt => ">"
  | comparison .ge => ">="
  | logic .and => "AND"
  | logic .or => "OR"

end BinaryOp

inductive Expr where
  | column (name : String) (index : Option Nat)
  | literal (v : Value)
  | binary (left : Expr) (op : BinaryOp) (right : Expr)
  | cast (e : Expr) (target : DataType)
  deriving DecidableEq

namespace Expr

def text : Expr → String
  | column name none => name
  | column name (some i) => name ++ "@" ++ toString i
  | literal v => v.toText
  | binary l op r => "(" ++ l.text ++ " " ++ op.text ++ " " ++ r.text ++ ")"
  | cast e t => "CAST(" ++ e.text ++ " AS " ++ t.name ++ ")"

end Expr

structure Projection where
  expr : Expr
  name : String
  deriving DecidableEq

def Projection.column (name : String) : Projection := ⟨.column name none, name⟩

end BatchFlow

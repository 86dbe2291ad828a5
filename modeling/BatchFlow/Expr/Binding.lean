import BatchFlow.Fault
import BatchFlow.Schema

/-!
Binding an expression to a schema: every column gets the position of the first field of its name,
whatever position it had before.
-/
namespace BatchFlow.Expr

def inputPlace : String := "input schema"

def bind (s : Schema) : Expr → Except Fault Expr
  | column name _ =>
    match s.indexOf? name with
    | some i => .ok (column name (some i))
    | none => .error (.missingColumn name inputPlace)
  | literal v => .ok (literal v)
  | binary l op r => do
    let l ← l.bind s
    let r ← r.bind s
    pure (binary l op r)
  | cast e t => do
    let e ← e.bind s
    pure (cast e t)

/-- The type that an expression makes over a schema. Arithmetic gives a double if an operand is
floating and a 64-bit whole number otherwise; comparison and logic give a truth value. -/
def dataType (s : Schema) : Expr → Except Fault DataType
  | column name _ =>
    match s.field? name with
    | some f => .ok f.dataType
    | none => .error (.missingColumn name inputPlace)
  | literal v => .ok v.dataType
  | binary l (.arithmetic _) r => do
    let t ← l.dataType s
    let u ← r.dataType s
    pure (if t.isFloating || u.isFloating then .floating .double else .integer .big)
  | binary .. => .ok .boolean
  | cast _ t => .ok t

end BatchFlow.Expr

import BatchFlow.Aggregate.Call
import BatchFlow.Json.Values

/-! The JSON form of expressions, named expressions and aggregate calls. -/
namespace BatchFlow

namespace BinaryOp

def tags : List (String × BinaryOp) :=
  [("Plus", .arithmetic .plus), ("Minus", .arithmetic .minus), ("Multiply", .arithmetic .times),
    ("Divide", .arithmetic .divide), ("Modulo", .arithmetic .modulo), ("Eq", .comparison .eq),
    ("NotEq", .comparison .ne), ("Lt", .comparison .lt), ("LtEq", .comparison .le),
    ("Gt", .comparison .gt), ("GtEq", .comparison .ge), ("And", .logic .and), ("Or", .logic .or)]

def toJson (op : BinaryOp) : Json :=
  match tags.find? (·.2 = op) with
  | some (s, _) => .text s
  | none => .null

def ofJson? (j : Json) : Option BinaryOp := j.bareTag?.bind fun s => tags.lookup s

end BinaryOp

namespace AggregateOp

def tags : List (String × AggregateOp) :=
  [("Count", count), ("CountStar", countAll), ("Sum", sum), ("Avg", avg), ("Min", min),
    ("Max", max), ("First", first), ("Last", last)]

def toJson (f : AggregateOp) : Json :=
  match tags.find? (·.2 = f) with
  | some (s, _) => .text s
  | none => .null

def ofJson? (j : Json) : Option AggregateOp := j.bareTag?.bind fun s => tags.lookup s

end AggregateOp

namespace Expr

def toJson : Expr → Json
  | column name index =>
    .tagged "Column" (.object [("name", .text name),
      ("index", match index with | some i => .integer i | none => .null)])
  | literal v => .tagged "Literal" v.toJson
  | binary l op r =>
    .tagged "BinaryExpr" (.object [("left", l.toJson), ("op", op.toJson), ("right", r.toJson)])
  | cast e t => .tagged "Cast" (.object [("expr", e.toJson), ("data_type", t.toJson)])

def indexOfJson? : Json → Option (Option Nat)
  | .null => some none
  | j => j.count?.map some

/-- A column, of the members that describe it. A position that is not given is none. -/
def columnOfMembers? (ms : List (String × Json)) : Option Expr := do
  let name ← (← ms.lookup "name").text?
  let index ← indexOfJson? ((ms.lookup "index").getD .null)
  some (column name index)

mutual

def ofJson? : Json → Option Expr
  | .object [("Column", .object ms)] => columnOfMembers? ms
  | .object [("Literal", payload)] => (Value.ofJson? payload).map literal
  | .object [("BinaryExpr", .object ms)] => do
    let parts := partsOfJson ms
    let l ← (parts.lookup "left").join
    let op ← BinaryOp.ofJson? (← ms.lookup "op")
    let r ← (parts.lookup "right").join
    some (binary l op r)
  | .object [("Cast", .object ms)] => do
    let e ← ((partsOfJson ms).lookup "expr").join
    let t ← DataType.ofJson? (← ms.lookup "data_type")
    some (cast e t)
  | _ => none

def partsOfJson : List (String × Json) → List (String × Option Expr)
  | [] => []
  | (name, j) :: ms => (name, ofJson? j) :: partsOfJson ms

end

end Expr

namespace Projection

def toJson (n : Projection) : Json := .object [("expr", n.expr.toJson), ("name", .text n.name)]

def ofJson? (j : Json) : Option Projection := do
  let ms ← j.record? ["expr", "name"] 2
  let expr ← Expr.ofJson? (← ms.lookup "expr")
  let name ← (← ms.lookup "name").text?
  some ⟨expr, name⟩

end Projection

namespace AggregateCall

def toJson (a : AggregateCall) : Json :=
  .object [("func", a.func.toJson), ("args", .array (a.args.map Expr.toJson)),
    ("name", .text a.name)]

def ofJson? (j : Json) : Option AggregateCall := do
  let ms ← j.record? ["func", "args", "name"] 3
  let func ← AggregateOp.ofJson? (← ms.lookup "func")
  let args ← (← (← ms.lookup "args").array?).mapM Expr.ofJson?
  let name ← (← ms.lookup "name").text?
  some ⟨func, args, name⟩

end AggregateCall
end BatchFlow

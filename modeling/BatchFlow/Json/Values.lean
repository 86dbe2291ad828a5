import BatchFlow.Json.Basic
import BatchFlow.Number.Rounding
import BatchFlow.Schema
import BatchFlow.Value.Basic

/-!
The JSON form of types, values and fields. A constructor is named by a tag: alone if it holds
nothing, as the one member of an object otherwise. A floating-point value that is no finite number
is written as `null` and cannot be read back.
-/
namespace BatchFlow

def IntWidth.tag : IntWidth → String
  | tiny => "TinyInt"
  | small => "SmallInt"
  | medium => "Int"
  | big => "BigInt"

def IntWidth.ofTag? (s : String) : Option IntWidth := [tiny, small, medium, big].find? (·.tag = s)

def Precision.tag : Precision → String
  | single => "Float"
  | double => "Double"

def Precision.ofTag? (s : String) : Option Precision := [single, double].find? (·.tag = s)

namespace Json

def tagged (tag : String) (payload : Json) : Json := object [(tag, payload)]

def bareTag? : Json → Option String
  | text s => some s
  | object [(s, null)] => some s
  | _ => none

end Json

namespace DataType

def tag? : DataType → Option String
  | boolean => some "Boolean"
  | integer w => some w.tag
  | floating p => some p.tag
  | text => some "Text"
  | array _ => none

def ofTag? (s : String) : Option DataType :=
  if s = "Boolean" then some boolean
  else if s = "Text" then some text
  else ((IntWidth.ofTag? s).map integer).or ((Precision.ofTag? s).map floating)

def toJson : DataType → Json
  | array t => .tagged "Array" t.toJson
  | t => match t.tag? with
    | some s => .text s
    | none => .null

def ofJson? : Json → Option DataType
  | .text s => ofTag? s
  | .object [(s, .null)] => ofTag? s
  | .object [(s, j)] => if s = "Array" then (ofJson? j).map array else none
  | _ => none

end DataType

namespace Binary

def toJson {p : Precision} (x : Binary p) : Json := if x.isFinite then .real x.toDouble else .null

def ofJson? (p : Precision) : Json → Option (Binary p)
  | .integer n => some (ofInt p n)
  | .real x => some (match p with | .single => x.convert .single | .double => x)
  | _ => none

end Binary

namespace Value

mutual

def toJson : Value → Json
  | null => .text "Null"
  | boolean b => .tagged "Boolean" (.boolean b)
  | integer w n => .tagged w.tag (.integer n.toInt)
  | floating p x => .tagged p.tag x.toJson
  | text s => .tagged "String" (.text s)
  | list items => .tagged "List" (.array (allToJson items))

def allToJson : List Value → List Json
  | [] => []
  | v :: vs => v.toJson :: allToJson vs

end

def ofTagged? (tag : String) (payload : Json) : Option Value :=
  if tag = "Null" then match payload with | .null => some null | _ => none
  else if tag = "Boolean" then payload.boolean?.map boolean
  else if tag = "String" then payload.text?.map text
  else match IntWidth.ofTag? tag, Precision.ofTag? tag with
    | some w, _ =>
      match payload with
      | .integer n => (Whole.ofInt? w n).map (integer w)
      | _ => none
    | none, some p => (Binary.ofJson? p payload).map (floating p)
    | none, none => none

mutual

def ofJson? : Json → Option Value
  | .text s => if s = "Null" then some null else none
  | .object [(tag, .array items)] =>
    if tag = "List" then (allOfJson? items).map list else ofTagged? tag (.array items)
  | .object [(tag, payload)] => ofTagged? tag payload
  | _ => none

def allOfJson? : List Json → Option (List Value)
  | [] => some []
  | j :: js => do
    let v ← ofJson? j
    let vs ← allOfJson? js
    some (v :: vs)

end

end Value

namespace Field

def toJson (f : Field) : Json :=
  .object [("name", .text f.name), ("data_type", f.dataType.toJson),
    ("nullable", .boolean f.nullable)]

def ofJson? (j : Json) : Option Field := do
  let ms ← j.record? ["name", "data_type", "nullable"] 3
  let name ← (← ms.lookup "name").text?
  let dataType ← DataType.ofJson? (← ms.lookup "data_type")
  let nullable ← (← ms.lookup "nullable").boolean?
  some ⟨name, dataType, nullable⟩

end Field
end BatchFlow

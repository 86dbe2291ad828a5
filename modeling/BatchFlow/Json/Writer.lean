import BatchFlow.Json.Basic
import BatchFlow.Number.Shortest

/-!
Writing JSON text. A double has a point even if it is whole, and is `null` if it is no finite
number.
-/
namespace BatchFlow.Json

def hexDigits (n : Nat) : List Char :=
  let digits := Nat.toDigits 16 n
  List.replicate (4 - digits.length) '0' ++ digits

def escape (c : Char) : List Char :=
  if c = '"' ∨ c = '\\' then ['\\', c]
  else if c.toNat < 0x20 then '\\' :: 'u' :: hexDigits c.toNat
  else [c]

def quote (s : String) : String := String.ofList ('"' :: s.toList.flatMap escape ++ ['"'])

def renderReal (x : Binary .double) : String :=
  if x.isFinite then
    let t := x.text
    if t.toList.contains '.' then t else t ++ ".0"
  else "null"

mutual

def render : Json → String
  | null => "null"
  | boolean b => if b then "true" else "false"
  | integer n => toString n
  | real x => renderReal x
  | text s => quote s
  | array items => "[" ++ ",".intercalate (renderItems items) ++ "]"
  | object members => "\x7b" ++ ",".intercalate (renderMembers members) ++ "\x7d"

def renderItems : List Json → List String
  | [] => []
  | v :: vs => v.render :: renderItems vs

def renderMembers : List (String × Json) → List String
  | [] => []
  | (name, v) :: ms => (quote name ++ ":" ++ v.render) :: renderMembers ms

end

end BatchFlow.Json

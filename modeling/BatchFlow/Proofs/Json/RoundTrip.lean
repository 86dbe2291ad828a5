import BatchFlow.Json.Exprs
import BatchFlow.Proofs.Number.Widening

/-!
Reading back the JSON document of an expression, a named expression or an aggregate call. What was
written comes back whole exactly if every floating-point number in it is finite. The document of any
other is refused, as an infinity and what is not a number are written as `null`.

A document is a tree here, and a number in it is kept as it is. Nothing is said of its text: digits
are read in double precision, so that the text of a finite number may be read as another one.
-/
namespace BatchFlow

/-! Types, operators and positions hold no such number and are read back always. -/

namespace DataType

theorem toJson_ne_null (t : DataType) : t.toJson ≠ .null := by
  cases t <;> simp [toJson, tag?, Json.tagged]

theorem ofTag?_tag {t : DataType} {s : String} (plain : t.tag? = some s) : ofTag? s = some t := by
  cases t with
  | boolean | text => cases plain; rfl
  | integer w => cases w <;> cases plain <;> rfl
  | floating p => cases p <;> cases plain <;> rfl
  | array t => cases plain

theorem ofJson?_toJson (t : DataType) : ofJson? t.toJson = some t := by
  induction t with
  | array t ih => simp [toJson, Json.tagged, ofJson?, toJson_ne_null, ih]
  | _ =>
    simp only [toJson, tag?, ofJson?]
    exact ofTag?_tag rfl

end DataType

theorem BinaryOp.ofJson?_toJson (op : BinaryOp) : ofJson? op.toJson = some op := by
  rcases op with op | op | op <;> cases op <;> rfl

theorem AggregateOp.ofJson?_toJson (f : AggregateOp) : ofJson? f.toJson = some f := by
  cases f <;> rfl

theorem Expr.indexOfJson?_integer (i : Nat) : indexOfJson? (.integer i) = some (some i) := by
  simp [indexOfJson?, Json.count?]

/-! Floating-point numbers and the values that hold them. -/

theorem Binary.ofJson?_toJson {p : Precision} (x : Binary p) :
    ofJson? p x.toJson = if x.isFinite then some x else none := by
  cases finite : x.isFinite with
  | false => simp [toJson, ofJson?, finite]
  | true =>
    cases p with
    | single => simp [toJson, ofJson?, finite, convert_toDouble]
    | double => simp [toJson, ofJson?, finite, toDouble]

namespace Value

mutual

/-- Every floating-point number of the value is finite. -/
def finite : Value → Bool
  | floating _ x => x.isFinite
  | list items => allFinite items
  | _ => true

def allFinite : List Value → Bool
  | [] => true
  | v :: vs => v.finite && allFinite vs

end

/-- A value that is no list is read by its tag, whatever stands under it. -/
theorem ofJson?_tagged {tag : String} (payload : Json) (other : tag ≠ "List") :
    ofJson? (.tagged tag payload) = ofTagged? tag payload := by
  cases payload <;> simp [Json.tagged, ofJson?, other]

theorem ofJson?_integer (w : IntWidth) (payload : Json) :
    ofJson? (.tagged w.tag payload) =
      match payload with
      | .integer n => (Whole.ofInt? w n).map (integer w)
      | _ => none := by
  rw [ofJson?_tagged payload (by cases w <;> decide)]
  cases w <;> rfl

theorem ofJson?_floating (p : Precision) (payload : Json) :
    ofJson? (.tagged p.tag payload) = (Binary.ofJson? p payload).map (floating p) := by
  rw [ofJson?_tagged payload (by cases p <;> decide)]
  cases p <;> rfl

mutual

theorem ofJson?_toJson : ∀ v : Value, ofJson? v.toJson = if v.finite then some v else none
  | null => rfl
  | boolean b => by cases b <;> rfl
  | integer w n => by simp [toJson, ofJson?_integer, finite]
  | floating p x => by
    rw [toJson, ofJson?_floating, Binary.ofJson?_toJson, finite]
    split <;> rfl
  | text s => rfl
  | list items => by
    rw [toJson, Json.tagged, ofJson?, if_pos rfl, allOfJson?_allToJson items, finite]
    split <;> rfl

theorem allOfJson?_allToJson :
    ∀ vs : List Value, allOfJson? (allToJson vs) = if allFinite vs then some vs else none
  | [] => rfl
  | v :: vs => by
    rw [allToJson, allOfJson?, ofJson?_toJson v, allOfJson?_allToJson vs, allFinite]
    cases v.finite <;> cases allFinite vs <;> rfl

end

end Value

namespace Expr

/-- Every floating-point number of the literals is finite. -/
def finite : Expr → Bool
  | column .. => true
  | literal v => v.finite
  | binary l _ r => l.finite && r.finite
  | cast e _ => e.finite

theorem ofJson?_column (name : String) (j : Json) :
    ofJson? (.tagged "Column" (.object [("name", .text name), ("index", j)])) =
      (indexOfJson? j).map (column name) := by
  rw [Json.tagged, ofJson?, Option.map_eq_bind]
  rfl

theorem ofJson?_literal (j : Json) :
    ofJson? (.tagged "Literal" j) = (Value.ofJson? j).map literal := by
  rw [Json.tagged, ofJson?]

theorem ofJson?_binary (l op r : Json) :
    ofJson? (.tagged "BinaryExpr" (.object [("left", l), ("op", op), ("right", r)])) =
      (ofJson? l).bind fun x => (BinaryOp.ofJson? op).bind fun o =>
        (ofJson? r).map fun y => binary x o y := by
  simp only [Json.tagged, ofJson?, partsOfJson, Option.map_eq_bind]
  rfl

theorem ofJson?_cast (e t : Json) :
    ofJson? (.tagged "Cast" (.object [("expr", e), ("data_type", t)])) =
      (ofJson? e).bind fun x => (DataType.ofJson? t).map fun u => cast x u := by
  simp only [Json.tagged, ofJson?, partsOfJson, Option.map_eq_bind]
  rfl

theorem ofJson?_toJson (e : Expr) : ofJson? e.toJson = if e.finite then some e else none := by
  induction e with
  | column name index =>
    cases index with
    | none => rfl
    | some i =>
      refine (ofJson?_column name (.integer i)).trans ?_
      rw [indexOfJson?_integer]
      rfl
  | literal v =>
    rw [toJson, ofJson?_literal, Value.ofJson?_toJson, finite]
    split <;> rfl
  | binary l op r left right =>
    rw [toJson, ofJson?_binary, left, BinaryOp.ofJson?_toJson, right, finite]
    cases l.finite <;> cases r.finite <;> rfl
  | cast e t operand =>
    rw [toJson, ofJson?_cast, operand, DataType.ofJson?_toJson, finite]
    split <;> rfl

/-- The arguments of a call are read in order, all of them or none. -/
theorem mapM_ofJson?_toJson (args : List Expr) :
    (args.map toJson).mapM ofJson? = if args.all finite then some args else none := by
  induction args with
  | nil => rfl
  | cons e es ih =>
    rw [List.map_cons, List.mapM_cons, ofJson?_toJson, ih, List.all_cons]
    cases e.finite <;> cases es.all finite <;> rfl

end Expr

theorem Projection.ofJson?_toJson (n : Projection) :
    ofJson? n.toJson = if n.expr.finite then some n else none := by
  have members : ofJson? n.toJson =
      (Expr.ofJson? n.expr.toJson).map fun e => ⟨e, n.name⟩ := by
    rw [Option.map_eq_bind]
    rfl
  rw [members, Expr.ofJson?_toJson]
  split <;> rfl

theorem AggregateCall.ofJson?_toJson (a : AggregateCall) :
    ofJson? a.toJson = if a.args.all Expr.finite then some a else none := by
  have members : ofJson? a.toJson =
      (AggregateOp.ofJson? a.func.toJson).bind fun f =>
        ((a.args.map Expr.toJson).mapM Expr.ofJson?).map fun args => ⟨f, args, a.name⟩ := by
    simp only [Option.map_eq_bind]
    rfl
  rw [members, AggregateOp.ofJson?_toJson, Expr.mapM_ofJson?_toJson]
  split <;> rfl

namespace Json

/-- An expression, a named expression and an aggregate call are read back from their JSON documents, as
trees and not as text, exactly if every floating-point number in their literals is finite; the document
of any other is refused. -/
theorem written_read_back (e : Expr) (n : Projection) (a : AggregateCall) :
    Expr.ofJson? e.toJson = (if e.finite then some e else none) ∧
      Projection.ofJson? n.toJson = (if n.expr.finite then some n else none) ∧
      AggregateCall.ofJson? a.toJson = if a.args.all Expr.finite then some a else none :=
  ⟨e.ofJson?_toJson, n.ofJson?_toJson, a.ofJson?_toJson⟩

/-- The literal of what is not a number is written with `null` in its place, and is refused. -/
theorem nan_refused :
    let e := Expr.literal (.floating .double (.nan .double false))
    e.toJson = .tagged "Literal" (.tagged "Double" .null) ∧ Expr.ofJson? e.toJson = none := by
  intro e
  have written : e.toJson = .tagged "Literal" (.tagged "Double" .null) := rfl
  refine ⟨written, ?_⟩
  rw [written, Expr.ofJson?_literal]
  rfl

end Json
end BatchFlow

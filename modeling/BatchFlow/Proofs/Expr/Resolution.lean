import BatchFlow.Proofs.Expr.Typing

/-!
Binding resolves names. Whatever positions an expression had before, binding puts in that of the
first field of each name, and refuses the first name that no field has; what a bound expression
comes to is what an evaluator comes to that looks up each name in the row.
-/
namespace BatchFlow

namespace Schema

variable {s : Schema} {row : Row} {name : String}

/-- What a row of the schema holds under a name: the value of the first field of that name. -/
def valueOf? (s : Schema) (row : Row) (name : String) : Option Value :=
  ((s.fields.zip row).find? fun (f, _) => f.name = name).map Prod.snd

theorem indexOf?_isSome : (s.indexOf? name).isSome = true ↔ name ∈ s.names := by
  simp [indexOf?, names, List.findIdx?_isSome]

theorem exists_indexOf? (known : name ∈ s.names) : ∃ i, s.indexOf? name = some i ∧ i < s.width := by
  obtain ⟨i, place⟩ := Option.isSome_iff_exists.mp (indexOf?_isSome.mpr known)
  exact ⟨i, place, (List.findIdx?_eq_some_iff_findIdx_eq.mp place).1⟩

theorem valueOf?_eq (s : Schema) (row : Row) (name : String) :
    s.valueOf? row name = (s.indexOf? name).bind (row[·]?) := by
  unfold valueOf? indexOf?
  generalize s.fields = fields
  induction fields generalizing row with
  | nil => rfl
  | cons f fields ih =>
    cases row with
    | nil => simp
    | cons v row =>
      rw [List.zip_cons_cons, List.find?_cons, List.findIdx?_cons]
      by_cases here : f.name = name
      · simp [here]
      · simpa [here, Option.bind_map, Function.comp_def] using ih row

end Schema

def EvalError.isLookup : EvalError → Bool
  | unbound _ | noSuchPosition _ => true
  | _ => false

namespace Expr

variable {s : Schema} {row : Row} {e b : Expr}

def names : Expr → List String
  | column name _ => [name]
  | literal _ => []
  | binary l _ r => l.names ++ r.names
  | cast e _ => e.names

/-- The expression with the position of the first field of its name for every column. -/
def resolve (s : Schema) : Expr → Expr
  | column name _ => column name (s.indexOf? name)
  | literal v => literal v
  | binary l op r => binary (l.resolve s) op (r.resolve s)
  | cast e t => cast (e.resolve s) t

/-- The value on a row of the schema, every column being looked up by its name. -/
def evalByName (s : Schema) (row : Row) : Expr → Except EvalError Value
  | column name _ =>
    match s.valueOf? row name with
    | some v => .ok v
    | none => .error (.unbound name)
  | literal v => .ok v
  | binary l op r => do
    let a ← l.evalByName s row
    let b ← r.evalByName s row
    op.apply a b
  | cast e t => do
    let v ← e.evalByName s row
    (v.cast t).mapError EvalError.cast

@[simp] theorem names_resolve (s : Schema) (e : Expr) : (e.resolve s).names = e.names := by
  induction e with
  | column | literal => rfl
  | binary l op r left right => rw [resolve, names, left, right, names]
  | cast e t ih => exact ih

/-- Of the positions put in for one schema none is left after those for another. -/
@[simp] theorem resolve_resolve (s₁ s : Schema) (e : Expr) :
    (e.resolve s₁).resolve s = e.resolve s := by
  induction e with
  | column | literal => rfl
  | binary l op r left right => simp only [resolve, left, right]
  | cast e t ih => simp only [resolve, ih]

def lacking? (s : Schema) (e : Expr) : Option String := e.names.find? (· ∉ s.names)

/-- Binding resolves every name, or refuses the first that the schema lacks. -/
theorem bind_eq (s : Schema) (e : Expr) :
    e.bind s =
      match e.lacking? s with
      | some name => .error (.missingColumn name inputPlace)
      | none => .ok (e.resolve s) := by
  induction e with
  | column name index =>
    cases place : s.indexOf? name with
    | none =>
      have lacking : name ∉ s.names := fun there => by
        simpa [place] using Schema.indexOf?_isSome.mpr there
      simp [bind, place, lacking?, names, lacking]
    | some i =>
      have there : name ∈ s.names := Schema.indexOf?_isSome.mp (by simp [place])
      simp [bind, place, lacking?, names, there, resolve]
  | literal v => rfl
  | binary l op r left right =>
    have either : (binary l op r).lacking? s = (l.lacking? s).or (r.lacking? s) :=
      List.find?_append
    rw [bind, left, right, either]
    cases l.lacking? s <;> cases r.lacking? s <;> rfl
  | cast e t ih =>
    rw [bind, ih, show (cast e t).lacking? s = e.lacking? s from rfl]
    cases e.lacking? s <;> rfl

theorem bind_ok_iff : e.bind s = .ok b ↔ (∀ name ∈ e.names, name ∈ s.names) ∧ b = e.resolve s := by
  have none : e.lacking? s = none ↔ ∀ name ∈ e.names, name ∈ s.names := by simp [lacking?]
  rw [bind_eq, ← none]
  cases e.lacking? s <;> simp [eq_comm]

/-- Positions are as good as names, on a row that has a value for each field. -/
theorem eval_resolve (whole : row.length = s.width) (known : ∀ name ∈ e.names, name ∈ s.names) :
    (e.resolve s).eval row = e.evalByName s row := by
  induction e with
  | column name index =>
    obtain ⟨i, place, inside⟩ := Schema.exists_indexOf? (known name (by simp [names]))
    rw [← whole] at inside
    simp [resolve, eval, evalByName, Schema.valueOf?_eq, place, inside]
  | literal v => rfl
  | binary l op r left right =>
    rw [names, List.forall_mem_append] at known
    rw [resolve, eval, left known.1, right known.2, evalByName]
  | cast e t ih => rw [resolve, eval, ih known, evalByName]

/-- Whatever the length of the row, the values found by positions are those found by names. -/
theorem eval_resolve_ok {v : Value} (known : ∀ name ∈ e.names, name ∈ s.names) :
    (e.resolve s).eval row = .ok v ↔ e.evalByName s row = .ok v := by
  induction e generalizing v with
  | column name index =>
    obtain ⟨i, place, -⟩ := Schema.exists_indexOf? (known name (by simp [names]))
    cases there : row[i]? <;> simp [resolve, eval, evalByName, Schema.valueOf?_eq, place, there]
  | literal v => rfl
  | binary l op r left right =>
    rw [names, List.forall_mem_append] at known
    simp only [resolve, eval, evalByName, bind_eq_ok, left known.1, right known.2]
  | cast e t ih =>
    simp only [resolve, eval, evalByName, bind_eq_ok, ih known]

/-- With a value for each field, no name of the schema is looked up in vain. -/
theorem evalByName_error {err : EvalError} (whole : row.length = s.width)
    (known : ∀ name ∈ e.names, name ∈ s.names) (failed : e.evalByName s row = .error err) :
    err.isLookup = false := by
  induction e generalizing err with
  | column name index =>
    obtain ⟨i, place, inside⟩ := Schema.exists_indexOf? (known name (by simp [names]))
    rw [← whole] at inside
    simp [evalByName, Schema.valueOf?_eq, place, inside] at failed
  | literal v => cases failed
  | binary l op r left right =>
    rw [names, List.forall_mem_append] at known
    rcases bind_eq_error.mp failed with failed | ⟨a, -, failed⟩
    · exact left known.1 failed
    · rcases bind_eq_error.mp failed with failed | ⟨b, -, failed⟩
      · exact right known.2 failed
      · obtain ⟨o, -, -, -, failed⟩ := BinaryOp.apply_error failed
        rcases ArithmeticOp.apply_error failed with rfl | ⟨_, _, rfl⟩ | ⟨rfl, -⟩ <;> rfl
  | cast e t ih =>
    rcases bind_eq_error.mp failed with failed | ⟨v, -, failed⟩
    · exact ih known failed
    · obtain ⟨cause, -, rfl⟩ := mapError_eq_error.mp failed
      rfl

/-- Binding finds the columns of an expression by their names: it succeeds exactly if the schema has
them all, the bound expression comes to what looking up the names comes to, and finds every column;
and what was bound for another schema before is bound no differently. -/
theorem bind_resolves (whole : row.length = s.width) (e : Expr) :
    ((∃ b, e.bind s = .ok b) ↔ ∀ name ∈ e.names, name ∈ s.names) ∧
      (∀ b, e.bind s = .ok b → b.eval row = e.evalByName s row ∧
        (∀ name, b.eval row ≠ .error (.unbound name)) ∧
          ∀ i, b.eval row ≠ .error (.noSuchPosition i)) ∧
      ∀ s₁ b₁, e.bind s₁ = .ok b₁ → b₁.bind s = e.bind s := by
  refine ⟨?_, fun b bound => ?_, fun s₁ b₁ bound => ?_⟩
  · simp [bind_ok_iff]
  · obtain ⟨known, rfl⟩ := bind_ok_iff.mp bound
    have same := eval_resolve whole known
    refine ⟨same, fun name failed => ?_, fun i failed => ?_⟩
    · cases evalByName_error whole known (same ▸ failed)
    · cases evalByName_error whole known (same ▸ failed)
  · obtain ⟨-, rfl⟩ := bind_ok_iff.mp bound
    rw [bind_eq, bind_eq, lacking?, names_resolve, resolve_resolve, lacking?]

/-- Two fields have the name `x`, and the positions written down are those of another schema. -/
theorem bind_resolves_sample :
    let field (name : String) : Field := ⟨name, .boolean, true⟩
    let s : Schema := ⟨[field "x", field "y", field "x"]⟩
    let row : Row := [.boolean true, .boolean true, .boolean false]
    let e : Expr := .binary (.column "x" (some 2)) (.logic .and) (.column "y" (some 0))
    ∃ b, row.length = s.width ∧ e.bind s = .ok b ∧ b.eval row = e.evalByName s row ∧
      e.evalByName s row = .ok (.boolean true) ∧ b.bind ⟨[field "y"]⟩ = e.bind ⟨[field "y"]⟩ := by
  intro field s row e
  have bound : e.bind s = .ok (e.resolve s) := rfl
  have whole : row.length = s.width := rfl
  have alone : ([.null] : Row).length = Schema.width ⟨[field "y"]⟩ := rfl
  have resolved := bind_resolves whole e
  have elsewhere := bind_resolves alone e
  exact ⟨e.resolve s, whole, bound, (resolved.2.1 _ bound).1, rfl, elsewhere.2.2 s _ bound⟩

end Expr
end BatchFlow

import Mathlib.Logic.Relation
import BatchFlow.Proofs.Batch.RecordCount

/-!
The schema of a batch against its columns. Names are looked up in the schema, and columns are changed
apart from it; still both have the same names and types in the same order, whatever happens to the
batch. The version counts the changes of that shape, so it tells whether the shape has changed.
-/
namespace BatchFlow

def Column.shape (c : Column) : String × DataType := (c.field.name, c.field.dataType)

namespace Column

theorem field_empty (field : Field) (origin : Option Nat) : (empty field origin).field = field := by
  unfold empty
  split <;> rfl

theorem shape_empty (field : Field) (origin : Option Nat) :
    (empty field origin).shape = (field.name, field.dataType) := by
  rw [shape, field_empty]

theorem shape_left (c : Column) (origin : Option Nat) : (c.take origin).2.shape = c.shape := by
  cases c <;> rfl

theorem shape_clear (c : Column) (origin : Option Nat) : (c.clear origin).shape = c.shape := by
  cases c <;> rfl

theorem sameShape_iff {c : Column} {field : Field} :
    c.field.sameShape field = true ↔ c.shape = (field.name, field.dataType) := by
  simp [Field.sameShape, shape]

theorem shapes_set {columns : List Column} {i : Nat} {c c' : Column} {α : Type}
    {f : String × DataType → α} (there : columns[i]? = some c) (same : f c'.shape = f c.shape) :
    (columns.set i c').map (fun c => f c.shape) = columns.map fun c => f c.shape := by
  have here : (columns.map fun c => f c.shape)[i]? = some (f c.shape) := by simp [there]
  obtain ⟨inside, self⟩ := List.getElem?_eq_some_iff.mp here
  rw [List.map_set, same, ← self, List.set_getElem_self]

end Column

namespace Batch

/-- Field by field and column by column, the schema has the names and types of the columns. -/
def Aligned (b : Batch) : Prop := b.schema.shape = b.columns.map Column.shape

inductive Created : Batch → Prop
  | ofColumns {s : Schema} {columns : List Column} {b : Batch}
      (built : Batch.ofColumns s columns = .ok b) : Created b
  | ofRows {s : Schema} {rows : List Row} {b : Batch} (built : Batch.ofRows s rows = .ok b) :
      Created b
  | empty (s : Schema) : Created (.empty s)

/-- What may happen to a batch. A column may be filled by whoever asked for it, and keeps its field;
after a batch has been taken, both what was taken and what is left may be used. -/
inductive Step : Batch → Batch → Prop
  | resize {b b' : Batch} {count : Nat} (resized : b.resize count = .ok b') : Step b b'
  | ensureColumn (b : Batch) (field : Field) (flag : ChangeFlag) :
      Step b (b.ensureColumn field flag).1
  | fill {b : Batch} {i : Nat} {c c' : Column} (there : b.columns[i]? = some c)
      (kept : c'.field = c.field) : Step b (b.setColumn i c')
  | select (b : Batch) (s : Selection) : Step b (b.select s)
  | taken (b : Batch) : Step b b.take.1
  | left (b : Batch) : Step b b.take.2
  | clear (b : Batch) : Step b b.clear

variable {b b' : Batch} {field : Field} {flag : ChangeFlag} {name : String} {i : Nat} {c : Column}

/-! Looking up names. -/

theorem indexOf?_names (s : Schema) (name : String) :
    s.indexOf? name = s.names.findIdx? (· = name) := by
  rw [Schema.names, List.findIdx?_map]
  rfl

theorem Aligned.names_eq (aligned : b.Aligned) : b.schema.names = b.columns.map (·.shape.1) := by
  have names := congrArg (List.map Prod.fst) aligned
  simpa [Schema.shape, Schema.names, Function.comp_def] using names

theorem Aligned.indexOf?_eq (aligned : b.Aligned) (name : String) :
    b.schema.indexOf? name = b.columns.findIdx? (·.field.name = name) := by
  rw [indexOf?_names, aligned.names_eq, List.findIdx?_map]
  rfl

theorem Aligned.columnNamed?_eq (aligned : b.Aligned) (name : String) :
    b.columnNamed? name = b.columns.find? (·.field.name = name) := by
  rw [columnNamed?, aligned.indexOf?_eq, List.find?_eq_bind_findIdx?_getElem?]

theorem Aligned.exists_column (aligned : b.Aligned) (place : b.schema.indexOf? name = some i) :
    ∃ c, b.columns[i]? = some c ∧ c.field.name = name := by
  rw [aligned.indexOf?_eq] at place
  obtain ⟨inside, named, -⟩ := List.findIdx?_eq_some_iff_getElem.mp place
  exact ⟨b.columns[i], List.getElem?_eq_getElem inside, by simpa using named⟩

/-! Asking for a column. -/

/-- What asking for a column of a field comes to. -/
structure Ensured (b : Batch) (field : Field) (flag : ChangeFlag) (b' : Batch) (flag' : ChangeFlag)
    (i : Nat) : Prop where
  given : ∃ c, b'.columns[i]? = some c ∧ b'.columnNamed? field.name = some c ∧
    c.field.name = field.name ∧ c.field.dataType = field.dataType
  others : (∀ j, j ≠ i → b'.columns[j]? = b.columns[j]?) ∧ b'.numRows = b.numRows ∧
    b'.selection = b.selection
  -- Where the shape of the schema is as before, everything is.
  kept : b'.schema.shape = b.schema.shape → b' = b ∧ flag' = flag
  -- Where it is not, the flag is raised, the version is the next one, and the column is new.
  changed : b'.schema.shape ≠ b.schema.shape →
    flag' = flag.raise ∧ b'.schemaVersion = b.schemaVersion + 1 ∧
      b'.columns[i]? = some (.empty field none)
  -- Asked again, the batch has the column already.
  again : ∀ flag, b'.ensureColumn field flag = (b', flag, i)

theorem ensureColumn_present (place : b.schema.indexOf? field.name = some i)
    (there : b.columns[i]? = some c) (same : c.shape = (field.name, field.dataType))
    (flag : ChangeFlag) : b.ensureColumn field flag = (b, flag, i) := by
  simp [ensureColumn, place, there, Column.sameShape_iff.mpr same]

theorem given_present (place : b.schema.indexOf? field.name = some i)
    (there : b.columns[i]? = some c) (same : c.shape = (field.name, field.dataType)) :
    ∃ c, b.columns[i]? = some c ∧ b.columnNamed? field.name = some c ∧
      c.field.name = field.name ∧ c.field.dataType = field.dataType := by
  refine ⟨c, there, ?_, congrArg Prod.fst same, congrArg Prod.snd same⟩
  rw [columnNamed?, place, Option.bind_some, there]

theorem ensured_present (place : b.schema.indexOf? field.name = some i)
    (there : b.columns[i]? = some c) (same : c.shape = (field.name, field.dataType)) :
    Ensured b field flag b flag i where
  given := given_present place there same
  others := ⟨fun _ _ => rfl, rfl, rfl⟩
  kept _ := ⟨rfl, rfl⟩
  changed other := absurd rfl other
  again := ensureColumn_present place there same

theorem aligned_withColumns (b : Batch) (columns : List Column) : (b.withColumns columns).Aligned := by
  simp [Aligned, withColumns, Schema.shape, Column.shape, Function.comp_def]

theorem shape_withColumns (b : Batch) (columns : List Column) :
    (b.withColumns columns).schema.shape = columns.map Column.shape := aligned_withColumns b columns

/-- Other columns, with an empty one of the field in a place where it is the first of its name. -/
theorem ensured_new {columns : List Column}
    (place : (b.withColumns columns).schema.indexOf? field.name = some i)
    (there : columns[i]? = some (.empty field none))
    (others : ∀ j, j ≠ i → columns[j]? = b.columns[j]?)
    (other : (b.withColumns columns).schema.shape ≠ b.schema.shape) :
    Ensured b field flag (b.withColumns columns) flag.raise i where
  given := given_present place there (Column.shape_empty field none)
  others := ⟨others, rfl, rfl⟩
  kept same := absurd same other
  changed _ := ⟨rfl, rfl, there⟩
  again := ensureColumn_present place there (Column.shape_empty field none)

theorem Aligned.ensured (aligned : b.Aligned) (field : Field) (flag : ChangeFlag) :
    Ensured b field flag (b.ensureColumn field flag).1 (b.ensureColumn field flag).2.1
      (b.ensureColumn field flag).2.2 := by
  cases place : b.schema.indexOf? field.name with
  | some i =>
    obtain ⟨c, there, named⟩ := aligned.exists_column place
    by_cases same : c.shape = (field.name, field.dataType)
    · rw [ensureColumn_present place there same]
      exact ensured_present place there same
    · -- The column is replaced. Its name stays, so it is still the first of that name.
      have new : b.ensureColumn field flag =
          (b.withColumns (b.columns.set i (.empty field none)), flag.raise, i) := by
        simp [ensureColumn, place, there, mt Column.sameShape_iff.mp same]
      have name : (Column.empty field none).shape.1 = c.shape.1 := by
        rw [Column.shape_empty]
        exact named.symm
      have inside : i < b.columns.length := (List.getElem?_eq_some_iff.mp there).1
      rw [new]
      refine ensured_new ?_ (List.getElem?_set_self inside) (fun j other => ?_) fun shape => same ?_
      · have names := Column.shapes_set (f := Prod.fst) there name
        rw [indexOf?_names, (aligned_withColumns b _).names_eq]
        change (List.map _ (b.columns.set i _)).findIdx? _ = _
        rw [names, ← aligned.names_eq, ← indexOf?_names, place]
      · exact List.getElem?_set_ne (Ne.symm other)
      · rw [shape_withColumns, aligned] at shape
        have here := congrArg (·[i]?) shape
        simpa only [List.getElem?_map, List.getElem?_set_self inside, there, Option.map_some,
          Option.some.injEq, Column.shape_empty, eq_comm] using here
  | none =>
    have new : b.ensureColumn field flag =
        (b.withColumns (b.columns ++ [.empty field none]), flag.raise, b.columns.length) := by
      simp [ensureColumn, place]
    rw [new]
    refine ensured_new ?_ (by simp) (fun j other => ?_) fun shape => ?_
    · rw [aligned.indexOf?_eq] at place
      rw [(aligned_withColumns b _).indexOf?_eq]
      simp [withColumns, List.findIdx?_append, place, Column.field_empty]
    · rcases Nat.lt_or_gt_of_ne other with inside | past
      · exact List.getElem?_append_left inside
      · have short : (b.columns ++ [Column.empty field none]).length ≤ j := by
          rw [List.length_append]
          exact past
        rw [List.getElem?_eq_none short, List.getElem?_eq_none (Nat.le_of_lt past)]
    · rw [shape_withColumns, aligned] at shape
      simpa using congrArg List.length shape

/-! Whatever happens to a batch. -/

theorem aligned_ofColumns {s : Schema} {columns : List Column}
    (built : ofColumns s columns = .ok b) : b.Aligned := by
  obtain ⟨rfl, rfl, width, -, -⟩ := ofColumns_ok built
  unfold ofColumns at built
  rw [if_neg (not_not.mpr width)] at built
  split at built
  · cases built
  next same =>
    refine map_eq_map_of_forall₂ (List.forall₂_iff_zip.mpr ⟨width.symm, fun {f c} member => ?_⟩)
    have here := List.find?_eq_none.mp same (f, c) member
    simpa [Field.sameShape, Column.shape] using here

theorem Created.aligned (created : Created b) : b.Aligned := by
  cases created with
  | ofColumns built => exact aligned_ofColumns built
  | ofRows built =>
    obtain ⟨_, -, built⟩ := bind_eq_ok.mp built
    obtain ⟨_, -, built⟩ := bind_eq_ok.mp built
    exact aligned_ofColumns built
  | empty s => simp [Aligned, Batch.empty, Schema.shape, Column.shape_empty, Function.comp_def]

/-- Asking for a column leaves the batch as it is, or gives it other columns. -/
theorem ensureColumn_batch (b : Batch) (field : Field) (flag : ChangeFlag) :
    (b.ensureColumn field flag).1 = b ∨
      ∃ columns, (b.ensureColumn field flag).1 = b.withColumns columns := by
  unfold ensureColumn
  split
  · split
    · split
      · exact .inl rfl
      · exact .inr ⟨_, rfl⟩
    · exact .inl rfl
  · exact .inr ⟨_, rfl⟩

theorem resize_ok {count : Nat} (resized : b.resize count = .ok b') :
    b' = { b with numRows := count } := by
  rcases b.resize_cases count with ⟨_, -, -, refused⟩ | ⟨-, done⟩
  · rw [refused] at resized
    cases resized
  · exact Except.ok.inj (resized.symm.trans done)

theorem Step.aligned (step : Step b b') (aligned : b.Aligned) : b'.Aligned := by
  cases step with
  | resize resized =>
    rw [resize_ok resized]
    exact aligned
  | ensureColumn field flag =>
    rcases b.ensureColumn_batch field flag with same | ⟨columns, new⟩
    · rwa [same]
    · rw [new]
      exact aligned_withColumns b columns
  | fill there kept =>
    have shape := congrArg (fun f : Field => (f.name, f.dataType)) kept
    exact aligned.trans (Column.shapes_set (f := id) there shape).symm
  | select | taken => exact aligned
  | left =>
    rw [Aligned, take, List.map_map]
    exact aligned.trans (List.map_congr_left fun c _ => (c.shape_left none).symm)
  | clear =>
    rw [Aligned, Batch.clear, List.map_map]
    exact aligned.trans (List.map_congr_left fun c _ => (c.shape_clear none).symm)

/-- The version never goes back, and while it stays so does the shape. -/
def Precedes (b b' : Batch) : Prop :=
  b.schemaVersion ≤ b'.schemaVersion ∧
    (b'.schemaVersion = b.schemaVersion → b'.schema.shape = b.schema.shape)

theorem Precedes.trans {b'' : Batch} (first : b.Precedes b') (second : b'.Precedes b'') :
    b.Precedes b'' := by
  refine ⟨Nat.le_trans first.1 second.1, fun same => ?_⟩
  have back : b'.schemaVersion ≤ b.schemaVersion := same ▸ second.1
  have between := Nat.le_antisymm back first.1
  exact (second.2 (same.trans between.symm)).trans (first.2 between)

theorem Step.precedes (step : Step b b') : b.Precedes b' := by
  cases step with
  | resize resized =>
    rw [resize_ok resized]
    exact ⟨Nat.le_refl _, fun _ => rfl⟩
  | ensureColumn field flag =>
    rcases b.ensureColumn_batch field flag with same | ⟨columns, new⟩
    · rw [same]
      exact ⟨Nat.le_refl _, fun _ => rfl⟩
    · rw [new]
      exact ⟨Nat.le_succ _, fun same => absurd same (Nat.succ_ne_self _)⟩
  | fill | select | taken | left | clear => exact ⟨Nat.le_refl _, fun _ => rfl⟩

variable {b₀ : Batch}

theorem aligned_of_steps (aligned : b₀.Aligned) (steps : Relation.ReflTransGen Step b₀ b) :
    b.Aligned := by
  induction steps with
  | refl => exact aligned
  | tail _ step ih => exact step.aligned ih

theorem precedes_of_steps (steps : Relation.ReflTransGen Step b b') : b.Precedes b' := by
  induction steps with
  | refl => exact ⟨Nat.le_refl _, fun _ => rfl⟩
  | tail _ step ih => exact ih.trans step.precedes

/-- Whatever happens to a batch, its schema has a field for each column, of the same name and type, and
a name finds the first column of that name. A column that is asked for is there afterwards, the
others stay, and flag and version tell exactly whether the shape of the schema has changed. So two
states of a batch with one version have one shape. -/
theorem schema_follows_columns (created : Created b₀) (steps : Relation.ReflTransGen Step b₀ b) :
    b.schema.width = b.columns.length ∧
      (∀ (i : Nat) (f : Field) (c : Column), b.schema.fields[i]? = some f → b.columns[i]? = some c →
        f.name = c.field.name ∧ f.dataType = c.field.dataType) ∧
      (∀ name, b.columnNamed? name = b.columns.find? (·.field.name = name)) ∧
      (∀ field flag, Ensured b field flag (b.ensureColumn field flag).1
        (b.ensureColumn field flag).2.1 (b.ensureColumn field flag).2.2) ∧
      ∀ b', Relation.ReflTransGen Step b b' → b'.schemaVersion = b.schemaVersion →
        b'.schema.shape = b.schema.shape := by
  have aligned := aligned_of_steps created.aligned steps
  refine ⟨?width, fun i f c field column => ?_, aligned.columnNamed?_eq, aligned.ensured,
    fun b' later => (precedes_of_steps later).2⟩
  case width => simpa [Schema.shape, Schema.width] using congrArg List.length aligned
  have here := congrArg (·[i]?) aligned
  simpa [Schema.shape, Column.shape, field, column] using here

/-- Two columns have one name, the first of another type than the one asked for. -/
theorem replaced_first_of_two :
    let field (t : DataType) : Field := ⟨"a", t, true⟩
    let b₀ : Batch := .empty ⟨[field .text, field .boolean]⟩
    let b := (b₀.ensureColumn (field .boolean) .lowered).1
    Created b₀ ∧ Relation.ReflTransGen Step b₀ b ∧ b.schema.width = b.columns.length ∧
      b.schema.shape = [("a", .boolean), ("a", .boolean)] ∧
      (b.ensureColumn (field .boolean) .lowered) = (b, .lowered, 0) ∧
      (∀ b', Relation.ReflTransGen Step b b' → b'.schemaVersion = 1 →
        b'.schema.shape = [("a", .boolean), ("a", .boolean)]) := by
  intro field b₀ b
  have created : Created b₀ := .empty _
  have steps : Relation.ReflTransGen Step b₀ b := .single (.ensureColumn b₀ _ _)
  obtain ⟨width, -, -, -, versions⟩ := schema_follows_columns created steps
  obtain ⟨-, -, -, ensured, -⟩ := schema_follows_columns created .refl
  exact ⟨created, steps, width, rfl, (ensured (field .boolean) .lowered).again .lowered, versions⟩

end Batch
end BatchFlow

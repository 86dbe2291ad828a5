import BatchFlow.Proofs.Batch.RecordCount
import BatchFlow.Proofs.Vector.Partition
import BatchFlow.Stream.Expansion

/-! One call of an expansion, into the empty batch that an operator keeps for it. -/
namespace BatchFlow

/-- A batch of one flat column that shows these values. -/
structure Batch.Shows (b : Batch) (field : Field) (values : List Value) : Prop where
  schema : b.schema = ⟨[field]⟩
  selection : b.selection = none
  numRows : b.numRows = values.length
  column : ∃ w : Window, b.columns = [.flat ⟨field, w⟩] ∧ w.toList = values

namespace Batch.Shows

variable {b : Batch} {field : Field} {values : List Value}

theorem row?_shown (shows : b.Shows field values) (i : Nat) (r : Row)
    (there : (values.map fun v => [v])[i]? = some r) : b.row? i = some r := by
  obtain ⟨w, columns, held⟩ := shows.column
  obtain ⟨v, source, rfl⟩ : ∃ v, values[i]? = some v ∧ [v] = r := by simpa using there
  apply row?_eq_some
  · rw [shows.numRows]
    exact (List.getElem?_eq_some_iff.mp source).1
  · rw [columns]
    refine .cons ?_ .nil
    rw [← source, ← held, Window.getElem?_toList]
    rfl

theorem rows_shown (shows : b.Shows field values) : b.rows = values.map fun v => [v] :=
  rows_eq (by simpa using shows.numRows) shows.row?_shown

theorem empty_shows (flat : field.dataType.isRepeated = false) :
    (Batch.empty ⟨[field]⟩).Shows field [] := by
  refine ⟨rfl, rfl, rfl, .empty none, ?_, Window.toList_empty none⟩
  simp [Batch.empty, Column.empty, flat]
  rfl

end Batch.Shows

theorem Column.take_empty (field : Field) :
    (Column.empty field none).take none = (.empty field none, .empty field none) := by
  cases many : field.dataType.isRepeated <;> simp [empty, take, many] <;> rfl

theorem Batch.take_empty (s : Schema) : (Batch.empty s).take = (.empty s, .empty s) := by
  simp [take, empty, Column.take_empty]

theorem Batch.mem_setColumn {b : Batch} {i : Nat} {c c' : Column}
    (member : c ∈ (b.setColumn i c').columns) :
    c = c' ∨ ∃ j, j ≠ i ∧ b.columns[j]? = some c := by
  obtain ⟨j, there⟩ := List.mem_iff_getElem?.mp member
  rw [setColumn, List.getElem?_set] at there
  by_cases same : i = j
  · rw [if_pos same] at there
    split at there
    · exact .inl (Option.some.inj there).symm
    · cases there
  · rw [if_neg same] at there
    exact .inr ⟨j, Ne.symm same, there⟩

def Batch.valuesNamed (b : Batch) (name : String) : List Value :=
  match b.columnNamed? name with
  | some (.flat w) => w.toList
  | _ => []

namespace Expansion

variable {x x' : Expansion} {v : ListVector} {row requested n : Nat} {out out' : Batch}

def madeField (v : ListVector) : Field := ⟨v.field.name, v.inner.field.dataType, true⟩

def step (x : Expansion) (v : ListVector) (row requested : Nat) : Nat :=
  min (min (v.countAt row - x.made row) x.rowCap) requested

/-- The values that one call makes: those that follow the ones already made. -/
def part (x : Expansion) (v : ListVector) (row requested : Nat) : List Value :=
  ((v.valuesAt row).drop (x.made row)).take (x.step v row requested)

theorem step_le (x : Expansion) (v : ListVector) (row requested : Nat) :
    x.step v row requested ≤ v.countAt row - x.made row :=
  Nat.le_trans (Nat.min_le_left ..) (Nat.min_le_left ..)

theorem length_part (x : Expansion) (v : ListVector) (row requested : Nat) :
    (x.part v row requested).length = x.step v row requested := by
  rw [part, List.length_take, List.length_drop, ListVector.length_valuesAt]
  exact Nat.min_eq_left (x.step_le v row requested)

theorem part_shown {w : FlatVector}
    (sliced : v.inner.slice (v.offsetAt row + x.made row) (x.step v row requested) = .ok w) :
    w.window.toList = x.part v row requested ∧ w.length = x.step v row requested := by
  have count := x.step_le v row requested
  rw [FlatVector.slice] at sliced
  split at sliced
  next inside =>
    obtain rfl := Except.ok.inj sliced
    refine ⟨?_, rfl⟩
    have short : min (x.step v row requested) (v.countAt row - x.made row) =
        x.step v row requested := Nat.min_eq_left count
    rw [Window.toList_slice]
    change (v.inner.toList.drop _).take _ = _
    rw [part, ListVector.valuesAt, List.drop_take, List.take_take, List.drop_drop, short]
  · cases sliced

theorem exists_sliced (requested : Nat) (within : x.made row ≤ v.countAt row) :
    ∃ w, v.inner.slice (v.offsetAt row + x.made row) (x.step v row requested) = .ok w := by
  have bound := v.offsetAt_add_countAt_le row
  have count := x.step_le v row requested
  have inside : v.offsetAt row + x.made row + x.step v row requested ≤ v.inner.window.length := by
    change _ ≤ v.inner.length
    omega
  exact ⟨_, dif_pos inside⟩

def Early : Fault → Prop
  | .missingColumn .. | .argument (.recordCount ..) => False
  | _ => True

inductive Filled (out : Batch) (field : Field) (w : Window) : Except Fault Unit × Batch → Prop
  | done (i : Nat) (dst : FlatVector) (place : out.schema.indexOf? field.name = some i)
      (there : out.columns[i]? = some (.flat dst)) (shape : dst.field.sameShape field = true) :
      Filled out field w (.ok (), out.setColumn i (.flat { dst with window := w }))
  | kept (e : Fault) (early : Early e) : Filled out field w (.error e, out)
  | lacking (i : Nat) (place : out.schema.indexOf? field.name = some i)
      (gone : out.columns[i]? = none) :
      Filled out field w (.error (.missingColumn field.name "outgoing batch"), out)
  | added (missing : ∀ c, out.columnNamed? field.name = some c → c.field.name ≠ field.name)
      (raised : (out.ensureColumn field .lowered).2.1.raised = true) :
      Filled out field w
        (.error (.missingColumn field.name "outgoing batch"), (out.ensureColumn field .lowered).1)

theorem fill_filled (out : Batch) (field : Field) (w : Window) :
    Filled out field w (fill out field w) := by
  rw [fill]
  simp only
  split
  · exact .kept _ trivial
  next alike =>
    cases place : out.schema.indexOf? field.name with
    | none =>
      have raised : (out.ensureColumn field .lowered).2.1.raised = true := by
        rw [Batch.ensureColumn, place]
        rfl
      rw [if_pos raised]
      exact .added (fun c named => by simp [Batch.columnNamed?, place] at named) raised
    | some i =>
      cases there : out.columns[i]? with
      | none =>
        have same : out.ensureColumn field .lowered = (out, .lowered, i) := by
          simp [Batch.ensureColumn, place, there]
        simp only [same, there]
        exact .lacking i place there
      | some c =>
        have named : out.columnNamed? field.name = some c := by
          simp [Batch.columnNamed?, place, there]
        by_cases shape : c.field.sameShape field = true
        · have same : out.ensureColumn field .lowered = (out, .lowered, i) := by
            simp [Batch.ensureColumn, place, there, shape]
          simp only [same, there]
          cases c with
          | flat dst => exact .done i dst place there shape
          | repeated _ => exact .kept _ trivial
        · have raised : (out.ensureColumn field .lowered).2.1.raised = true := by
            simp [Batch.ensureColumn, place, there, shape, ChangeFlag.raise]
          rw [if_pos raised]
          refine .added (fun c' named' other => shape ?_) raised
          obtain rfl : c = c' := Option.some.inj (named.symm.trans named')
          simpa [named, Field.sameShape, other] using alike

inductive Called (x : Expansion) (row requested : Nat) (out : Batch) :
    Except Fault Nat × Expansion × Batch → Prop
  | made (v : ListVector) (i : Nat) (dst : FlatVector) (w : Window) (ready : x.ready = true)
      (column : x.column = some v) (inside : row < v.length)
      (place : out.schema.indexOf? (madeField v).name = some i)
      (there : out.columns[i]? = some (.flat dst)) (shape : dst.field.sameShape (madeField v) = true)
      (shown : w.toList = x.part v row requested) :
      Called x row requested out (.ok (x.step v row requested),
        { x with progress := some ⟨row, x.made row + x.step v row requested⟩ },
        { out.setColumn i (.flat { dst with window := w }) with numRows := x.step v row requested })
  | kept (e : Fault) (early : Early e) : Called x row requested out (.error e, x, out)
  | lacking (v : ListVector) (i : Nat) (place : out.schema.indexOf? (madeField v).name = some i)
      (gone : out.columns[i]? = none) :
      Called x row requested out
        (.error (.missingColumn (madeField v).name "outgoing batch"), x, out)
  | added (v : ListVector) (column : x.column = some v)
      (missing : ∀ c, out.columnNamed? (madeField v).name = some c →
        c.field.name ≠ (madeField v).name)
      (raised : (out.ensureColumn (madeField v) .lowered).2.1.raised = true) :
      Called x row requested out (.error (.missingColumn (madeField v).name "outgoing batch"), x,
        (out.ensureColumn (madeField v) .lowered).1)
  -- It is refused because another column is too short, and the values have been put in.
  | overwritten (v : ListVector) (i : Nat) (dst : FlatVector) (w : Window) (c : Column)
      (column : x.column = some v) (place : out.schema.indexOf? (madeField v).name = some i)
      (there : out.columns[i]? = some (.flat dst))
      (shown : w.toList = x.part v row requested) (length : w.length = x.step v row requested)
      (member : c ∈ (out.setColumn i (.flat { dst with window := w })).columns)
      (short : c.length < x.step v row requested) :
      Called x row requested out
        (.error (.argument (.recordCount (x.step v row requested) c.length c.field.name)), x,
          out.setColumn i (.flat { dst with window := w }))

theorem expand_called (x : Expansion) (row requested : Nat) (out : Batch) :
    Called x row requested out (x.expand row requested out) := by
  rw [expand]
  split
  next v field ready column output =>
    obtain rfl : madeField v = field := by
      rw [outputField?, column] at output
      exact Option.some.inj output
    have steps : min (min (v.countAt row - x.made row) x.rowCap) requested =
        x.step v row requested := rfl
    by_cases outside : v.length ≤ row
    · rw [if_pos outside]
      exact .kept _ trivial
    · rw [if_neg outside]
      simp only [steps]
      split
      next e refused =>
        refine .kept e ?_
        rw [FlatVector.slice] at refused
        split at refused
        · cases refused
        · obtain rfl := Except.error.inj refused
          trivial
      next w sliced =>
        obtain ⟨shown, length⟩ := part_shown sliced
        have filled := fill_filled out (madeField v) w.window
        split <;> rename_i result <;> rw [result] at filled
        · cases filled with
          | kept _ early => exact .kept _ early
          | lacking i place gone => exact .lacking v i place gone
          | added missing raised => exact .added v column missing raised
        · obtain ⟨i, dst, place, there, shape⟩ := filled
          rcases (out.setColumn i (.flat { dst with window := w.window })).resize_cases
              (x.step v row requested) with ⟨c, member, short, resized⟩ | ⟨-, resized⟩ <;> rw [resized]
          · exact .overwritten v i dst w.window c column place there shown length member short
          · exact .made v i dst w.window ready column (Nat.not_le.mp outside) place there shape shown
  · exact .kept _ trivial

/-- The batch of a call that succeeds counts and shows the part of the row. -/
theorem expand_made (made : x.expand row requested out = (.ok n, x', out')) :
    ∃ v, x.ready = true ∧ x.column = some v ∧ n = x.step v row requested ∧
      x' = { x with progress := some ⟨row, x.made row + n⟩ } ∧ out'.numRows = n ∧
      out'.valuesNamed (madeField v).name = x.part v row requested := by
  have called := x.expand_called row requested out
  rw [made] at called
  obtain ⟨v, i, dst, w, ready, column, inside, place, there, shape, values⟩ := called
  refine ⟨v, ready, column, rfl, rfl, rfl, ?_⟩
  have within : i < out.columns.length := (List.getElem?_eq_some_iff.mp there).1
  simpa [Batch.valuesNamed, Batch.columnNamed?, Batch.setColumn, place, within, FlatVector.toList]
    using values

theorem fill_into {field : Field} {i : Nat} {dst : FlatVector} (w : Window)
    (place : out.schema.indexOf? field.name = some i) (there : out.columns[i]? = some (.flat dst))
    (shape : dst.field.sameShape field = true) :
    fill out field w = (.ok (), out.setColumn i (.flat { dst with window := w })) := by
  have type : dst.field.dataType = field.dataType := by
    rw [Field.sameShape, Bool.and_eq_true] at shape
    exact of_decide_eq_true shape.2
  have found : out.columnNamed? field.name = some (.flat dst) := by
    simp [Batch.columnNamed?, place, there]
  have same : out.ensureColumn field .lowered = (out, .lowered, i) := by
    rw [Batch.ensureColumn, place]
    simp only [there, Column.field, shape, if_true]
  have clashless : (do
      let c ← out.columnNamed? field.name
      if c.field.dataType ≠ field.dataType then some c.field.dataType else none) = none := by
    simp [found, Column.field, type]
  simp only [fill, clashless, same, there]
  rfl

/-- A call makes the values that follow those already made, as many as the bounds allow, where there
is a flat column for them and no other column is too short. -/
theorem expand_into {i : Nat} {dst : FlatVector} (ready : x.ready = true)
    (column : x.column = some v) (inside : row < v.length) (within : x.made row ≤ v.countAt row)
    (place : out.schema.indexOf? (madeField v).name = some i)
    (there : out.columns[i]? = some (.flat dst)) (shape : dst.field.sameShape (madeField v) = true)
    (others : ∀ j c, j ≠ i → out.columns[j]? = some c → x.step v row requested ≤ c.length) :
    ∃ w : Window, w.toList = x.part v row requested ∧
      x.expand row requested out = (.ok (x.step v row requested),
        { x with progress := some ⟨row, x.made row + x.step v row requested⟩ },
        { out.setColumn i (.flat { dst with window := w }) with
          numRows := x.step v row requested }) := by
  obtain ⟨w, sliced⟩ := exists_sliced requested within
  obtain ⟨shown, length⟩ := part_shown sliced
  have long : ∀ c ∈ (out.setColumn i (.flat { dst with window := w.window })).columns,
      x.step v row requested ≤ c.length := by
    intro c member
    rcases Batch.mem_setColumn member with rfl | ⟨j, apart, at_j⟩
    · exact Nat.le_of_eq length.symm
    · exact others j c apart at_j
  have resized := (Batch.resize_cases _ _).resolve_left
    fun ⟨c, member, short, _⟩ => Nat.not_lt.mpr (long c member) short
  have output : x.outputField? = some (madeField v) := by simp [outputField?, column, madeField]
  have steps : min (min (v.countAt row - x.made row) x.rowCap) requested =
      x.step v row requested := rfl
  refine ⟨w.window, shown, ?_⟩
  simp only [expand, ready, column, output, if_neg (Nat.not_le.mpr inside), steps, sliced,
    fill_into w.window place there shape, resized.2]

/-- A call into the empty batch makes those values, and what stays in place of the batch handed on is
as empty as before. -/
theorem expand_ok (ready : x.ready = true) (column : x.column = some v)
    (flat : v.inner.field.dataType.isRepeated = false) (inside : row < v.length)
    (within : x.made row ≤ v.countAt row) :
    ∃ out, x.expand row requested (.empty ⟨[madeField v]⟩) =
        (.ok (x.step v row requested),
          { x with progress := some ⟨row, x.made row + x.step v row requested⟩ }, out) ∧
      out.Shows (madeField v)
        (((v.valuesAt row).drop (x.made row)).take (x.step v row requested)) ∧
      out.take = (out, .empty ⟨[madeField v]⟩) := by
  have flatField : (madeField v).dataType.isRepeated = false := flat
  have columns : (Batch.empty ⟨[madeField v]⟩).columns = [.flat (.empty (madeField v) none)] := by
    simp [Batch.empty, Column.empty, flatField]
  have place : (Batch.empty ⟨[madeField v]⟩).schema.indexOf? (madeField v).name = some 0 := by
    simp [Batch.empty, Schema.indexOf?]
  have there : (Batch.empty ⟨[madeField v]⟩).columns[0]? = some (.flat (.empty (madeField v) none)) := by
    rw [columns]
    rfl
  have shape : (madeField v).sameShape (madeField v) = true := by simp [Field.sameShape]
  obtain ⟨w, shown, made⟩ : ∃ w : Window, w.toList = x.part v row requested ∧
      x.expand row requested (.empty ⟨[madeField v]⟩) = (.ok (x.step v row requested), _, _) := by
    refine expand_into ready column inside within place there shape fun j c apart at_j => ?_
    obtain ⟨j, rfl⟩ := Nat.exists_eq_succ_of_ne_zero apart
    rw [columns] at at_j
    cases at_j
  have alone : (Batch.empty ⟨[madeField v]⟩).setColumn 0 (.flat ⟨madeField v, w⟩) =
      { Batch.empty ⟨[madeField v]⟩ with columns := [.flat ⟨madeField v, w⟩] } := by
    rw [Batch.setColumn, columns]
    rfl
  refine ⟨{ Batch.empty ⟨[madeField v]⟩ with
    columns := [.flat ⟨madeField v, w⟩], numRows := x.step v row requested }, ?_,
    ⟨rfl, rfl, (x.length_part v row requested).symm, w, rfl, shown⟩, ?_⟩
  · rw [made]
    exact congrArg (fun b : Batch => (_, _, { b with numRows := x.step v row requested })) alone
  · simp [Batch.take, Batch.empty, Column.take, FlatVector.take, FlatVector.clear, Column.empty,
      flatField]

def twoItems : ListVector :=
  ⟨⟨"items", .array .text, true⟩, #[0, 2],
    .ofList ⟨"items", .text, true⟩ [.text "p", .text "q"] none, rfl⟩

end Expansion
end BatchFlow

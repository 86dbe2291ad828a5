import BatchFlow.Proofs.Batch.Alignment
import BatchFlow.Proofs.Stream.Backlog
import BatchFlow.Proofs.Stream.Conservation

/-!
Which columns an expansion declines for their type. It should decline a column of another type than
the one it makes. It declines a column that holds lists as well, of whatever type that is, and then the
fault names one type twice. The batch that an operator keeps for it has such a column exactly if the
elements of the expanded column are lists themselves, so no row of such a column is ever expanded.
-/
namespace BatchFlow

/-- A batch that keeps its columns when asked for one has nothing of another shape in the place that it
names. -/
theorem Batch.ensureColumn_kept {b : Batch} {field : Field}
    (kept : (b.ensureColumn field .lowered).2.1.raised = false) :
    ∃ i, b.schema.indexOf? field.name = some i ∧ b.ensureColumn field .lowered = (b, .lowered, i) ∧
      ∀ c, b.columns[i]? = some c → c.field.sameShape field = true := by
  cases place : b.schema.indexOf? field.name with
  | none => simp [ensureColumn, place, ChangeFlag.raise] at kept
  | some i =>
    refine ⟨i, rfl, ?_⟩
    cases there : b.columns[i]? with
    | none => simp [ensureColumn, place, there]
    | some c =>
      by_cases shape : c.field.sameShape field = true
      · simp [ensureColumn, place, there, shape]
      · simp [ensureColumn, place, there, shape, ChangeFlag.raise] at kept

theorem Batch.code_of_resize {b : Batch} {count : Nat} {e : Fault} (short : b.resize count = .error e) :
    e.code = .invalidArgument := by
  rcases b.resize_cases count with ⟨c, -, -, resized⟩ | ⟨-, resized⟩ <;> rw [resized] at short
  · obtain rfl := Except.error.inj short
    rfl
  · cases short

theorem FlatVector.code_of_slice {v : FlatVector} {start count : Nat} {e : Fault}
    (outside : v.slice start count = .error e) : e.code = .invalidArgument := by
  rw [slice] at outside
  split at outside
  · cases outside
  · obtain rfl := Except.error.inj outside
    rfl

namespace Expansion

/-- Why a column does not take the values of a field. -/
inductive Declines (field : Field) : Column → Prop
  | otherType {c : Column} (differs : c.field.dataType ≠ field.dataType) : Declines field c
  -- It is of the field's shape, but it holds lists.
  | lists (l : ListVector) (shape : l.field.sameShape field = true) : Declines field (.repeated l)

def clash (field : Field) (c : Column) : Fault :=
  .ofTypes field.name field.dataType c.field.dataType

variable {x x' : Expansion} {v : ListVector} {row requested : Nat} {out out' : Batch} {e : Fault}
  {field : Field} {c : Column} {w : Window}

theorem fill_declined (w : Window) (named : out.columnNamed? field.name = some c)
    (declines : Declines field c) : fill out field w = (.error (clash field c), out) := by
  cases declines with
  | otherType differs => simp [fill, named, differs, clash]
  | lists l shape =>
    have type : l.field.dataType = field.dataType := by
      simp only [Field.sameShape, Bool.and_eq_true, decide_eq_true_eq] at shape
      exact shape.2
    obtain ⟨i, place, there⟩ := Option.bind_eq_some_iff.mp named
    have same : out.ensureColumn field .lowered = (out, .lowered, i) := by
      simp [Batch.ensureColumn, place, there, Column.field, shape]
    have quiet : ChangeFlag.lowered.raised = false := rfl
    simp [fill, named, Column.field, type, same, there, clash, quiet]

/-- A type is refused only for a column that declines it: a column that is missing is another fault,
and a flat one of the type takes the storage. -/
theorem declines_of_fill (refused : fill out field w = (.error e, out'))
    (mismatch : e.code = .typeMismatch) :
    ∃ c, out.columnNamed? field.name = some c ∧ Declines field c := by
  have present (place : String) : e ≠ .missingColumn field.name place := by
    rintro rfl
    cases mismatch
  simp only [fill] at refused
  split at refused
  next actual clashes =>
    obtain ⟨c, named, differs⟩ := Option.bind_eq_some_iff.mp clashes
    refine ⟨c, named, .otherType fun same => ?_⟩
    simp [same] at differs
  · split at refused
    · exact absurd (Except.error.inj (Prod.mk.inj refused).1).symm (present _)
    next kept =>
      obtain ⟨i, place, same, shapes⟩ := Batch.ensureColumn_kept (Bool.eq_false_iff.mpr kept)
      rw [same] at refused
      simp only at refused
      split at refused
      · cases refused
      next l there =>
        refine ⟨.repeated l, ?_, .lists l (shapes _ there)⟩
        rw [Batch.columnNamed?, place, Option.bind_some, there]
      · exact absurd (Except.error.inj (Prod.mk.inj refused).1).symm (present _)

theorem expand_declined (ready : x.ready = true) (column : x.column = some v)
    (inside : row < v.length) (within : x.made row ≤ v.countAt row)
    (named : out.columnNamed? (madeField v).name = some c) (declines : Declines (madeField v) c) :
    x.expand row requested out = (.error (clash (madeField v) c), x, out) := by
  obtain ⟨w, sliced⟩ := exists_sliced requested within
  have output : x.outputField? = some (madeField v) := by simp [outputField?, column, madeField]
  have steps : min (min (v.countAt row - x.made row) x.rowCap) requested =
      x.step v row requested := rfl
  simp only [expand, ready, column, output, if_neg (Nat.not_le.mpr inside), steps, sliced,
    fill_declined w.window named declines]

theorem declines_of_expand (refused : x.expand row requested out = (.error e, x', out'))
    (mismatch : e.code = .typeMismatch) :
    ∃ v c, x.column = some v ∧ out.columnNamed? (madeField v).name = some c ∧
      Declines (madeField v) c := by
  simp only [expand] at refused
  split at refused
  next v field ready column output =>
    obtain rfl : madeField v = field := by
      rw [outputField?, column] at output
      exact Option.some.inj output
    split at refused
    · obtain rfl := Except.error.inj (Prod.mk.inj refused).1
      cases mismatch
    · split at refused
      next e' outside =>
        obtain rfl := Except.error.inj (Prod.mk.inj refused).1
        cases mismatch.symm.trans (FlatVector.code_of_slice outside)
      · split at refused
        next e' out₁ unfilled =>
          obtain rfl := Except.error.inj (Prod.mk.inj refused).1
          obtain ⟨c, named, declines⟩ := declines_of_fill unfilled mismatch
          exact ⟨v, c, column, named, declines⟩
        · split at refused
          next e' short =>
            obtain rfl := Except.error.inj (Prod.mk.inj refused).1
            cases mismatch.symm.trans (Batch.code_of_resize short)
          · cases refused
  · obtain rfl := Except.error.inj (Prod.mk.inj refused).1
    cases mismatch

/-- The empty column of a field declines the values of the field if these are lists. -/
theorem declines_empty_iff : Declines field (.empty field none) ↔ field.dataType.isRepeated = true := by
  constructor
  · intro declines
    by_contra flat
    rw [Column.empty, if_neg flat] at declines
    obtain ⟨differs⟩ := declines
    exact differs rfl
  · intro many
    rw [Column.empty, if_pos many]
    exact .lists _ (by simp [Field.sameShape, ListVector.empty])

/-- The batch that an operator keeps for a column of lists declines what the column makes. -/
theorem expand_container_declined (ready : x.ready = true) (column : x.column = some v)
    (inside : row < v.length) (within : x.made row ≤ v.countAt row) (requested : Nat)
    (many : v.inner.field.dataType.isRepeated = true) :
    x.expand row requested (.empty ⟨[madeField v]⟩) =
      (.error (clash (madeField v) (.empty (madeField v) none)), x, .empty ⟨[madeField v]⟩) := by
  have named : (Batch.empty ⟨[madeField v]⟩).columnNamed? (madeField v).name =
      some (.empty (madeField v) none) := by
    simp [Batch.columnNamed?, Batch.empty, Schema.indexOf?]
  exact expand_declined ready column inside within named (declines_empty_iff.mpr many)

end Expansion

namespace Unnest

open Expansion

variable {u u' : Unnest} {f : Fragment} {outer : Batch} {v : ListVector} {announced : Option Schema}

section

variable {x : Expansion} {out out' : Batch} {n : Nat} {e : Fault}

structure Expanding (u : Unnest) (f : Fragment) (outer out : Batch) : Prop where
  running : u.phase = .running
  standing : f.cursor.outer = some outer
  rows : outer.numRows ≠ 0
  generation : u.generation = some f.cursor.generation
  output : u.output = some out

theorem Expanding.advance_ok (turn : u.Expanding f outer out)
    (made : u.expansion.expand f.cursor.row f.settings.batchRows out = (.ok n, x, out')) :
    ∃ o, (u.advance f).1 = .ok o := by
  refine ⟨if x.isDrained f.cursor.row then .endOfGroup out'.take.1 else .data out'.take.1, ?_⟩
  simp [advance, turn.running, next, turn.standing, turn.generation, expand, turn.output, turn.rows,
    made]

theorem Expanding.advance_error (turn : u.Expanding f outer out)
    (refused : u.expansion.expand f.cursor.row f.settings.batchRows out = (.error e, x, out')) :
    (u.advance f).1 = .error e := by
  simp [advance, turn.running, next, turn.standing, turn.generation, expand, turn.output, turn.rows,
    refused]

end

/-- Once an outer batch is bound, turns expand its rows if the values are no lists, and none if they
are. -/
theorem advance_bound (running : u.phase = .running) (at' : f.cursor.outer = some outer)
    (rows : outer.numRows ≠ 0) (column : outer.columnNamed? u.spec.field = some (.repeated v))
    (inside : f.cursor.row < v.length)
    (bound : bind { u with generation := some f.cursor.generation } outer = .ok (u', announced)) :
    (v.inner.field.dataType.isRepeated = false → ∃ o, (u'.advance f).1 = .ok o) ∧
      (v.inner.field.dataType.isRepeated = true → (u'.advance f).1 =
        .error (.ofTypes v.field.name v.inner.field.dataType v.inner.field.dataType)) := by
  obtain ⟨v', there, binds, -⟩ := bind_binds bound
  obtain rfl : v' = v := Column.repeated.inj (Option.some.inj (there.symm.trans column))
  have turn : u'.Expanding f outer (.empty ⟨[madeField v']⟩) := by
    constructor <;> simp [binds, running, at', rows]
  have ready : u'.expansion.ready = true := by simp [binds]
  have held : u'.expansion.column = some v' := by simp [binds]
  have within : u'.expansion.made f.cursor.row ≤ v'.countAt f.cursor.row := by
    simp [binds, Expansion.made]
  constructor
  · intro flat
    obtain ⟨out, made, -, -⟩ := expand_ok ready held flat inside within
    exact turn.advance_ok made
  · intro many
    have type : (Column.empty (madeField v') none).field = madeField v' :=
      Column.field_empty (madeField v') none
    have declined := expand_container_declined ready held inside within f.settings.batchRows many
    rw [clash, type] at declined
    exact turn.advance_error declined

end Unnest

namespace Expansion.History

variable {v : ListVector}

/-- After any uses of an expansion, a call for a row of its column is refused for a type exactly if the
batch has a column in the place of the made field that is of another type or holds lists. Then
everything is left as it was. The empty batch of the made field is accepted, and an operator that has
bound the column expands its rows, exactly if the elements of the column are no lists; the operator is
refused otherwise with a fault that names one type twice. -/
theorem type_refused_iff (uses : List Use) (ready : (after uses).expansion.ready = true)
    (column : (after uses).expansion.column = some v) (inside : (after uses).row < v.length) :
    (∀ requested out e x' out',
        ((after uses).expansion.expand (after uses).row requested out = (.error e, x', out') ∧
          e.code = .typeMismatch) ↔
        ∃ c, out.columnNamed? (madeField v).name = some c ∧ Declines (madeField v) c ∧
          e = clash (madeField v) c ∧ x' = (after uses).expansion ∧ out' = out) ∧
      (∀ requested, (∃ n x' out', (after uses).expansion.expand (after uses).row requested
          (.empty ⟨[madeField v]⟩) = (.ok n, x', out')) ↔
        v.inner.field.dataType.isRepeated = false) ∧
      ∀ (u u' : Unnest) (f : Fragment) outer announced, u.phase = .running →
        f.cursor.outer = some outer → outer.numRows ≠ 0 →
        outer.columnNamed? u.spec.field = some (.repeated v) → f.cursor.row < v.length →
        Unnest.bind { u with generation := some f.cursor.generation } outer = .ok (u', announced) →
        (v.inner.field.dataType.isRepeated = false → ∃ o, (u'.advance f).1 = .ok o) ∧
          (v.inner.field.dataType.isRepeated = true → (u'.advance f).1 =
            .error (.ofTypes v.field.name v.inner.field.dataType v.inner.field.dataType)) := by
  have within := ((Kept.after_kept uses).inOrder v column (after uses).row).1
  refine ⟨fun requested out e x' out' => ⟨?_, ?_⟩, fun requested => ⟨?_, fun flat => ?_⟩,
    fun u u' f outer announced => Unnest.advance_bound⟩
  · rintro ⟨refused, mismatch⟩
    obtain ⟨v', c, column', named, declines⟩ := declines_of_expand refused mismatch
    obtain rfl : v = v' := Option.some.inj (column.symm.trans column')
    rw [expand_declined ready column inside within named declines] at refused
    obtain ⟨fault, rfl, rfl⟩ : _ ∧ _ ∧ _ := by simpa using refused
    exact ⟨c, named, declines, fault.symm, rfl, rfl⟩
  · rintro ⟨c, named, declines, rfl, rfl, rfl⟩
    exact ⟨expand_declined ready column inside within named declines, rfl⟩
  · rintro ⟨n, x', out', made⟩
    by_contra many
    rw [Bool.not_eq_false] at many
    rw [expand_container_declined ready column inside within requested many] at made
    cases made
  · obtain ⟨out, made, -, -⟩ := @expand_ok _ _ _ requested ready column flat inside within
    exact ⟨_, _, _, made⟩

def holding (v : ListVector) : List Use := [.setUp .all, .setColumn (.repeated v)]

def outerOf (v : ListVector) : Batch := ⟨⟨[v.field]⟩, [.repeated v], 1, none, 0⟩

def newUnnest : Unnest := ⟨.ofField "items", .start, none, none, none, .running, 0⟩

/-- Two texts in a row are moved into the empty batch of their field, and an operator expands them. -/
theorem texts_expanded :
    (∃ n x' out', (after (holding twoItems)).expansion.expand 0 10 (.empty ⟨[madeField twoItems]⟩) =
        (.ok n, x', out')) ∧
      ∃ u' o, Unnest.bind { newUnnest with generation := some 1 } (outerOf twoItems) =
          .ok (u', some ⟨[madeField twoItems]⟩) ∧
        (u'.advance ⟨.trial, .ofLimit 0, ⟨0, 1, some (outerOf twoItems)⟩⟩).1 = .ok o := by
  obtain ⟨-, accepted, operator⟩ :=
    type_refused_iff (holding twoItems) (v := twoItems) rfl rfl (by decide)
  obtain ⟨expands, -⟩ := operator newUnnest _ ⟨.trial, .ofLimit 0, ⟨0, 1, some (outerOf twoItems)⟩⟩
    (outerOf twoItems) _ rfl rfl (by decide) rfl (by decide) rfl
  obtain ⟨o, turn⟩ := expands rfl
  exact ⟨(accepted 10).mpr rfl, _, o, rfl, turn⟩

def oneList : ListVector :=
  ⟨⟨"items", .array (.array .text), true⟩, #[0, 1],
    .ofList ⟨"items", .array .text, true⟩ [.list [.text "p"]] none, rfl⟩

/-- The list is refused for its type by the empty batch of its own field. -/
theorem lists_refused_for_type :
    ¬∀ uses v requested out e x' out', (after uses).expansion.ready = true →
      (after uses).expansion.column = some v → (after uses).row < v.length →
      (after uses).expansion.expand (after uses).row requested out = (.error e, x', out') →
      e.code = .typeMismatch →
        ∃ c, out.columnNamed? (madeField v).name = some c ∧
          c.field.dataType ≠ (madeField v).dataType := by
  intro differ
  obtain ⟨c, named, differs⟩ := differ (holding oneList) oneList 10 (.empty ⟨[madeField oneList]⟩)
    (clash (madeField oneList) (.empty (madeField oneList) none)) _ _ rfl rfl (by decide) rfl rfl
  obtain rfl : Column.empty (madeField oneList) none = c := Option.some.inj named
  exact differs rfl

end Expansion.History
end BatchFlow

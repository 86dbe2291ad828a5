import BatchFlow.Proofs.Batch.RowRoundTrip

/-! Which rows make a batch: those with one value for each field, each of the field's type. -/
namespace BatchFlow

/-- A row that a batch of the schema can hold. -/
def Schema.Admits (s : Schema) (r : Row) : Prop :=
  List.Forall₂ (fun f v => Value.fits v f.dataType = true) s.fields r

namespace Schema

variable {s s' : Schema} {r : Row}

/-- A row that a batch of the schema can give back: a repeated column has no NULL of its own. -/
def Gives (s : Schema) (r : Row) : Prop :=
  List.Forall₂ (fun f v => Value.fits v f.dataType = true ∧ (v = .null → f.dataType.isRepeated = false))
    s.fields r

theorem Gives.admitted (given : s.Gives r) : s.Admits r := given.imp fun _ _ => And.left

theorem gives_of_shape (same : s.shape = s'.shape) (given : s.Gives r) : s'.Gives r := by
  have iff (s : Schema) : s.Gives r ↔ List.Forall₂ (fun p v => Value.fits v p.2 = true ∧
      (v = .null → p.2.isRepeated = false)) s.shape r := by
    rw [Gives, shape, List.forall₂_map_left_iff]
  rw [iff, ← same]
  exact (iff s).mp given

/-- What a batch gives back for a row that it can hold. -/
theorem readBack_gives (admitted : s.Admits r) : s.Gives (s.readBack r) := by
  unfold Admits at admitted
  unfold Gives readBack
  generalize s.fields = fields at admitted ⊢
  induction admitted with
  | nil => exact .nil
  | @cons f v _ _ fits _ ih =>
    refine .cons ?_ ih
    unfold Field.readBack
    split
    next many _ =>
      obtain ⟨t, array⟩ : ∃ t, f.dataType = .array t := by
        cases type : f.dataType <;> simp_all [DataType.isRepeated]
      rw [array]
      exact ⟨rfl, by rintro ⟨⟩⟩
    next other =>
      refine ⟨fits, ?_⟩
      rintro rfl
      exact Bool.eq_false_iff.mpr fun many => other many rfl

end Schema

theorem FlatVector.ofFitting_iff {field : Field} {values : List Value} (origin : Option Nat) :
    (∃ v, ofFitting field values origin = .ok v) ↔
      ∀ v ∈ values, v.fits field.dataType = true := by
  unfold ofFitting
  split
  next v found =>
    simp only [reduceCtorEq, exists_false, false_iff, not_forall]
    have unfit := List.find?_some found
    exact ⟨v, List.mem_of_find?_eq_some found, by simpa using unfit⟩
  next none => simpa using none

namespace ListVector

variable {field : Field} {lists : List (List Value)} {origin : Option Nat} {t : DataType}

/-- Offsets counted through lists cut exactly the values of the lists. -/
theorem offsetsFrom_cut (start : Nat) (lists : List (List Value)) :
    (offsetsFrom start lists).head? = some start ∧ rising (offsetsFrom start lists) = true ∧
      (offsetsFrom start lists).getLast? = some (start + lists.flatten.length) := by
  induction lists generalizing start with
  | nil => exact ⟨rfl, rfl, rfl⟩
  | cons l ls ih =>
    obtain ⟨head, up, last⟩ := ih (start + l.length)
    obtain ⟨rest, split⟩ : ∃ rest, offsetsFrom (start + l.length) ls = (start + l.length) :: rest := by
      cases more : offsetsFrom (start + l.length) ls with
      | nil => simp [more] at head
      | cons a rest => exact ⟨rest, by rw [more] at head; rw [Option.some.inj head]⟩
    refine ⟨rfl, ?_, ?_⟩
    · rw [offsetsFrom, split, rising, ← split, up]
      simp
    · rw [offsetsFrom, split, List.getLast?_cons_cons, ← split, last, List.flatten_cons,
        List.length_append, Nat.add_assoc]

theorem ofLists_iff (origin : Option Nat) (array : field.dataType = .array t) :
    (∃ v, ofLists field lists origin = .ok v) ↔ ∀ items ∈ lists, Value.allFit items t = true := by
  have element : (innerField field).dataType = t := by simp [innerField, array, DataType.element?]
  have flat : (∀ v ∈ lists.flatten, v.fits t = true) ↔
      ∀ items ∈ lists, Value.allFit items t = true := by
    simp only [List.mem_flatten, Value.allFit_eq_all, List.all_eq_true]
    exact ⟨fun each l there v member => each v ⟨l, there, member⟩,
      fun each v ⟨l, there, member⟩ => each l there v member⟩
  rw [← flat, ← element, ← FlatVector.ofFitting_iff origin]
  constructor
  · rintro ⟨v, built⟩
    obtain ⟨inner, fitting, -⟩ := bind_eq_ok.mp built
    exact ⟨inner, fitting⟩
  · rintro ⟨inner, fitting⟩
    have stored : inner.field = innerField field ∧ inner.length = lists.flatten.length := by
      unfold FlatVector.ofFitting at fitting
      split at fitting
      · cases fitting
      · obtain rfl := Except.ok.inj fitting
        exact ⟨rfl, rfl⟩
    have cut : cuts (offsetsFrom 0 lists) inner.length = true := by
      obtain ⟨head, up, last⟩ := offsetsFrom_cut 0 lists
      simp [cuts, head, up, last, stored.2]
    simp [ofLists, fitting, ofOffsets, stored.1, element, array, cut, bind, Except.bind]

end ListVector

namespace Column

variable {field : Field} {values : List Value} {origin : Option Nat} {t : DataType}

/-- What a repeated column makes of a value is its list, if the value is one of its type. -/
theorem fits_array_iff {v : Value} :
    v.fits (.array t) = true ↔
      ∃ items, rowItems field v = .ok items ∧ Value.allFit items t = true := by
  cases v <;> simp [rowItems, Value.fits, Value.dataType?, Value.allFit]

theorem ofValues_iff :
    (∃ c, ofValues field values origin = .ok c) ↔ ∀ v ∈ values, v.fits field.dataType = true := by
  unfold ofValues
  split
  next many =>
    obtain ⟨t, array⟩ : ∃ t, field.dataType = .array t := by
      cases type : field.dataType <;> simp_all [DataType.isRepeated]
    rw [array]
    constructor
    · rintro ⟨c, built⟩ v member
      obtain ⟨lists, items, built⟩ := bind_eq_ok.mp built
      obtain ⟨l, ofLists, -⟩ := bind_eq_ok.mp built
      obtain ⟨list, there, same⟩ := exists_right_of_mem (mapM_eq_ok.mp items) member
      have fit := (ListVector.ofLists_iff origin array).mp ⟨l, ofLists⟩
      exact fits_array_iff.mpr ⟨list, same, fit _ there⟩
    · intro fit
      obtain ⟨lists, items⟩ : ∃ lists, values.mapM (rowItems field) = .ok lists :=
        exists_mapM_ok fun v member => (fits_array_iff.mp (fit v member)).imp fun _ => And.left
      have all : ∀ list ∈ lists, Value.allFit list t = true := by
        intro list member
        obtain ⟨v, there, same⟩ := exists_left_of_mem (mapM_eq_ok.mp items) member
        obtain ⟨items', same', fits⟩ := fits_array_iff.mp (fit v there)
        rwa [Except.ok.inj (same.symm.trans same')]
      obtain ⟨l, ofLists⟩ := (ListVector.ofLists_iff origin array).mpr all
      exact ⟨repeated l, by simp [items, ofLists, bind, Except.bind, pure, Except.pure]⟩
  · rw [← FlatVector.ofFitting_iff origin]
    constructor
    · rintro ⟨c, built⟩
      obtain ⟨v, fitting, -⟩ := bind_eq_ok.mp built
      exact ⟨v, fitting⟩
    · rintro ⟨v, fitting⟩
      exact ⟨flat v, by simp [fitting, bind, Except.bind, pure, Except.pure]⟩

theorem ofValues_error {e : Fault} (h : ofValues field values origin = .error e) :
    e.code = .typeMismatch ∨ e.code = .invalidArgument := by
  unfold ofValues at h
  have fitting {f : Field} {vs : List Value} (h : FlatVector.ofFitting f vs origin = .error e) :
      e.code = .typeMismatch := by
    unfold FlatVector.ofFitting at h
    split at h <;> cases h
    rfl
  split at h
  · rcases bind_eq_error.mp h with items | ⟨lists, -, h⟩
    · obtain ⟨v, -, refused⟩ := mapM_eq_error items
      unfold rowItems at refused
      split at refused <;> cases refused
      exact .inl rfl
    · rcases bind_eq_error.mp h with refused | ⟨l, -, none⟩
      · rcases bind_eq_error.mp refused with unfit | ⟨inner, -, refused⟩
        · exact .inl (fitting unfit)
        · unfold ListVector.ofOffsets at refused
          simp only at refused
          split at refused
          · obtain rfl := Except.error.inj refused
            exact .inl rfl
          · split at refused <;> cases refused
            exact .inr rfl
      · cases none
  · rcases bind_eq_error.mp h with unfit | ⟨v, -, none⟩
    · exact .inl (fitting unfit)
    · cases none

end Column

theorem Batch.exists_ofColumns_ok {s : Schema} {columns : List Column} {n : Nat}
    (even : List.Forall₂ (fun f c => c.field = f ∧ c.length = n) s.fields columns) :
    ∃ b, ofColumns s columns = .ok b := by
  have width : columns.length = s.width := even.length_eq.symm
  have lengths : ∀ c ∈ columns, c.length = n := by
    intro c member
    obtain ⟨f, -, -, length⟩ := exists_left_of_mem even member
    exact length
  have one : columns.find? (fun c => c.length ≠ (columns.head?.map Column.length).getD 0) = none := by
    rw [List.find?_eq_none]
    intro c member
    cases columns with
    | nil => cases member
    | cons first others =>
      have same : c.length = first.length :=
        (lengths c member).trans (lengths first List.mem_cons_self).symm
      simp [same]
  unfold ofColumns
  rw [if_neg (not_not.mpr width)]
  split
  next f c found =>
    obtain ⟨rfl, -⟩ := List.forall₂_zip even (List.mem_of_find?_eq_some found)
    simpa [Field.sameShape] using List.find?_some found
  · simp only [one]
    exact ⟨_, rfl⟩

namespace BatchBuilder

theorem exists_foldlM_ok {b : BatchBuilder} {rows : List Row}
    (widths : ∀ r ∈ rows, r.length = b.columns.length) :
    ∃ b', rows.foldlM append b = .ok b' := by
  induction rows generalizing b with
  | nil => exact ⟨b, rfl⟩
  | cons row rows ih =>
    have here := widths row List.mem_cons_self
    have width : (b.columns.zipWith Array.push row).length = b.columns.length := by simp [here]
    obtain ⟨b', others⟩ := @ih { b with columns := b.columns.zipWith Array.push row } (by
      intro r member
      rw [width]
      exact widths r (List.mem_cons_of_mem _ member))
    exact ⟨b', by simpa [append, here, bind, Except.bind] using others⟩

theorem foldlM_error {b : BatchBuilder} {rows : List Row} {e : Fault}
    (h : rows.foldlM append b = .error e) : e.code = .invalidArgument := by
  induction rows generalizing b with
  | nil => cases h
  | cons row rows ih =>
    rw [List.foldlM_cons] at h
    rcases bind_eq_error.mp h with refused | ⟨b', -, h⟩
    · unfold append at refused
      split at refused <;> cases refused
      rfl
    · exact ih h

variable {b : BatchBuilder} {rows : List Row}

/-- The rows are admitted exactly if every column holds values of its field only. -/
theorem Contains.admits_iff (held : b.Contains rows) :
    (∀ r ∈ rows, b.schema.Admits r) ↔
      ∀ p ∈ b.schema.fields.zip b.columns, ∀ v ∈ p.2.toList, v.fits p.1.dataType = true := by
  have sizes : b.schema.fields.length = b.columns.length := held.columns.symm
  constructor
  · intro admitted p member v inside
    obtain ⟨i, bound, rfl⟩ := List.getElem_of_mem member
    obtain ⟨j, within, rfl⟩ := List.getElem_of_mem inside
    simp only [List.length_zip, sizes, Nat.min_self] at bound
    simp only [List.getElem_zip] at within ⊢
    have there : b.columns[i]? = some b.columns[i] := List.getElem?_eq_getElem bound
    have cell := held.cell i _ there j
    rw [← Array.getElem?_toList, List.getElem?_eq_getElem within] at cell
    obtain ⟨r, row, place⟩ := Option.bind_eq_some_iff.mp cell.symm
    obtain ⟨inRow, value⟩ := List.getElem?_eq_some_iff.mp place
    rw [← value]
    exact (List.forall₂_iff_get.mp (admitted r (List.mem_of_getElem? row))).2 i (sizes ▸ bound) inRow
  · intro fit r member
    obtain ⟨j, inside, rfl⟩ := List.getElem_of_mem member
    refine List.forall₂_iff_get.mpr ⟨(held.widths _ member).symm, fun i bound inRow => ?_⟩
    have inColumns : i < b.columns.length := sizes ▸ bound
    have there : b.columns[i]? = some b.columns[i] := List.getElem?_eq_getElem inColumns
    have cell := held.cell i _ there j
    rw [List.getElem?_eq_getElem inside, Option.bind_some, List.getElem?_eq_getElem inRow,
      ← Array.getElem?_toList] at cell
    have inZip : i < (b.schema.fields.zip b.columns).length := by
      simp only [List.length_zip, sizes, Nat.min_self]
      exact inColumns
    have here := fit _ (List.getElem_mem inZip)
    simp only [List.getElem_zip] at here
    exact here _ (List.mem_of_getElem? cell)

theorem Contains.build_iff (held : b.Contains rows) :
    (∃ batch, b.build = .ok batch) ↔ ∀ r ∈ rows, b.schema.Admits r := by
  rw [held.admits_iff]
  constructor
  · rintro ⟨batch, built⟩ p member
    obtain ⟨columns, made, -⟩ := bind_eq_ok.mp built
    obtain ⟨c, -, here⟩ := exists_right_of_mem (mapM_eq_ok.mp made) member
    exact Column.ofValues_iff.mp ⟨c, here⟩
  · intro fit
    obtain ⟨columns, made⟩ : ∃ columns, (b.schema.fields.zip b.columns).mapM (fun p =>
        Column.ofValues p.1 p.2.toList none) = .ok columns :=
      exists_mapM_ok fun p member => Column.ofValues_iff.mpr (fit p member)
    have each := mapM_eq_ok.mp made
    have sizes : b.schema.fields.length = b.columns.length := held.columns.symm
    have zipped : (b.schema.fields.zip b.columns).length = b.schema.fields.length := by
      rw [List.length_zip, ← sizes, Nat.min_self]
    have even : List.Forall₂ (fun f c => c.field = f ∧ c.length = rows.length) b.schema.fields
        columns := by
      refine List.forall₂_iff_get.mpr ⟨zipped.symm.trans each.length_eq, fun i bound inside => ?_⟩
      have here := (List.forall₂_iff_get.mp each).2 i (zipped ▸ bound) inside
      simp only [List.get_eq_getElem, List.getElem_zip] at here
      obtain ⟨field, length, -⟩ := Column.ofValues_ok here
      have there : b.columns[i]? = some b.columns[i] := List.getElem?_eq_getElem (sizes ▸ bound)
      exact ⟨field, by rw [List.get_eq_getElem, length, Array.length_toList, held.size i _ there]⟩
    obtain ⟨batch, built⟩ := Batch.exists_ofColumns_ok even
    exact ⟨batch, bind_eq_ok.mpr ⟨columns, made, built⟩⟩

end BatchBuilder

namespace Batch

variable {s : Schema} {rows : List Row} {b : Batch} {e : Fault}

/-- Rows make a batch exactly if the schema admits each of them. -/
theorem ofRows_iff : (∃ b, ofRows s rows = .ok b) ↔ ∀ r ∈ rows, s.Admits r := by
  constructor
  · rintro ⟨b, built⟩
    obtain ⟨builder, held, rfl, builds⟩ := ofRows_builder built
    exact held.build_iff.mp ⟨b, builds⟩
  · intro admitted
    have wide : ∀ r ∈ rows, r.length = (BatchBuilder.ofSchema s).columns.length := by
      intro r member
      simpa [BatchBuilder.ofSchema] using (admitted r member).length_eq.symm
    obtain ⟨builder, appended⟩ := BatchBuilder.exists_foldlM_ok wide
    obtain ⟨held, schema⟩ := BatchBuilder.contains_foldlM appended
    rw [← schema] at admitted
    obtain ⟨b, built⟩ := held.build_iff.mpr admitted
    exact ⟨b, bind_eq_ok.mpr ⟨builder, appended, built⟩⟩

def OfRows (b : Batch) : Prop := ∃ s rows, ofRows s rows = .ok b

/-- All rows of such a batch can be read, and are rows of its schema. -/
theorem OfRows.readings_ok (made : b.OfRows) :
    ∃ rows : List Row, b.readings = rows.map .ok ∧ ∀ r ∈ rows, b.schema.Gives r := by
  obtain ⟨s, rows, built⟩ := made
  have admitted := ofRows_iff.mp ⟨b, built⟩
  rcases Nat.eq_zero_or_pos s.width with narrow | wide
  · have none : b.readings = [] := by
      rw [← List.length_eq_zero_iff, length_readings]
      exact numRows_narrow built narrow
    exact ⟨[], none, by simp⟩
  · obtain ⟨schema, -, count, each⟩ := ofRows_ok built wide
    refine ⟨rows.map s.readBack, readings_eq (by simpa using count) each, fun r member => ?_⟩
    obtain ⟨row, there, rfl⟩ := List.mem_map.mp member
    rw [schema]
    exact Schema.readBack_gives (admitted row there)

/-- Rows that make no batch are refused for a type or for their width. -/
theorem ofRows_error (h : ofRows s rows = .error e) :
    e.code = .typeMismatch ∨ e.code = .invalidArgument := by
  rcases bind_eq_error.mp h with refused | ⟨builder, -, h⟩
  · exact .inr (BatchBuilder.foldlM_error refused)
  · rcases bind_eq_error.mp h with refused | ⟨columns, -, h⟩
    · obtain ⟨p, -, refused⟩ := mapM_eq_error refused
      exact Column.ofValues_error refused
    · unfold ofColumns at h
      split at h
      · obtain rfl := Except.error.inj h
        exact .inr rfl
      · split at h
        · obtain rfl := Except.error.inj h
          exact .inl rfl
        · simp only at h
          split at h <;> cases h
          exact .inr rfl

end Batch
end BatchFlow

import BatchFlow.Batch.Builder
import BatchFlow.Proofs.Results

/-! Rows put into a batch and read back from it. Nothing is lost, except that a repeated column has
no NULL of its own: NULL comes back as the empty list. -/
namespace BatchFlow

/-- What a column of the field gives back for a value put into it. -/
def Field.readBack (f : Field) (v : Value) : Value :=
  match f.dataType.isRepeated, v with
  | true, .null => .list []
  | _, v => v

def Schema.readBack (s : Schema) (r : Row) : Row := List.zipWith Field.readBack s.fields r

theorem Field.readBack_of_flat {f : Field} (flat : f.dataType.isRepeated = false) (v : Value) :
    f.readBack v = v := by
  simp [Field.readBack, flat]

namespace ListVector

theorem length_offsetsFrom (start : Nat) (lists : List (List Value)) :
    (offsetsFrom start lists).length = lists.length + 1 := by
  induction lists generalizing start with
  | nil => rfl
  | cons l ls ih => simp [offsetsFrom, ih]

theorem getElem?_offsetsFrom (start : Nat) (lists : List (List Value)) (i : Nat)
    (inside : i ≤ lists.length) :
    (offsetsFrom start lists)[i]? = some (start + (lists.take i).flatten.length) := by
  induction lists generalizing start i with
  | nil =>
    obtain rfl : i = 0 := by simpa using inside
    simp [offsetsFrom]
  | cons l ls ih =>
    cases i with
    | zero => simp [offsetsFrom]
    | succ i =>
      rw [offsetsFrom, List.getElem?_cons_succ, ih _ _ (by simpa using inside)]
      simp [Nat.add_assoc]

variable {field : Field} {lists : List (List Value)} {origin : Option Nat} {v : ListVector}

theorem ofLists_ok (built : ofLists field lists origin = .ok v) :
    v.field = field ∧ v.offsets.toList = offsetsFrom 0 lists ∧ v.inner.toList = lists.flatten := by
  obtain ⟨inner, fitting, cut⟩ := bind_eq_ok.mp built
  have stored : inner.toList = lists.flatten := by
    simp only [FlatVector.ofFitting] at fitting
    split at fitting
    · cases fitting
    · cases fitting
      simp [FlatVector.ofList, FlatVector.toList]
  simp only [ofOffsets] at cut
  split at cut
  · cases cut
  · split at cut
    · cases cut
      exact ⟨rfl, by simp, stored⟩
    · cases cut

theorem length_ofLists (built : ofLists field lists origin = .ok v) :
    v.length = lists.length := by
  obtain ⟨-, offsets, -⟩ := ofLists_ok built
  have size : v.offsets.size = lists.length + 1 := by
    rw [← Array.length_toList, offsets, length_offsetsFrom]
  simp [length, size]

theorem listAt?_ofLists (built : ofLists field lists origin = .ok v) (i : Nat) :
    v.listAt? i = lists[i]?.map Value.list := by
  obtain ⟨-, offsets, inner⟩ := ofLists_ok built
  rw [listAt?, length_ofLists built]
  split
  next inside =>
    have here (j : Nat) (bound : j ≤ lists.length) :
        v.offsets[j]? = some (lists.take j).flatten.length := by
      rw [← Array.getElem?_toList, offsets, getElem?_offsetsFrom _ _ _ bound, Nat.zero_add]
    have upTo : (lists.take (i + 1)).flatten = (lists.take i).flatten ++ lists[i] := by
      rw [← List.take_append_getElem inside, List.flatten_append, List.flatten_singleton]
    have split : lists.flatten = (lists.take (i + 1)).flatten ++ (lists.drop (i + 1)).flatten := by
      rw [← List.flatten_append, List.take_append_drop]
    have count : v.countAt i = lists[i].length := by
      simp only [countAt, here i (Nat.le_of_lt inside), here (i + 1) inside, upTo,
        List.length_append, Nat.add_sub_cancel_left]
    have start : v.offsetAt i = (lists.take i).flatten.length := by
      simp only [offsetAt, here i (Nat.le_of_lt inside), Option.getD_some]
    rw [valuesAt, count, start, inner, split, upTo, List.append_assoc, List.drop_left,
      List.take_left]
    simp [inside]
  next outside => simp [Nat.not_lt.mp outside]

end ListVector

namespace Column

variable {field : Field} {values : List Value} {origin : Option Nat} {c : Column}

theorem rowItems_ok {v : Value} {items : List Value} (h : rowItems field v = .ok items)
    (repeated : field.dataType.isRepeated = true) : field.readBack v = .list items := by
  cases v <;> simp_all [rowItems, Field.readBack]

/-- A column built from values keeps the field, has a row for each value, and gives the values
back. -/
theorem ofValues_ok (built : ofValues field values origin = .ok c) :
    c.field = field ∧ c.length = values.length ∧
      ∀ i, c.value? i = values[i]?.map field.readBack := by
  unfold ofValues at built
  split at built
  next repeated =>
    obtain ⟨lists, items, built⟩ := bind_eq_ok.mp built
    obtain ⟨v, ofLists, built⟩ := bind_eq_ok.mp built
    obtain rfl := pure_eq_ok.mp built
    have each := mapM_eq_ok.mp items
    refine ⟨(ListVector.ofLists_ok ofLists).1,
      (ListVector.length_ofLists ofLists).trans each.length_eq.symm, fun i => ?_⟩
    rw [value?, ListVector.listAt?_ofLists ofLists]
    by_cases inside : i < values.length
    · have bound : i < lists.length := each.length_eq ▸ inside
      have here := (List.forall₂_iff_get.mp each).2 i inside bound
      simp only [List.get_eq_getElem] at here
      simp [inside, bound, rowItems_ok here repeated]
    · have outside : lists.length ≤ i := by rw [← each.length_eq]; omega
      simp [outside, Nat.not_lt.mp inside]
  next flat =>
    obtain ⟨v, fitting, built⟩ := bind_eq_ok.mp built
    obtain rfl := pure_eq_ok.mp built
    simp only [FlatVector.ofFitting] at fitting
    split at fitting
    · cases fitting
    · cases fitting
      refine ⟨rfl, rfl, fun i => ?_⟩
      have same : field.readBack = id :=
        funext (Field.readBack_of_flat (Bool.eq_false_iff.mpr flat))
      rw [value?, FlatVector.get?, FlatVector.ofList, ← Window.getElem?_toList,
        Window.toList_ofList, same, Option.map_id, id]

end Column

namespace BatchBuilder

/-- The builder has taken in these rows, and keeps value `i` of each in column `i`. -/
structure Contains (b : BatchBuilder) (rows : List Row) : Prop where
  columns : b.columns.length = b.schema.width
  widths : ∀ r ∈ rows, r.length = b.schema.width
  size : ∀ (i : Nat) (col : Array Value), b.columns[i]? = some col → col.size = rows.length
  cell : ∀ (i : Nat) (col : Array Value), b.columns[i]? = some col →
    ∀ j : Nat, col[j]? = rows[j]?.bind fun r : Row => r[i]?

theorem contains_ofSchema (s : Schema) : (ofSchema s).Contains [] := by
  have empty (i : Nat) (col : Array Value) (there : (ofSchema s).columns[i]? = some col) :
      col = #[] := by
    have member := List.mem_of_getElem? there
    simp only [ofSchema, List.mem_map] at member
    obtain ⟨-, -, rfl⟩ := member
    rfl
  exact ⟨by simp [ofSchema, Schema.width], by simp, fun i col there => by simp [empty i col there],
    fun i col there => by simp [empty i col there]⟩

theorem append_ok {b b' : BatchBuilder} {row : Row} (h : b.append row = .ok b') :
    row.length = b.columns.length ∧
      b' = { b with columns := b.columns.zipWith Array.push row } := by
  unfold append at h
  split at h
  · cases h
  next width => exact ⟨by simpa using width, (Except.ok.inj h).symm⟩

theorem Contains.append_contains {b b' : BatchBuilder} {rows : List Row} {row : Row}
    (c : b.Contains rows) (h : b.append row = .ok b') :
    b'.Contains (rows ++ [row]) ∧ b'.schema = b.schema := by
  obtain ⟨width, rfl⟩ := append_ok h
  have pushed (i : Nat) (col : Array Value)
      (there : (b.columns.zipWith Array.push row)[i]? = some col) :
      ∃ old v, b.columns[i]? = some old ∧ row[i]? = some v ∧ old.push v = col := by
    rw [List.getElem?_zipWith] at there
    split at there
    next old v hold hv => exact ⟨old, v, hold, hv, Option.some.inj there⟩
    next => cases there
  refine ⟨⟨?_, ?_, ?_, ?_⟩, rfl⟩
  · simp [c.columns, width]
  · intro r member
    rcases List.mem_append.mp member with old | new
    · exact c.widths r old
    · obtain rfl := List.mem_singleton.mp new
      exact width.trans c.columns
  · intro i col there
    obtain ⟨old, v, hold, -, rfl⟩ := pushed i col there
    simp [c.size i old hold]
  · intro i col there j
    obtain ⟨old, v, hold, hv, rfl⟩ := pushed i col there
    rw [Array.getElem?_push, c.size i old hold]
    split
    next last => simp [last, hv]
    next other =>
      rw [c.cell i old hold j, List.getElem?_append]
      split
      · rfl
      next outside => simp [List.getElem?_eq_none (show rows.length ≤ j by omega),
          List.getElem?_eq_none (show [row].length ≤ j - rows.length by simp; omega)]

theorem Contains.foldlM_contains {b b' : BatchBuilder} {rows more : List Row} (c : b.Contains rows)
    (h : more.foldlM BatchBuilder.append b = .ok b') :
    b'.Contains (rows ++ more) ∧ b'.schema = b.schema := by
  induction more generalizing b rows with
  | nil =>
    obtain rfl := pure_eq_ok.mp h
    simpa using c
  | cons row more ih =>
    rw [List.foldlM_cons] at h
    obtain ⟨b₁, first, others⟩ := bind_eq_ok.mp h
    obtain ⟨c₁, same⟩ := c.append_contains first
    obtain ⟨c', same'⟩ := ih c₁ others
    exact ⟨by simpa using c', same'.trans same⟩

/-- A new builder that takes rows in one after another contains them. -/
theorem contains_foldlM {s : Schema} {b : BatchBuilder} {rows : List Row}
    (h : rows.foldlM BatchBuilder.append (ofSchema s) = .ok b) :
    b.Contains rows ∧ b.schema = s := by
  obtain ⟨held, schema⟩ := (contains_ofSchema s).foldlM_contains h
  exact ⟨by simpa using held, schema⟩

end BatchBuilder

namespace Batch

theorem ofColumns_ok {s : Schema} {columns : List Column} {b : Batch}
    (h : ofColumns s columns = .ok b) :
    b.schema = s ∧ b.columns = columns ∧ columns.length = s.width ∧ b.selection = none ∧
      b.numRows = (columns.head?.map Column.length).getD 0 := by
  unfold ofColumns at h
  split at h
  · cases h
  next count =>
    split at h
    · cases h
    · simp only at h
      split at h
      · cases h
      · obtain rfl := Except.ok.inj h
        exact ⟨rfl, rfl, by simpa using count, rfl, rfl⟩

theorem row?_eq_some {b : Batch} {i : Nat} {r : Row} (inside : i < b.numRows)
    (each : List.Forall₂ (fun c v => Column.value? c i = some v) b.columns r) :
    b.row? i = some r := by
  rw [row?, if_pos inside, option_mapM_eq_some each]

theorem rows_eq {b : Batch} {rows : List Row} (count : b.numRows = rows.length)
    (each : ∀ i r, rows[i]? = some r → b.row? i = some r) : b.rows = rows := by
  have pointwise : (List.range rows.length).map b.row? = rows.map some := by
    apply List.ext_getElem?
    intro i
    by_cases inside : i < rows.length
    · simp [inside, each i rows[i] (List.getElem?_eq_getElem inside)]
    · simp [Nat.not_lt.mp inside]
  have folded : b.rows = ((List.range b.numRows).map b.row?).filterMap id := by
    simp [Batch.rows, List.filterMap_map]
  rw [folded, count, pointwise]
  simp [List.filterMap_map]

theorem readings_eq {b : Batch} {rows : List Row} (count : b.numRows = rows.length)
    (each : ∀ i r, rows[i]? = some r → b.row? i = some r) : b.readings = rows.map .ok := by
  apply List.ext_getElem?
  intro i
  by_cases inside : i < rows.length
  · simp [readings, count, inside, each i rows[i] (List.getElem?_eq_getElem inside)]
  · simp [readings, count, Nat.not_lt.mp inside]

theorem readings_of_length {b : Batch} (whole : b.rows.length = b.numRows) :
    b.readings = b.rows.map .ok := by
  have readable : ∀ i ∈ List.range b.numRows, (b.row? i).isSome := by
    apply List.filterMap_length_eq_length.mp
    rw [List.length_range]
    exact whole
  unfold readings rows
  generalize List.range b.numRows = places at readable
  induction places with
  | nil => rfl
  | cons i places ih =>
    obtain ⟨r, there⟩ := Option.isSome_iff_exists.mp (readable i List.mem_cons_self)
    have others := ih fun j member => readable j (List.mem_cons_of_mem i member)
    rw [List.map_cons, List.filterMap_cons_some there, List.map_cons, others, there]

variable {s : Schema} {rows : List Row} {b : Batch}

/-- What a batch holds that is built from rows taken in: the rows as its columns give them back. -/
theorem build_ok {builder : BatchBuilder} (held : builder.Contains rows)
    (built : builder.build = .ok b) (wide : 0 < builder.schema.width) :
    b.schema = builder.schema ∧ b.selection = none ∧ b.numRows = rows.length ∧
      ∀ i r, (rows.map builder.schema.readBack)[i]? = some r → b.row? i = some r := by
  obtain ⟨columns, made, built⟩ := bind_eq_ok.mp built
  obtain ⟨sameSchema, sameColumns, enough, noSelection, numRows⟩ := ofColumns_ok built
  have each := mapM_eq_ok.mp made
  have cells := held.columns
  -- Column `j` was made from the field and the values in place `j`.
  have column (j : Nat) (bound : j < builder.schema.width) :
      ∃ c, columns[j]? = some c ∧ c.length = rows.length ∧
        ∀ i, c.value? i = (rows[i]?.bind fun r : Row => r[j]?).map
          (builder.schema.fields.get ⟨j, bound⟩).readBack := by
    have inZip : j < (builder.schema.fields.zip builder.columns).length := by
      simp only [List.length_zip, cells]
      exact Nat.lt_min.mpr ⟨bound, bound⟩
    have inColumns : j < columns.length := enough ▸ bound
    have here := (List.forall₂_iff_get.mp each).2 j inZip inColumns
    simp only [List.get_eq_getElem, List.getElem_zip] at here
    obtain ⟨-, length, value⟩ := Column.ofValues_ok here
    have inBuilder : j < builder.columns.length := by
      rw [cells]
      exact bound
    have there : builder.columns[j]? = some builder.columns[j] := List.getElem?_eq_getElem inBuilder
    refine ⟨columns[j], List.getElem?_eq_getElem inColumns, ?_, fun i => ?_⟩
    · rw [length, Array.length_toList, held.size j _ there]
    · rw [value, Array.getElem?_toList, held.cell j _ there]
      rfl
  have count : b.numRows = rows.length := by
    obtain ⟨c, first, length, -⟩ := column 0 wide
    rw [numRows, List.head?_eq_getElem?, first]
    simpa using length
  refine ⟨sameSchema, noSelection, count, fun i r there => ?_⟩
  obtain ⟨row, source, rfl⟩ : ∃ row, rows[i]? = some row ∧ builder.schema.readBack row = r := by
    simpa using there
  have inside : i < rows.length := (List.getElem?_eq_some_iff.mp source).1
  have rowWidth : row.length = builder.schema.width := held.widths row (List.mem_of_getElem? source)
  apply row?_eq_some (count ▸ inside)
  rw [sameColumns, List.forall₂_iff_get]
  have sameLength : columns.length = (builder.schema.readBack row).length := by
    rw [Schema.readBack, List.length_zipWith, rowWidth, enough, Schema.width, Nat.min_self]
  refine ⟨sameLength, fun j inColumns inRow => ?_⟩
  have bound : j < builder.schema.width := enough ▸ inColumns
  obtain ⟨c, there, -, value⟩ := column j bound
  obtain rfl : columns[j] = c := (List.getElem?_eq_some_iff.mp there).2
  have inSource : j < row.length := rowWidth ▸ bound
  simp only [List.get_eq_getElem, value, source, Option.bind_some,
    List.getElem?_eq_getElem inSource, Option.map_some, Schema.readBack, List.getElem_zipWith]

theorem ofRows_builder (built : ofRows s rows = .ok b) :
    ∃ builder : BatchBuilder, builder.Contains rows ∧ builder.schema = s ∧
      builder.build = .ok b := by
  obtain ⟨builder, appended, built⟩ := bind_eq_ok.mp built
  obtain ⟨held, schema⟩ := BatchBuilder.contains_foldlM appended
  exact ⟨builder, held, schema, built⟩

/-- What a batch made of rows holds: the rows as its columns give them back. -/
theorem ofRows_ok (built : ofRows s rows = .ok b) (wide : 0 < s.width) :
    b.schema = s ∧ b.selection = none ∧ b.numRows = rows.length ∧
      ∀ i r, (rows.map s.readBack)[i]? = some r → b.row? i = some r := by
  obtain ⟨builder, held, rfl, builds⟩ := ofRows_builder built
  exact build_ok held builds wide

/-- Without columns a batch counts no rows, whatever was put into it. -/
theorem numRows_narrow (built : ofRows s rows = .ok b) (narrow : s.width = 0) : b.numRows = 0 := by
  obtain ⟨builder, -, rfl, builds⟩ := ofRows_builder built
  obtain ⟨columns, -, made⟩ := bind_eq_ok.mp builds
  obtain ⟨-, -, width, -, numRows⟩ := ofColumns_ok made
  have none : columns = [] := List.eq_nil_of_length_eq_zero (width.trans narrow)
  rw [numRows, none]
  rfl

theorem numRows_ofRows_le (built : ofRows s rows = .ok b) : b.numRows ≤ rows.length := by
  rcases Nat.eq_zero_or_pos s.width with narrow | wide
  · rw [numRows_narrow built narrow]
    exact Nat.zero_le _
  · exact Nat.le_of_eq (ofRows_ok built wide).2.2.1

theorem length_readings (b : Batch) : b.readings.length = b.numRows := by simp [readings]

theorem rows_ofRows (built : ofRows s rows = .ok b) (wide : 0 < s.width) :
    b.rows = rows.map s.readBack := by
  obtain ⟨-, -, count, each⟩ := ofRows_ok built wide
  exact rows_eq (by simpa using count) each

end Batch
end BatchFlow

import BatchFlow.Proofs.Batch.Fitting
import BatchFlow.Proofs.Vector.Partition

/-!
The rows of a list vector are a partition of its inner values: one after another they make them up,
each begins where those before it end, and past the last row there is nothing. Offsets are accepted
exactly if they cut the inner values in this way, and lists put in are the rows read back.
-/
namespace BatchFlow

theorem rising_iff {l : List Nat} : rising l = true ↔ l.Pairwise (· ≤ ·) := by
  refine ⟨rising_pairwise, fun sorted => ?_⟩
  induction sorted with
  | nil => rfl
  | @cons a l below _ ih =>
    cases l with
    | nil => rfl
    | cons b l => simp [rising, below b List.mem_cons_self, ih]

theorem cuts_iff {offsets : List Nat} {n : Nat} :
    cuts offsets n = true ↔
      offsets.head? = some 0 ∧ offsets.Pairwise (· ≤ ·) ∧ offsets.getLast? = some n := by
  simp only [cuts, Bool.and_eq_true, decide_eq_true_eq, rising_iff, and_assoc]

namespace ListVector

variable {field : Field} {offsets : List Nat} {inner : FlatVector} {v : ListVector}

/-- Offsets make a list vector of an array field exactly if they cut its inner values. -/
theorem ofOffsets_ok :
    ofOffsets field offsets inner = .ok v ↔
      (field.dataType = .array inner.field.dataType ∧ cuts offsets inner.length = true) ∧
        v.field = field ∧ v.offsets.toList = offsets ∧ v.inner = inner := by
  simp only [ofOffsets]
  split
  next other => simp [other]
  next array =>
    rw [not_not] at array
    split
    next cut =>
      obtain ⟨f, starts, values, partitions⟩ := v
      simp only [Except.ok.injEq, mk.injEq, array, cut, true_and]
      grind
    next uncut => simp [uncut]

theorem offsets_zero (v : ListVector) : v.offsets[0]? = some 0 := by
  rw [← Array.getElem?_toList, ← List.head?_eq_getElem?]
  exact (cuts_iff.mp v.partitions).1

theorem offsets_length (v : ListVector) : v.offsets[v.length]? = some v.inner.length := by
  have last := (cuts_iff.mp v.partitions).2.2
  rwa [List.getLast?_eq_getElem?, Array.getElem?_toList, Array.length_toList] at last

/-- The rows before an offset make up the inner values before it. -/
theorem flatMap_valuesAt (v : ListVector) {row start : Nat} (here : v.offsets[row]? = some start) :
    (List.range row).flatMap v.valuesAt = v.inner.toList.take start := by
  induction row generalizing start with
  | zero =>
    obtain rfl : 0 = start := Option.some.inj (v.offsets_zero.symm.trans here)
    rfl
  | succ row ih =>
    have inside : row < v.offsets.size :=
      Nat.lt_of_succ_lt (Array.getElem?_eq_some_iff.mp here).1
    have before : v.offsets[row]? = some v.offsets[row] := Array.getElem?_eq_getElem inside
    have up : v.offsets[row] ≤ start := v.offsets_le before here
    have values : v.valuesAt row =
        (v.inner.toList.drop v.offsets[row]).take (start - v.offsets[row]) := by
      simp [valuesAt, offsetAt, countAt, before, here]
    rw [List.range_succ, List.flatMap_append, ih before, List.flatMap_singleton, values,
      ← List.take_add, Nat.add_sub_cancel' up]

theorem offsetAt_eq_length (v : ListVector) {row : Nat} (inside : row ≤ v.length) :
    v.offsetAt row = ((List.range row).flatMap v.valuesAt).length := by
  have bound : row < v.offsets.size := by
    have some := (Array.getElem?_eq_some_iff.mp v.offsets_zero).1
    unfold length at inside
    omega
  have here : v.offsets[row]? = some v.offsets[row] := Array.getElem?_eq_getElem bound
  have total : v.inner.toList.length = v.inner.length := Window.length_toList _
  rw [v.flatMap_valuesAt here, List.length_take, total, Nat.min_eq_left (v.offset_le here), offsetAt,
    here, Option.getD_some]

theorem countAt_past (v : ListVector) {row : Nat} (past : v.length ≤ row) : v.countAt row = 0 := by
  have none : v.offsets[row + 1]? = none := by
    rw [Array.getElem?_eq_none_iff]
    unfold length at past
    omega
  simp [countAt, none]

structure Partitioned (v : ListVector) : Prop where
  whole : (List.range v.length).flatMap v.valuesAt = v.inner.toList
  consecutive : ∀ row ≤ v.length, v.offsetAt row = ((List.range row).flatMap v.valuesAt).length
  values : ∀ row, (v.valuesAt row).length = v.countAt row ∧
    ∀ i < v.countAt row, (v.valuesAt row)[i]? = v.inner.toList[v.offsetAt row + i]?
  inside : (∀ row, v.offsetAt row + v.countAt row ≤ v.inner.length) ∧
    v.inner.toList.length = v.inner.length
  rising : ∀ row start stop, v.offsets[row]? = some start → v.offsets[row + 1]? = some stop →
    start ≤ stop
  past : ∀ row, v.length ≤ row → v.countAt row = 0 ∧ v.valuesAt row = [] ∧ v.listAt? row = none

theorem partitioned (v : ListVector) : v.Partitioned := by
  have total : v.inner.toList.length = v.inner.length := Window.length_toList _
  refine ⟨?whole, fun row => v.offsetAt_eq_length, ?values, ⟨v.offsetAt_add_countAt_le, total⟩,
    fun row start stop => v.offsets_le, ?past⟩
  case whole => rw [v.flatMap_valuesAt v.offsets_length, ← total, List.take_length]
  case values =>
    intro row
    refine ⟨v.length_valuesAt row, fun i counted => ?_⟩
    rw [valuesAt, List.getElem?_take_of_lt counted, List.getElem?_drop]
  case past =>
    intro row past
    have none := v.countAt_past past
    refine ⟨none, ?_, ?_⟩
    · rw [valuesAt, none, List.take_zero]
    · rw [listAt?, if_neg (Nat.not_lt.mpr past)]

/-- Lists make a list vector exactly if the field is an array whose type all their members fit. -/
theorem ofLists_fit {lists : List (List Value)} (origin : Option Nat) :
    (∃ v, ofLists field lists origin = .ok v) ↔
      ∃ t, field.dataType = .array t ∧ ∀ l ∈ lists, ∀ x ∈ l, x.fits t = true := by
  have members (t : DataType) : (∀ l ∈ lists, ∀ x ∈ l, x.fits t = true) ↔
      ∀ l ∈ lists, Value.allFit l t = true := by
    simp only [Value.allFit_eq_all, List.all_eq_true]
  constructor
  · rintro ⟨v, built⟩
    obtain ⟨inner, -, cut⟩ := bind_eq_ok.mp built
    have array := (ofOffsets_ok.mp cut).1.1
    exact ⟨_, array, (members _).mpr ((ofLists_iff origin array).mp ⟨v, built⟩)⟩
  · rintro ⟨t, array, fit⟩
    exact (ofLists_iff origin array).mpr ((members t).mp fit)

/-- Offsets are accepted exactly if the field is an array of the inner type, and they start at 0,
never decrease and end at the number of inner values. However a list vector came about, its rows
partition its inner values. Lists are accepted exactly if the field is an array whose type all their
members fit, and the rows are then the lists. -/
theorem rows_partition_values :
    (∀ field offsets inner,
      ((∃ v, ofOffsets field offsets inner = .ok v) ↔
        field.dataType = .array inner.field.dataType ∧ offsets.head? = some 0 ∧
          offsets.Pairwise (· ≤ ·) ∧ offsets.getLast? = some inner.toList.length) ∧
      ∀ v, ofOffsets field offsets inner = .ok v →
        v.field = field ∧ v.offsets.toList = offsets ∧ v.inner = inner) ∧
    (∀ v : ListVector, v.Partitioned) ∧
    ∀ field lists origin,
      ((∃ v, ofLists field lists origin = .ok v) ↔
        ∃ t, field.dataType = .array t ∧ ∀ l ∈ lists, ∀ x ∈ l, x.fits t = true) ∧
      ∀ v, ofLists field lists origin = .ok v →
        v.length = lists.length ∧ ∀ row, v.listAt? row = lists[row]?.map Value.list := by
  refine ⟨fun field offsets inner => ⟨?accepted, ?made⟩, partitioned, fun field lists origin =>
    ⟨ofLists_fit origin, fun v built => ⟨length_ofLists built, listAt?_ofLists built⟩⟩⟩
  case accepted =>
    have total : inner.toList.length = inner.length := Window.length_toList _
    rw [total, ← cuts_iff]
    constructor
    · rintro ⟨v, built⟩
      exact (ofOffsets_ok.mp built).1
    · rintro ⟨array, cut⟩
      exact ⟨⟨field, offsets.toArray, inner, cut⟩, ofOffsets_ok.mpr ⟨⟨array, cut⟩, rfl, rfl, rfl⟩⟩
  case made => exact fun v built => (ofOffsets_ok.mp built).2

/-- Three rows, the second of them empty; and offsets that go down. -/
theorem three_rows_partition :
    let field : Field := ⟨"items", .array .boolean, true⟩
    let lists : List (List Value) := [[.boolean true, .null, .boolean false], [], [.boolean true]]
    let inner : FlatVector := .ofList ⟨"items", .boolean, true⟩ lists.flatten none
    (∃ v, ofLists field lists none = .ok v ∧ v.length = 3 ∧ v.listAt? 1 = some (.list []) ∧
      (List.range 3).flatMap v.valuesAt = lists.flatten ∧ v.valuesAt 3 = []) ∧
      ¬∃ v, ofOffsets field [0, 3, 1, 4] inner = .ok v := by
  intro field lists inner
  obtain ⟨accepted, partitioned, made⟩ := rows_partition_values
  obtain ⟨fit, rows⟩ := made field lists none
  obtain ⟨v, built⟩ := fit.mpr ⟨.boolean, rfl, by decide⟩
  obtain ⟨length, row⟩ := rows v built
  have parts := partitioned v
  refine ⟨⟨v, built, length, row 1, ?_, (parts.past 3 (Nat.le_of_eq length)).2.1⟩, ?_⟩
  · have whole := parts.whole
    rwa [length, (ofLists_ok built).2.2] at whole
  · rw [(accepted field [0, 3, 1, 4] inner).1]
    exact fun cut => absurd cut.2.2.1 (by decide)

end ListVector
end BatchFlow

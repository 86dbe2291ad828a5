import BatchFlow.Proofs.Batch.RowRoundTrip

/-!
The record count of a batch against the lengths of its columns. A batch whose columns cover its
record count shows every row that it counts. All operations keep to that but one: a column that is
added or replaced is empty, and the record count stays, so on a batch that holds rows no row can be
read any more.
-/
namespace BatchFlow

theorem Column.length_empty (field : Field) (origin : Option Nat) :
    (Column.empty field origin).length = 0 := by
  unfold Column.empty
  split <;> rfl

/-- A column has a value in every place below its length, and in no other. -/
theorem Column.isSome_value? (c : Column) (i : Nat) : (c.value? i).isSome ↔ i < c.length := by
  cases c with
  | flat v =>
    have inside : (v.toList[i]?).isSome ↔ i < v.toList.length := by simp
    have length : v.toList.length = v.length := Window.length_toList _
    rwa [length, FlatVector.toList, Window.getElem?_toList] at inside
  | repeated v =>
    simp only [Column.value?, Column.length, ListVector.listAt?]
    split <;> simp_all

theorem option_mapM_isSome {α β : Type} {f : α → Option β} {xs : List α} :
    (xs.mapM f).isSome ↔ ∀ x ∈ xs, (f x).isSome := by
  induction xs with
  | nil => simp
  | cons x xs ih =>
    rw [List.mapM_cons, List.forall_mem_cons, ← ih]
    cases f x <;> cases xs.mapM f <;> simp

namespace Batch

def Covered (b : Batch) : Prop := ∀ c ∈ b.columns, b.numRows ≤ c.length

def changesFor (b : Batch) (field : Field) : Bool := (b.ensureColumn field .lowered).2.1.raised

/-- A column may be added or replaced while the batch counts no rows. -/
def Harmless (b : Batch) (field : Field) : Prop := b.numRows = 0 ∨ b.changesFor field = false

/-- Batches as their operations make them from columns, from rows or from nothing. A column is asked
for only where `asks` allows it. -/
inductive Made (asks : Batch → Field → Prop) : Batch → Prop
  | ofColumns {s : Schema} {columns : List Column} {b : Batch}
      (built : Batch.ofColumns s columns = .ok b) : Made asks b
  | ofRows {s : Schema} {rows : List Row} {b : Batch} (built : Batch.ofRows s rows = .ok b) :
      Made asks b
  | empty (s : Schema) : Made asks (.empty s)
  | resize {b b' : Batch} {count : Nat} (made : Made asks b) (resized : b.resize count = .ok b') :
      Made asks b'
  | ensureColumn {b : Batch} {field : Field} (made : Made asks b) (allowed : asks b field)
      (flag : ChangeFlag) : Made asks (b.ensureColumn field flag).1
  | select {b : Batch} (made : Made asks b) (s : Selection) : Made asks (b.select s)
  | taken {b : Batch} (made : Made asks b) : Made asks b.take.1
  | left {b : Batch} (made : Made asks b) : Made asks b.take.2
  | clear {b : Batch} (made : Made asks b) : Made asks b.clear

variable {b b' : Batch} {field : Field} {flag : ChangeFlag}

theorem ensureColumn_cases (b : Batch) (field : Field) (flag : ChangeFlag) :
    b.changesFor field = false ∧ (b.ensureColumn field flag).1 = b ∨
      b.changesFor field = true ∧
        (b.ensureColumn field flag).1.numRows = b.numRows ∧
        Column.empty field none ∈ (b.ensureColumn field flag).1.columns := by
  unfold changesFor ensureColumn
  split
  next i _ =>
    split
    next c there =>
      have inside : i < b.columns.length := (List.getElem?_eq_some_iff.mp there).1
      split
      · exact .inl ⟨rfl, rfl⟩
      · exact .inr ⟨rfl, rfl, List.mem_set inside _⟩
    · exact .inl ⟨rfl, rfl⟩
  · exact .inr ⟨rfl, rfl, by simp [withColumns]⟩

theorem schemaVersion_ensureColumn (changes : b.changesFor field = true) :
    (b.ensureColumn field flag).1.schemaVersion = b.schemaVersion + 1 := by
  rw [changesFor, ensureColumn] at changes
  rw [ensureColumn]
  cases place : b.schema.indexOf? field.name with
  | none => rfl
  | some i =>
    cases there : b.columns[i]? with
    | none => simp [place, there, ChangeFlag.lowered] at changes
    | some c =>
      by_cases shape : c.field.sameShape field = true
      · simp [place, there, shape, ChangeFlag.lowered] at changes
      · simp [there, shape, withColumns]

theorem Covered.isSome_row? (covered : b.Covered) {i : Nat} (inside : i < b.numRows) :
    (b.row? i).isSome := by
  rw [row?, if_pos inside, option_mapM_isSome]
  intro c member
  exact (c.isSome_value? i).mpr (Nat.lt_of_lt_of_le inside (covered c member))

theorem Covered.length_rows (covered : b.Covered) : b.rows.length = b.numRows := by
  have readable : ∀ i ∈ List.range b.numRows, (b.row? i).isSome := by
    intro i member
    exact covered.isSome_row? (List.mem_range.mp member)
  rw [rows, List.filterMap_length_eq_length.mpr readable, List.length_range]

/-- Where one column is empty, no row can be read. -/
theorem rows_of_empty {c : Column} (member : c ∈ b.columns) (empty : c.length = 0) :
    b.rows = [] := by
  rw [rows, List.filterMap_eq_nil_iff]
  intro i _
  unfold row?
  split
  · by_contra readable
    have here := option_mapM_isSome.mp (Option.isSome_iff_ne_none.mpr readable) c member
    rw [Column.isSome_value?, empty] at here
    exact Nat.not_lt_zero i here
  · rfl

/-! What each operation does to the cover. -/

theorem covered_ofColumns {s : Schema} {columns : List Column} (built : ofColumns s columns = .ok b) :
    b.Covered := by
  unfold ofColumns at built
  split at built
  · cases built
  · split at built
    · cases built
    · simp only at built
      split at built
      · cases built
      next even =>
        obtain rfl := Except.ok.inj built
        intro c member
        have same := List.find?_eq_none.mp even c member
        exact Nat.le_of_eq (by simpa using Eq.symm (by simpa using same))

theorem covered_ofRows {s : Schema} {rows : List Row} (built : ofRows s rows = .ok b) :
    b.Covered := by
  obtain ⟨_, -, built⟩ := bind_eq_ok.mp built
  obtain ⟨_, -, built⟩ := bind_eq_ok.mp built
  exact covered_ofColumns built

theorem covered_of_none (none : b.numRows = 0) : b.Covered := by
  intro c _
  rw [none]
  exact Nat.zero_le _

theorem resize_cases (b : Batch) (count : Nat) :
    (∃ c ∈ b.columns, c.length < count ∧
        b.resize count = .error (.argument (.recordCount count c.length c.field.name))) ∨
      (∀ c ∈ b.columns, count ≤ c.length) ∧ b.resize count = .ok { b with numRows := count } := by
  rw [resize]
  split
  next c found =>
    exact .inl ⟨c, List.mem_of_find?_eq_some found, by simpa using List.find?_some found, rfl⟩
  next long =>
    refine .inr ⟨fun c member => ?_, rfl⟩
    simpa using List.find?_eq_none.mp long c member

theorem covered_resize {count : Nat} (resized : b.resize count = .ok b') : b'.Covered := by
  rcases b.resize_cases count with ⟨c, -, -, refused⟩ | ⟨long, done⟩
  · rw [refused] at resized
    cases resized
  · rw [done] at resized
    exact Except.ok.inj resized ▸ long

theorem Covered.ensureColumn_iff (covered : b.Covered) :
    (b.ensureColumn field flag).1.Covered ↔ b.Harmless field := by
  rcases b.ensureColumn_cases field flag with ⟨kept, same⟩ | ⟨changed, numRows, added⟩
  · rw [same]
    exact ⟨fun _ => .inr kept, fun _ => covered⟩
  · constructor
    · intro still
      have short := still _ added
      rw [numRows, Column.length_empty] at short
      exact .inl (Nat.le_zero.mp short)
    · rintro (none | kept)
      · exact covered_of_none (numRows.trans none)
      · rw [kept] at changed
        cases changed

/-- As long as columns are added and replaced only where no rows are counted, the columns cover the
record count. -/
theorem Made.covered (made : Made Harmless b) : b.Covered := by
  induction made with
  | ofColumns built => exact covered_ofColumns built
  | ofRows built => exact covered_ofRows built
  | empty | left | clear => exact covered_of_none rfl
  | resize _ resized => exact covered_resize resized
  | ensureColumn _ allowed _ ih => exact ih.ensureColumn_iff.mpr allowed
  | select _ _ ih => exact ih
  | taken _ ih => exact ih

/-- As long as columns are added and replaced only where no rows are counted, a batch shows every row
that it counts. That is the exact condition: the first such change of a batch that counts rows
makes all of them unreadable, and they are still counted. -/
theorem made_shows_counted (made : Made Harmless b) :
    (∀ c ∈ b.columns, b.numRows ≤ c.length) ∧ (∀ i < b.numRows, (b.row? i).isSome) ∧
      b.rows.length = b.numRows ∧
      ∀ field flag, ((b.ensureColumn field flag).1.Covered ↔ b.Harmless field) ∧
        (¬b.Harmless field → (b.ensureColumn field flag).1.rows = [] ∧
          0 < (b.ensureColumn field flag).1.numRows) := by
  have covered := made.covered
  refine ⟨covered, fun i => covered.isSome_row?, covered.length_rows, fun field flag => ?_⟩
  refine ⟨covered.ensureColumn_iff, fun harm => ?_⟩
  obtain ⟨some, changes⟩ := not_or.mp harm
  rcases b.ensureColumn_cases field flag with ⟨kept, -⟩ | ⟨-, numRows, added⟩
  · exact absurd kept changes
  · refine ⟨rows_of_empty added (Column.length_empty field none), ?_⟩
    rw [numRows]
    exact Nat.pos_of_ne_zero some

def oneRow : Except Fault Batch := ofRows ⟨[⟨"a", .text, true⟩]⟩ [[.text "x"]]

def addedField : Field := ⟨"b", .integer .medium, true⟩

/-- Once the row has been taken away, a column may be added. -/
theorem emptied_shows_counted : ∃ b, oneRow = .ok b ∧ b.numRows = 1 ∧ b.rows.length = b.numRows ∧
    (b.take.2.ensureColumn addedField .lowered).1.rows.length =
      (b.take.2.ensureColumn addedField .lowered).1.numRows := by
  obtain ⟨b, built⟩ : ∃ b, oneRow = .ok b := ⟨_, rfl⟩
  have made : Made Harmless b := .ofRows built
  have added : Made Harmless (b.take.2.ensureColumn addedField .lowered).1 :=
    .ensureColumn (.left made) (.inl rfl) .lowered
  refine ⟨b, built, ?_, (made_shows_counted made).2.2.1, (made_shows_counted added).2.2.1⟩
  · obtain rfl := Except.ok.inj (built : Except.ok _ = _)
    rfl

/-- A column added to a batch of one row hides the row, which is still counted. -/
theorem added_column_hides_row : ¬∀ b, Made (fun _ _ => True) b →
    (∀ c ∈ b.columns, b.numRows ≤ c.length) ∧ b.rows.length = b.numRows := by
  intro shows
  obtain ⟨b, built⟩ : ∃ b, oneRow = .ok b := ⟨_, rfl⟩
  have added : Made (fun _ _ => True) (b.ensureColumn addedField .lowered).1 :=
    .ensureColumn (.ofRows built) trivial .lowered
  have shown := (shows _ added).2
  obtain rfl := Except.ok.inj (built : Except.ok _ = _)
  exact absurd shown (by decide)

end Batch
end BatchFlow

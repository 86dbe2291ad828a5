import BatchFlow.Proofs.Stream.Expansion

/-!
What a refused call of an expansion leaves. The expansion is always as it was. The batch is as it was
only if it has the column that the expansion fills and none of its other columns is too short for the
call. A batch without the column keeps an empty one, though the fault says that it is missing, and
shows no row from then on. A batch with a short column keeps its record count, and its rows read
otherwise: the values have been put in by the time that the count is refused.
-/
namespace BatchFlow.Expansion

/-- The batch has the column that a call fills, and in every other column enough values for it. -/
structure Receives (x : Expansion) (row requested : Nat) (out : Batch) : Prop where
  filled : ∀ v, x.column = some v →
    ∃ c, out.columnNamed? (madeField v).name = some c ∧ c.field.name = (madeField v).name
  others : ∀ v, x.column = some v → ∀ i c, out.columns[i]? = some c →
    out.schema.indexOf? (madeField v).name ≠ some i → x.step v row requested ≤ c.length

/-- An empty column is left in a batch that was refused for lack of it. -/
structure Adds (v : ListVector) (out : Batch) (e : Fault) (out' : Batch) : Prop where
  missing : ∀ c, out.columnNamed? (madeField v).name = some c → c.field.name ≠ (madeField v).name
  fault : e = .missingColumn (madeField v).name "outgoing batch"
  added : .empty (madeField v) none ∈ out'.columns
  version : out'.schemaVersion = out.schemaVersion + 1
  counted : out'.numRows = out.numRows
  unread : out'.rows = []

/-- The values of the call are left in the batch, whose record count is refused for a short column and
stays as it was. -/
structure Overwrites (x : Expansion) (v : ListVector) (row requested : Nat) (out : Batch) (e : Fault)
    (out' : Batch) : Prop where
  short : ∃ i c, out.columns[i]? = some c ∧ out.schema.indexOf? (madeField v).name ≠ some i ∧
    c.length < x.step v row requested ∧
    e = .argument (.recordCount (x.step v row requested) c.length c.field.name)
  put : ∃ i dst w, out.schema.indexOf? (madeField v).name = some i ∧
    out.columns[i]? = some (.flat dst) ∧ w.toList = x.part v row requested ∧
    out' = out.setColumn i (.flat { dst with window := w })

variable {x x' : Expansion} {v : ListVector} {row requested : Nat} {out out' : Batch} {e : Fault}

/-- A column that had to be put into a batch is empty, so the rows of the batch are lost to a reader. -/
theorem adds_of_raised
    (missing : ∀ c, out.columnNamed? (madeField v).name = some c → c.field.name ≠ (madeField v).name)
    (raised : (out.ensureColumn (madeField v) .lowered).2.1.raised = true) :
    Adds v out (.missingColumn (madeField v).name "outgoing batch")
      (out.ensureColumn (madeField v) .lowered).1 := by
  have changes : out.changesFor (madeField v) = true := raised
  rcases out.ensureColumn_cases (madeField v) .lowered with ⟨kept, -⟩ | ⟨-, counted, added⟩
  · rw [changes] at kept
    cases kept
  · exact ⟨missing, rfl, added, Batch.schemaVersion_ensureColumn changes, counted,
      Batch.rows_of_empty added (Column.length_empty _ _)⟩

/-- A refused call leaves the expansion as it was, and the batch too where the batch receives what the
call makes. Else the fault tells what is left: after a missing column the batch has an empty column
more, after a record count that a column falls short of it has the values of the call under its old
record count, and after any other fault it is as it was. -/
theorem refused_call_leaves (refused : x.expand row requested out = (.error e, x', out')) :
    x' = x ∧ (x.Receives row requested out → out' = out) ∧
      match e with
      | .missingColumn name _ => (∃ v, x.column = some v ∧ Adds v out e out') ∨
          out' = out ∧ ∃ i, out.schema.indexOf? name = some i ∧ out.columns[i]? = none
      | .argument (.recordCount ..) =>
          ∃ v, x.column = some v ∧ x.Overwrites v row requested out e out'
      | _ => out' = out := by
  have called := x.expand_called row requested out
  rw [refused] at called
  cases called with
  | kept _ early =>
    refine ⟨rfl, fun _ => rfl, ?_⟩
    split
    · exact early.elim
    · exact early.elim
    · rfl
  | lacking v i place gone => exact ⟨rfl, fun _ => rfl, .inr ⟨rfl, i, place, gone⟩⟩
  | added v column missing raised =>
    refine ⟨rfl, fun receives => ?_, .inl ⟨v, column, adds_of_raised missing raised⟩⟩
    obtain ⟨c, named, same⟩ := receives.filled v column
    exact absurd same (missing c named)
  | overwritten v i dst w c column place there shown length member short =>
    have another : c ≠ .flat { dst with window := w } := by
      rintro rfl
      exact absurd short (Nat.not_lt.mpr (Nat.le_of_eq length.symm))
    obtain ⟨j, other, at_j⟩ := (Batch.mem_setColumn member).resolve_left another
    have apart : out.schema.indexOf? (madeField v).name ≠ some j := by
      rw [place]
      exact fun same => other (Option.some.inj same).symm
    refine ⟨rfl, fun receives => ?_, v, column,
      ⟨j, c, at_j, apart, short, rfl⟩, ⟨i, dst, w, place, there, shown, rfl⟩⟩
    exact absurd short (Nat.not_lt.mpr (receives.others v column j c at_j apart))

def twoValues : Expansion := { start with ready := true, column := some twoItems }

def retyped : Batch := .empty ⟨[⟨"items", .integer .medium, true⟩]⟩

/-- A batch with a column of another type is refused and left as it was. -/
theorem retyped_call_leaves :
    twoValues.Receives 0 10 retyped ∧
      ∃ e, twoValues.expand 0 10 retyped = (.error e, twoValues, retyped) := by
  have receives : twoValues.Receives 0 10 retyped := by
    constructor
    · rintro _ ⟨⟩
      exact ⟨_, rfl, rfl⟩
    · rintro _ ⟨⟩ i c there apart
      cases i with
      | zero => exact absurd rfl apart
      | succ => cases there
  obtain ⟨e, refused⟩ : ∃ e, twoValues.expand 0 10 retyped =
      (.error e, (twoValues.expand 0 10 retyped).2) := ⟨_, rfl⟩
  obtain ⟨same, left, -⟩ := refused_call_leaves refused
  exact ⟨receives, e, refused.trans (congrArg _ (Prod.ext same (left receives)))⟩

/-- A batch of one row is refused for lack of a column, and its row is lost to a reader. -/
theorem missing_column_hides_row :
    ¬∀ x row requested out e x' out', expand x row requested out = (.error e, x', out') →
      x' = x ∧ out' = out ∧ out'.rows = out.rows := by
  intro leaves
  obtain ⟨b, built⟩ : ∃ b, Batch.oneRow = .ok b := ⟨_, rfl⟩
  obtain ⟨e, refused⟩ : ∃ e, twoValues.expand 0 10 b = (.error e, (twoValues.expand 0 10 b).2) := by
    obtain rfl := Except.ok.inj (built : Except.ok _ = _)
    exact ⟨_, rfl⟩
  have shown := (leaves _ _ _ _ _ _ _ refused).2.2
  obtain rfl := Except.ok.inj (built : Except.ok _ = _)
  exact absurd shown (by decide)

/-- Beside a column of one value the two values are refused, and the row reads "p" for "x". -/
example :
    (Batch.ofRows ⟨[⟨"items", .text, true⟩, ⟨"b", .text, true⟩]⟩ [[.text "x", .text "y"]]).toOption.map
        (fun b => (twoValues.expand 0 10 b).2.2.rows) =
      some [[.text "p", .text "y"]] := by decide

end BatchFlow.Expansion

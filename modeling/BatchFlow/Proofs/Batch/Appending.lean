import BatchFlow.Proofs.Batch.Fitting

/-!
A batch built row by row, with rows among them that are refused. A refused row leaves no trace; the
rows taken in make a batch if their values fit, and the batch gives them back in order.
-/
namespace BatchFlow.BatchBuilder

def offer (b : BatchBuilder) (row : Row) : Except Fault Unit × BatchBuilder :=
  match b.append row with
  | .ok b' => (.ok (), b')
  | .error e => (.error e, b)

def afterOffers (b : BatchBuilder) (rows : List Row) : BatchBuilder :=
  rows.foldl (fun b row => (b.offer row).2) b

variable {s : Schema} {b : BatchBuilder} {rows more : List Row}

theorem Contains.offer_contains (held : b.Contains rows) (row : Row) :
    if row.length = b.schema.width then
      (b.offer row).1 = .ok () ∧ (b.offer row).2.Contains (rows ++ [row]) ∧
        (b.offer row).2.schema = b.schema
    else b.offer row = (.error (.argument (.rowWidth row.length b.schema.width)), b) := by
  unfold BatchBuilder.offer
  split
  next width =>
    obtain ⟨b', taken⟩ : ∃ b', b.append row = .ok b' := by
      simp [BatchBuilder.append, width, held.columns]
    rw [taken]
    exact ⟨rfl, held.append_contains taken⟩
  next width =>
    have refused : b.append row = .error (.argument (.rowWidth row.length b.schema.width)) := by
      simp [BatchBuilder.append, width, held.columns]
    rw [refused]

theorem Contains.afterOffers_contains (held : b.Contains rows) (more : List Row) :
    (b.afterOffers more).Contains (rows ++ more.filter (·.length = b.schema.width)) ∧
      (b.afterOffers more).schema = b.schema := by
  induction more generalizing b rows with
  | nil => exact ⟨by simpa [BatchBuilder.afterOffers] using held, rfl⟩
  | cons row more ih =>
    rw [BatchBuilder.afterOffers, List.foldl_cons, ← BatchBuilder.afterOffers]
    have offered := held.offer_contains row
    split at offered
    next width =>
      obtain ⟨-, held', schema⟩ := offered
      obtain ⟨held'', schema'⟩ := ih held'
      rw [schema] at held'' schema'
      exact ⟨by simpa [width] using held'', schema'⟩
    next width =>
      rw [offered]
      simpa [width] using ih held

/-- Rows offered to a new builder one after another. Each is taken in if it has a value for each
field, and otherwise refused, which leaves the builder as it was. Those taken in make a batch exactly
if every value fits its field, and the batch then has all of them in order, NULL in a repeated column
having become the empty list. -/
theorem offers_lossless (wide : 0 < s.width) (rows : List Row) :
    let b := (ofSchema s).afterOffers rows
    let taken := rows.filter (·.length = s.width)
    (∀ row, (row.length = s.width → (b.offer row).1 = .ok ()) ∧
      (row.length ≠ s.width →
        b.offer row = (.error (.argument (.rowWidth row.length s.width)), b))) ∧
      ((∃ batch, b.build = .ok batch) ↔ ∀ r ∈ taken, s.Admits r) ∧
      ∀ batch, b.build = .ok batch →
        batch.schema = s ∧ batch.numRows = taken.length ∧ batch.rows = taken.map s.readBack := by
  intro b taken
  obtain ⟨held, schema⟩ : b.Contains taken ∧ b.schema = s :=
    (contains_ofSchema s).afterOffers_contains rows
  refine ⟨fun row => ⟨fun width => ?_, fun width => ?_⟩, ?_, fun batch built => ?_⟩
  · have offered := held.offer_contains row
    rw [schema, if_pos width] at offered
    exact offered.1
  · have offered := held.offer_contains row
    rwa [schema, if_neg width] at offered
  · rw [held.build_iff, schema]
  · obtain ⟨same, -, count, each⟩ := Batch.build_ok held built (schema ▸ wide)
    rw [schema] at same each
    exact ⟨same, count, Batch.rows_eq (by simpa using count) each⟩

/-- Two rows and a short one between them; a list of lists is NULL in one row, and holds NULL and
the empty list in the other. -/
theorem offers_lossless_sample :
    let s : Schema := ⟨[⟨"a", .array (.array .boolean), true⟩, ⟨"b", .text, true⟩]⟩
    let nested : Value := .list [.list [.boolean true], .null, .list []]
    let b := (ofSchema s).afterOffers [[.null, .text "x"], [.text "y"], [nested, .null]]
    0 < s.width ∧ ∃ batch, b.build = .ok batch ∧ batch.numRows = 2 ∧
      batch.rows = [[.list [], .text "x"], [nested, .null]] := by
  intro s nested b
  have wide : 0 < s.width := by decide
  obtain ⟨-, built, holds⟩ :=
    offers_lossless wide [[.null, .text "x"], [.text "y"], [nested, .null]]
  have admitted : ∀ r ∈ ([[.null, .text "x"], [nested, .null]] : List Row), s.Admits r := by
    rw [List.forall_mem_cons, List.forall_mem_singleton]
    exact ⟨.cons rfl (.cons rfl .nil), .cons rfl (.cons rfl .nil)⟩
  obtain ⟨batch, built⟩ := built.mpr admitted
  exact ⟨wide, batch, built, (holds batch built).2⟩

end BatchFlow.BatchBuilder

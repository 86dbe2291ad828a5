import BatchFlow.Proofs.Stream.Sections
import BatchFlow.Proofs.Stream.Unnesting

/-!
The outer rows that an unnest expands, as an aggregation on top of it sees them: one section for
each, with a row for every inner value, however the values are split over batches.
-/
namespace BatchFlow

namespace Outcome

theorem eq_of_shown_batch {o : Outcome} {kind : DeliveryKind} {schema : Schema} {n : Nat}
    {rows : List Row} (shown : o.shown = .batch kind schema n rows) :
    ∃ b, o = Delivery.outcome ⟨kind, b⟩ ∧ b.schema = schema ∧ b.numRows = n ∧ b.rows = rows := by
  cases o with
  | newSchema b | data b | endOfGroup b =>
    simp only [Outcome.shown, Shown.batch.injEq] at shown
    rcases shown with ⟨rfl, rfl, rfl, rfl⟩
    exact ⟨b, rfl, rfl, rfl, rfl⟩
  | notYet | endOfStream => cases shown

theorem eq_of_shown_end {o : Outcome} (shown : o.shown = .endOfStream) : o = .endOfStream := by
  cases o <;> first | rfl | cases shown

end Outcome

theorem Batch.rowEvents_of_rows {b : Batch} {values : List Value}
    (rows : b.rows = values.map fun v => [v]) (count : b.numRows = values.length) :
    b.rowEvents = values.map fun v => .row (.ok [v]) := by
  rw [rowEvents, readings_of_length (by rw [rows, count, List.length_map]), rows]
  simp

namespace Unnest

/-- What an outer row with these inner values says: a row for each, and a boundary. -/
def rowEvents (values : List Value) : List Event :=
  (values.map fun v => .row (.ok [v])) ++ [.boundary]

def outerEvents (field : String) : Option Shape → List Batch → List Event
  | _, [] => [.finish]
  | known, b :: rest =>
    match columnOf field b with
    | .ok v =>
      (if (madeSchema v).isFresh known then [.announce true (madeSchema v)] else []) ++
        ((List.range b.numRows).flatMap fun r => rowEvents (v.valuesAt r)) ++
        outerEvents field (some (madeSchema v).shape) rest
    | .error _ => []

def Says (schema : Schema) (us : List Outcome) (es : List Event) : Prop :=
  events (some schema.shape) us = es ∧ shapeAfter (some schema.shape) us = some schema.shape

theorem Says.says_append {schema : Schema} {us us' : List Outcome} {es es' : List Event}
    (first : Says schema us es) (others : Says schema us' es') :
    Says schema (us ++ us') (es ++ es') := by
  constructor
  · rw [events_append, first.1, first.2, others.1]
  · rw [shapeAfter_append, first.2, others.2]

theorem says_data {schema : Schema} {values : List Value} {o : Outcome} {n : Nat}
    (shown : o.shown = .batch .data schema n (values.map fun v => [v])) (count : n = values.length) :
    Says schema [o] (values.map fun v => .row (.ok [v])) := by
  rcases Outcome.eq_of_shown_batch shown with ⟨b, rfl, rfl, rfl, rows⟩
  constructor
  · simp [events, Delivery.outcome, Outcome.events, Batch.announcement, Schema.isFresh_self,
      Batch.rowEvents_of_rows rows count]
  · rfl

theorem says_endOfGroup {schema : Schema} {values : List Value} {o : Outcome} {n : Nat}
    (shown : o.shown = .batch .endOfGroup schema n (values.map fun v => [v]))
    (count : n = values.length) : Says schema [o] (rowEvents values) := by
  rcases Outcome.eq_of_shown_batch shown with ⟨b, rfl, rfl, rfl, rows⟩
  constructor
  · simp [events, Delivery.outcome, Outcome.events, Batch.announcement, Schema.isFresh_self,
      Batch.rowEvents_of_rows rows count, rowEvents]
  · rfl

/-- The split of an outer row over batches does not show. -/
theorem says_row {schema : Schema} {k : Nat} {values : List Value} {us : List Outcome}
    (positive : 0 < k) (shown : us.map Outcome.shown = rowOutcomes schema k values) :
    Says schema us (rowEvents values) := by
  induction size : values.length using Nat.strongRecOn generalizing values us with
  | _ n ih =>
    rw [rowOutcomes_eq schema positive] at shown
    by_cases few : values.length ≤ k
    · rw [if_pos few] at shown
      rcases List.map_eq_singleton_iff.mp shown with ⟨o, rfl, last⟩
      exact says_endOfGroup last rfl
    · rw [if_neg few] at shown
      rcases List.map_eq_cons_iff.mp shown with ⟨o, us, rfl, first, others⟩
      have count : k = (values.take k).length := by
        rw [List.length_take]
        omega
      have shorter : (values.drop k).length < n := by
        rw [List.length_drop]
        omega
      have both := (says_data first count).says_append (ih _ shorter others rfl)
      have whole : rowEvents values =
          ((values.take k).map fun v => .row (.ok [v])) ++ rowEvents (values.drop k) := by
        rw [rowEvents, rowEvents, ← List.append_assoc, ← List.map_append, List.take_append_drop]
      rw [whole]
      exact both

theorem says_rows {v : ListVector} {k : Nat} {rs : List Nat} {us : List Outcome} (positive : 0 < k)
    (shown : (us.map fun o => .ok o.shown) = rs.flatMap fun r => outerRow k v r 0) :
    Says (madeSchema v) us (rs.flatMap fun r => rowEvents (v.valuesAt r)) := by
  induction rs generalizing us with
  | nil =>
    obtain rfl := List.map_eq_nil_iff.mp shown
    exact ⟨rfl, rfl⟩
  | cons r rs ih =>
    rw [List.flatMap_cons] at shown ⊢
    rcases List.map_eq_append_iff.mp shown with ⟨us, us', rfl, first, others⟩
    refine Says.says_append ?_ (ih others)
    apply says_row positive
    by_cases inside : r < v.length
    · rw [outerRow, if_pos inside, List.drop_zero] at first
      have same : (us.map Outcome.shown).map Except.ok =
          (rowOutcomes (madeSchema v) k (v.valuesAt r)).map (Except.ok : Shown → Except Fault Shown) := by
        rw [List.map_map]
        exact first
      exact List.map_injective_iff.mpr (fun _ _ => Except.ok.inj) same
    · rw [outerRow, if_neg inside] at first
      rcases List.map_eq_singleton_iff.mp first with ⟨o, -, last⟩
      cases last

/-- What outcomes say that are all that outer batches come to. Every batch has its column then. -/
theorem events_outer {field : String} {k : Nat} {known : Option Shape} {outer : List Batch}
    {us : List Outcome} (positive : 0 < k)
    (rows : ∀ b ∈ outer, 0 < b.numRows)
    (shown : (us.map fun o => .ok o.shown) = outerOutcomes field k known outer) :
    events known us = outerEvents field known outer ∧
      ∀ b ∈ outer, ∃ v, columnOf field b = .ok v := by
  induction outer generalizing known us with
  | nil =>
    rcases List.map_eq_singleton_iff.mp shown with ⟨o, rfl, last⟩
    rw [Outcome.eq_of_shown_end (Except.ok.inj last)]
    exact ⟨rfl, by simp⟩
  | cons b rest ih =>
    obtain ⟨v, column⟩ : ∃ v, columnOf field b = .ok v := by
      cases column : columnOf field b with
      | ok v => exact ⟨v, rfl⟩
      | error e =>
        simp only [outerOutcomes, column] at shown
        rcases List.map_eq_singleton_iff.mp shown with ⟨o, -, fault⟩
        cases fault
    have some := rows b List.mem_cons_self
    simp only [outerOutcomes, column, batchOutcomes, if_neg (Nat.ne_of_gt some)] at shown
    simp only [outerEvents, column]
    rw [List.append_assoc] at shown ⊢
    rcases List.map_eq_append_iff.mp shown with ⟨us₁, us', rfl, announced, others⟩
    rcases List.map_eq_append_iff.mp others with ⟨us₂, us₃, rfl, groups, later⟩
    rcases says_rows positive groups with ⟨said, shape⟩
    have first : events known us₁ =
          (if (madeSchema v).isFresh known then [.announce true (madeSchema v)] else []) ∧
        shapeAfter known us₁ = Option.some (madeSchema v).shape := by
      by_cases fresh : (madeSchema v).isFresh known = true
      · rw [if_pos fresh] at announced ⊢
        rcases List.map_eq_singleton_iff.mp announced with ⟨o, rfl, newSchema⟩
        rcases Outcome.eq_of_shown_batch (Except.ok.inj newSchema) with ⟨b, rfl, schema, count, none⟩
        have silent : b.rowEvents = [] := @Batch.rowEvents_of_rows b [] none count
        constructor
        · simp [events, Delivery.outcome, Outcome.events, silent, schema, fresh]
        · rw [← schema]
          rfl
      · rw [if_neg fresh] at announced ⊢
        obtain rfl := List.map_eq_nil_iff.mp announced
        exact ⟨rfl, Schema.shape_of_known (Bool.eq_false_iff.mpr fresh)⟩
    rcases ih (fun b member => rows b (List.mem_cons_of_mem _ member)) later with ⟨others, columns⟩
    constructor
    · rw [events_append, first.1, first.2, events_append, said, shape, others]
    · intro b' member
      rcases List.mem_cons.mp member with rfl | member
      · exact ⟨v, column⟩
      · exact columns b' member

/-- The outer rows in order: the column in which each lies, and its inner values. -/
def outerRows (field : String) (outer : List Batch) : List (ListVector × List Value) :=
  outer.flatMap fun b =>
    match columnOf field b with
    | .ok v => (List.range b.numRows).map fun r => (v, v.valuesAt r)
    | .error _ => []

theorem outerRows_cons {field : String} {b : Batch} {v : ListVector}
    (column : columnOf field b = .ok v) (rest : List Batch) :
    outerRows field (b :: rest) =
      ((List.range b.numRows).map fun r => (v, v.valuesAt r)) ++ outerRows field rest := by
  rw [outerRows, List.flatMap_cons, column]
  rfl

/-- The section of an outer row. A group is asked for if there are no inner values. -/
def rowSection (schema : Schema) (values : List Value) : Section :=
  ⟨some schema, values.map fun v => .ok [v], values.isEmpty, true⟩

theorem cut_values (s : Sections) (values : List Value) :
    (values.map fun v => Event.row (.ok [v])).foldl Sections.next s = { s with
      rows := s.rows ++ values.map fun v => .ok [v]
      quiet := s.quiet && values.isEmpty } := by
  induction values generalizing s with
  | nil => simp
  | cons v values ih => simp [ih, Sections.next]

/-- Nothing has been taken in since a boundary, or since the start. -/
structure Rested (s : Sections) (known : Option Shape) : Prop where
  rows : s.rows = []
  quiet : s.quiet = true
  schema : s.schema = none ∧ known = none ∧ s.bounded = false ∨
    s.bounded = true ∧ ∃ v, s.schema = some (madeSchema v) ∧ known = some (madeSchema v).shape

theorem cut_rows {s : Sections} {schema : Schema} (rows : s.rows = []) (quiet : s.quiet = true)
    (known : s.schema = some schema) (groups : List (List Value)) :
    (groups.flatMap rowEvents).foldl Sections.next s = { s with
      closed := s.closed ++ groups.map (rowSection schema)
      bounded := s.bounded || !groups.isEmpty } := by
  induction groups generalizing s with
  | nil =>
    cases s
    simp
  | cons values groups ih =>
    have here : (rowEvents values).foldl Sections.next s = { s with
        closed := s.closed ++ [rowSection schema values]
        bounded := true } := by
      rw [rowEvents, List.foldl_append, cut_values]
      simp [Sections.next, rowSection, rows, quiet, known]
    rw [List.flatMap_cons, List.foldl_append, here]
    refine (@ih { s with closed := _, bounded := true } rows quiet known).trans ?_
    simp

theorem madeSchema_of_shape {v v' : ListVector}
    (same : (madeSchema v).shape = (madeSchema v').shape) : madeSchema v = madeSchema v' := by
  simp only [madeSchema, Schema.shape, Expansion.madeField, List.map_cons, List.map_nil,
    List.cons.injEq, Prod.mk.injEq, and_true] at same
  simp [madeSchema, Expansion.madeField, same.1, same.2]

/-- An announcement in front of outer rows cuts off a section without rows, or nothing. -/
theorem Rested.announce_cuts {s : Sections} {known : Option Shape} (rested : Rested s known)
    (v : ListVector) :
    ∃ cut, (if (madeSchema v).isFresh known then [.announce true (madeSchema v)] else []).foldl
        Sections.next s = { s with
          closed := s.closed ++ cut
          schema := some (madeSchema v)
          rows := [] } ∧
      ∀ x ∈ cut, x.boundary = false ∧ x.rows = [] ∧ x.asked = false := by
  rcases rested with ⟨rows, quiet, schema⟩
  by_cases fresh : (madeSchema v).isFresh known = true
  · rw [if_pos fresh]
    refine ⟨[⟨s.schema, s.rows, false, false⟩], rfl, ?_⟩
    simp [rows]
  · rw [if_neg fresh]
    have shape := Schema.shape_of_known (Bool.eq_false_iff.mpr fresh)
    rcases schema with ⟨-, none, -⟩ | ⟨-, v', there, known'⟩
    · rw [none] at shape
      cases shape
    · have same := madeSchema_of_shape (Option.some.inj (known'.symm.trans shape))
      refine ⟨[], ?_, by simp⟩
      cases s
      simp_all

/-- The sections of the rows of one outer batch, and perhaps one before them in which nothing is. -/
theorem Rested.cut_batch {s : Sections} {known : Option Shape} (rested : Rested s known)
    (v : ListVector) {n : Nat} (more : 0 < n) :
    ∃ cut, ((if (madeSchema v).isFresh known then [Event.announce true (madeSchema v)] else []) ++
        (List.range n).flatMap fun r => rowEvents (v.valuesAt r)).foldl Sections.next s = { s with
          closed := s.closed ++ cut
          schema := some (madeSchema v)
          rows := []
          bounded := true } ∧
      cut.filter Section.boundary =
        (List.range n).map (fun r => rowSection (madeSchema v) (v.valuesAt r)) ∧
      ∀ x ∈ cut, x.boundary = false → x.rows = [] ∧ (x.asked = false ∨ x.schema = none) := by
  rcases rested.announce_cuts v with ⟨first, announced, empty⟩
  have groups := @cut_rows
    { s with closed := s.closed ++ first, schema := some (madeSchema v), rows := [] }
    (madeSchema v) rfl rested.quiet rfl ((List.range n).map v.valuesAt)
  have bounded : (s.bounded || !((List.range n).map v.valuesAt).isEmpty) = true := by
    simp [Nat.ne_of_gt more]
  rw [bounded, List.flatMap_map, List.map_map] at groups
  refine ⟨first ++ (List.range n).map fun r => rowSection (madeSchema v) (v.valuesAt r), ?_, ?_, ?_⟩
  · rw [List.foldl_append, announced, groups, List.append_assoc]
    rfl
  · have none : first.filter Section.boundary = [] := by
      rw [List.filter_eq_nil_iff]
      intro x member
      simp [(empty x member).1]
    rw [List.filter_append, none, List.nil_append, List.filter_eq_self]
    intro x member
    rcases List.mem_map.mp member with ⟨r, -, rfl⟩
    rfl
  · intro x member open'
    rcases List.mem_append.mp member with before | now
    · exact ⟨(empty x before).2.1, .inl (empty x before).2.2⟩
    · rcases List.mem_map.mp now with ⟨r, -, rfl⟩
      cases open'

/-- Outer batches are cut into the sections of their rows, apart from sections in which nothing
is. -/
theorem cut_outer {field : String} {s : Sections} {known : Option Shape} {outer : List Batch}
    (rested : Rested s known)
    (columns : ∀ b ∈ outer, ∃ v, columnOf field b = .ok v) (rows : ∀ b ∈ outer, 0 < b.numRows) :
    ∃ cut, ((outerEvents field known outer).foldl Sections.next s).closed = s.closed ++ cut ∧
      cut.filter Section.boundary =
        (outerRows field outer).map (fun (v, values) => rowSection (madeSchema v) values) ∧
      ∀ x ∈ cut, x.boundary = false → x.rows = [] ∧ (x.asked = false ∨ x.schema = none) := by
  induction outer generalizing s known with
  | nil =>
    refine ⟨[⟨s.schema, s.rows, s.quiet && !s.bounded, false⟩], rfl, rfl, ?_⟩
    rintro x member -
    obtain rfl := List.mem_singleton.mp member
    refine ⟨rested.rows, ?_⟩
    rcases rested.schema with ⟨none, -, -⟩ | ⟨bounded, -⟩
    · exact .inr none
    · exact .inl (by simp [bounded])
  | cons b rest ih =>
    rcases columns b List.mem_cons_self with ⟨v, column⟩
    rcases rested.cut_batch v (rows b List.mem_cons_self) with ⟨made, first, bounded, silent⟩
    have rested' : Rested { s with
        closed := s.closed ++ made
        schema := some (madeSchema v)
        rows := []
        bounded := true } (some (madeSchema v).shape) :=
      ⟨rfl, rested.quiet, .inr ⟨rfl, v, rfl, rfl⟩⟩
    rcases ih rested' (fun b member => columns b (List.mem_cons_of_mem _ member))
      (fun b member => rows b (List.mem_cons_of_mem _ member)) with
      ⟨cut, closed, bounded', silent'⟩
    refine ⟨made ++ cut, ?_, ?_, ?_⟩
    · simp only [outerEvents, column]
      rw [List.foldl_append, first, closed, List.append_assoc]
    · rw [List.filter_append, bounded, bounded', outerRows_cons column, List.map_append,
        List.map_map]
      rfl
    · intro x member
      rcases List.mem_append.mp member with now | later
      · exact silent x now
      · exact silent' x later

end Unnest
end BatchFlow

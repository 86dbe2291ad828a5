import BatchFlow.Proofs.Batch.Fitting
import BatchFlow.Proofs.Stream.Sections

/-!
Sections of input that consists of batches made of rows. Every row that comes under a schema can be
read and is rows of that schema, however often the schema changes.
-/
namespace BatchFlow

def Schema.Types (schema : Option Schema) (rows : List (Except Fault Row)) : Prop :=
  ∀ r ∈ rows, ∃ s row, schema = some s ∧ r = .ok row ∧ s.Gives row

theorem Schema.Types.gives {s : Schema} {rows : List Row}
    (types : Schema.Types (some s) (rows.map .ok)) : ∀ row ∈ rows, s.Gives row := by
  intro row member
  obtain ⟨s', row', there, same, given⟩ := types _ (List.mem_map.mpr ⟨row, member, rfl⟩)
  obtain rfl := Option.some.inj there
  obtain rfl := Except.ok.inj same
  exact given

def Section.Typed (x : Section) : Prop := Schema.Types x.schema x.rows

def Outcome.MadeOfRows (o : Outcome) : Prop := ∀ b ∈ o.batch?, b.OfRows

namespace Sections

structure Typed (s : Sections) : Prop where
  closed : ∀ x ∈ s.closed, x.Typed
  rows : Schema.Types s.schema s.rows

variable {s s' : Sections} {e : Event} {es : List Event}

theorem typed_of_next (typed : (s.next e).Typed) : s.Typed := by
  have kept {x : Section} (closes : (s.next e).closed = s.closed ++ [x]) :
      (∀ y ∈ s.closed, y.Typed) ∧ x.Typed :=
    ⟨fun y member => typed.closed y (by simp [closes, member]), typed.closed x (by simp [closes])⟩
  cases e with
  | announce fresh schema =>
    cases fresh with
    | true => exact ⟨(kept rfl).1, (kept rfl).2⟩
    | false => exact typed
  | row r => exact ⟨typed.closed, fun r' member => typed.rows r' (List.mem_append_left _ member)⟩
  | boundary | finish => exact ⟨(kept rfl).1, (kept rfl).2⟩
  | wait => exact typed

theorem typed_of_foldl (typed : (es.foldl next s).Typed) : s.Typed := by
  induction es generalizing s with
  | nil => exact typed
  | cons e es ih => exact typed_of_next (ih typed)

theorem Typed.foldl_rows (typed : s.Typed) {schema : Schema} (there : s.schema = some schema)
    {rows : List Row} (given : ∀ r ∈ rows, schema.Gives r) :
    (((rows.map Except.ok).map Event.row).foldl next s).Typed ∧
      (((rows.map Except.ok).map Event.row).foldl next s).schema = some schema := by
  induction rows generalizing s with
  | nil => exact ⟨typed, there⟩
  | cons row rows ih =>
    refine @ih (s.next (.row (.ok row))) ⟨typed.closed, ?_⟩ there fun r member =>
      given r (List.mem_cons_of_mem _ member)
    intro r member
    rcases List.mem_append.mp member with before | now
    · exact typed.rows r before
    · exact ⟨schema, row, there, List.mem_singleton.mp now, given row List.mem_cons_self⟩

/-- Input that is typed, with the shape of its last batch. -/
structure Follows (known : Option Shape) (s : Sections) : Prop where
  typed : s.Typed
  shape : s.schema.map Schema.shape = known

variable {known : Option Shape} {b : Batch} {o : Outcome} {us : List Outcome}

theorem follows_start : Follows none start :=
  ⟨⟨by simp [start], by simp [start, Schema.Types]⟩, rfl⟩

theorem Follows.typed_announce (follows : Follows known s) (b : Batch) :
    ∃ schema, (s.next (.announce (b.schema.isFresh known) b.schema)).schema = some schema ∧
      schema.shape = b.schema.shape ∧
      (s.next (.announce (b.schema.isFresh known) b.schema)).Typed := by
  cases fresh : b.schema.isFresh known with
  | true =>
    refine ⟨b.schema, rfl, rfl, ?_, by simp [next, Schema.Types]⟩
    intro x member
    rcases List.mem_append.mp member with before | now
    · exact follows.typed.closed x before
    · obtain rfl := List.mem_singleton.mp now
      exact follows.typed.rows
  | false =>
    have shape : s.schema.map Schema.shape = some b.schema.shape := by
      rw [follows.shape]
      exact Schema.shape_of_known fresh
    obtain ⟨schema, there, same⟩ := Option.map_eq_some_iff.mp shape
    exact ⟨schema, there, same, follows.typed⟩

theorem Follows.foldl_rowEvents (follows : Follows known s) (made : b.OfRows) :
    Follows (some b.schema.shape)
      ((.announce (b.schema.isFresh known) b.schema :: b.rowEvents).foldl next s) := by
  obtain ⟨schema, there, shape, typed⟩ := follows.typed_announce b
  obtain ⟨rows, readings, given⟩ := made.readings_ok
  rw [List.foldl_cons, Batch.rowEvents, readings]
  obtain ⟨typed', there'⟩ := typed.foldl_rows there fun r member =>
    Schema.gives_of_shape shape.symm (given r member)
  exact ⟨typed', by rw [there', Option.map_some, shape]⟩

theorem foldl_announcement (known : Option Shape) (b : Batch) (s : Sections) :
    (b.announcement known).foldl next s =
      s.next (.announce (b.schema.isFresh known) b.schema) := by
  unfold Batch.announcement
  cases b.schema.isFresh known <;> rfl

theorem Follows.foldl_events (follows : Follows known s) (made : o.MadeOfRows) :
    Follows (o.shapeAfter known) ((o.events known).foldl next s) := by
  cases o with
  | newSchema b => exact follows.foldl_rowEvents (made b rfl)
  | data b =>
    have here := follows.foldl_rowEvents (made b rfl)
    rwa [List.foldl_cons, ← foldl_announcement, ← List.foldl_append] at here
  | endOfGroup b =>
    have here := follows.foldl_rowEvents (made b rfl)
    rw [List.foldl_cons, ← foldl_announcement, ← List.foldl_append] at here
    rw [Outcome.events, List.foldl_append]
    refine ⟨⟨fun x member => ?_, by simp [next, Schema.Types]⟩, here.shape⟩
    rcases List.mem_append.mp member with before | now
    · exact here.typed.closed x before
    · obtain rfl := List.mem_singleton.mp now
      exact here.typed.rows
  | notYet => exact follows
  | endOfStream =>
    refine ⟨⟨fun x member => ?_, by simp [Outcome.events, next, Schema.Types]⟩, follows.shape⟩
    rcases List.mem_append.mp member with before | now
    · exact follows.typed.closed x before
    · obtain rfl := List.mem_singleton.mp now
      exact follows.typed.rows

theorem Follows.typed_events (follows : Follows known s) (made : ∀ u ∈ us, u.MadeOfRows) :
    ((events known us).foldl next s).Typed := by
  induction us generalizing known s with
  | nil => exact follows.typed
  | cons u us ih =>
    rw [events, List.foldl_append]
    exact ih (follows.foldl_events (made u List.mem_cons_self)) fun u' member =>
      made u' (List.mem_cons_of_mem _ member)

/-- Input of batches made of rows is typed, at every point of it. -/
theorem typed_prefix {es' : List Event} (made : ∀ u ∈ us, u.MadeOfRows)
    (split : events none us = es ++ es') : (es.foldl next start).Typed := by
  have whole := follows_start.typed_events made
  rw [split, List.foldl_append] at whole
  exact typed_of_foldl whole

end Sections

theorem sections_typed {us : List Outcome} (made : ∀ u ∈ us, u.MadeOfRows) :
    ∀ x ∈ sections us, x.Typed :=
  (Sections.follows_start.typed_events made).closed

/-- A script gives its steps and then the end, so it gives nothing but batches made of rows if it has
no others. -/
theorem Operator.madeOfRows_replay {r : Replay} (each : ∀ u ∈ r.steps, u.MadeOfRows)
    {fs : List Fragment} {u : Outcome} (given : .ok u ∈ ((replay r).turns fs).1) : u.MadeOfRows := by
  induction fs generalizing r with
  | nil => simp [turns] at given
  | cons f fs ih =>
    have left : ∀ u ∈ r.advance.2.steps, u.MadeOfRows := by
      unfold Replay.advance
      split
      next o rest script => exact fun u member => each u (script ▸ List.mem_cons_of_mem o member)
      next script _ => simp [script]
      next script _ => simp [script]
    simp only [turns, advance] at given
    rcases List.mem_cons.mp given with now | later
    · unfold Replay.advance at now
      split at now
      next o rest script =>
        obtain rfl := Except.ok.inj now
        exact each u (script ▸ List.mem_cons_self)
      · cases now
      · obtain rfl := Except.ok.inj now
        rintro b ⟨⟩
    · exact ih left later

theorem Plan.madeOfRows_upstream {steps : List Outcome} {c : AggregateSpec} {direct : Bool}
    {settings : Settings} {op : Operator 1}
    (built : (Plan.aggregate (.replay steps none) c direct).build settings = .ok op)
    (each : ∀ u ∈ steps, u.MadeOfRows) (fs : List Fragment) {u : Outcome}
    (given : .ok u ∈ op.upstream fs) : u.MadeOfRows := by
  obtain ⟨a, child, rfl, source, -⟩ := Plan.build_aggregate built
  obtain rfl := Except.ok.inj source
  exact Operator.madeOfRows_replay each given

end BatchFlow

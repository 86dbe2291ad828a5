import BatchFlow.Proofs.Results
import BatchFlow.Stream.Outcome

/-!
What a sequence of outcomes says, however it is split over batches: announcements, rows,
boundaries, waits and the end. An announcement is fresh if the shape differs from that of the batch
before. Signals are the outcomes that carry no group on their own; every outcome has the signals
with which an operator that regroups its rows has to answer.
-/
namespace BatchFlow

abbrev Shape := List (String × DataType)

inductive Event where
  | announce (fresh : Bool) (s : Schema)
  | row (r : Except Fault Row)
  | boundary
  | wait
  | finish

inductive Signal where
  | newSchema
  | endOfGroup
  | notYet
  | endOfStream
  deriving DecidableEq, Repr

/-- Whether a batch of the schema has to be announced after one of the given shape. -/
def Schema.isFresh (s : Schema) (known : Option Shape) : Bool := known ≠ some s.shape

namespace Batch

/-- The announcement that a batch brings about without being one itself. -/
def announcement (known : Option Shape) (b : Batch) : List Event :=
  if b.schema.isFresh known then [.announce true b.schema] else []

def rowEvents (b : Batch) : List Event := b.readings.map .row

end Batch

namespace Outcome

def shapeAfter (known : Option Shape) (o : Outcome) : Option Shape :=
  match o.batch? with
  | some b => some b.schema.shape
  | none => known

def events (known : Option Shape) : Outcome → List Event
  | newSchema b => .announce (b.schema.isFresh known) b.schema :: b.rowEvents
  | data b => b.announcement known ++ b.rowEvents
  | endOfGroup b => b.announcement known ++ b.rowEvents ++ [.boundary]
  | notYet => [.wait]
  | endOfStream => [.finish]

def signal? : Outcome → Option Signal
  | newSchema _ => some .newSchema
  | data _ => none
  | endOfGroup _ => some .endOfGroup
  | notYet => some .notYet
  | endOfStream => some .endOfStream

/-- The signals that answer an outcome: its own, after an announcement if its batch is of a fresh
shape and does not announce itself. -/
def answers (known : Option Shape) : Outcome → List Signal
  | newSchema _ => [.newSchema]
  | data b => if b.schema.isFresh known then [.newSchema] else []
  | endOfGroup b => if b.schema.isFresh known then [.newSchema, .endOfGroup] else [.endOfGroup]
  | notYet => [.notYet]
  | endOfStream => [.endOfStream]

def throughEnd : List Outcome → List Outcome
  | [] => []
  | endOfStream :: _ => [endOfStream]
  | o :: os => o :: throughEnd os

theorem throughEnd_cons {o : Outcome} (more : o ≠ endOfStream) (os : List Outcome) :
    throughEnd (o :: os) = o :: throughEnd os := by
  cases o with
  | endOfStream => exact absurd rfl more
  | _ => rfl

theorem throughEnd_going {os : List Outcome} (going : endOfStream ∉ os) : throughEnd os = os := by
  induction os with
  | nil => rfl
  | cons o os ih =>
    rw [List.mem_cons, not_or] at going
    rw [throughEnd_cons (Ne.symm going.1), ih going.2]

theorem throughEnd_append {os : List Outcome} (more : endOfStream ∉ os) (later : List Outcome) :
    throughEnd (os ++ endOfStream :: later) = os ++ [endOfStream] := by
  induction os with
  | nil => rfl
  | cons o os ih =>
    rw [List.mem_cons, not_or] at more
    rw [List.cons_append, throughEnd_cons (Ne.symm more.1), ih more.2, List.cons_append]

theorem throughEnd_ending {os : List Outcome} (more : endOfStream ∉ os) :
    throughEnd (os ++ [endOfStream]) = os ++ [endOfStream] :=
  throughEnd_append more []

theorem mem_throughEnd {os : List Outcome} : endOfStream ∈ throughEnd os ↔ endOfStream ∈ os := by
  induction os with
  | nil => rfl
  | cons o os ih =>
    by_cases ended : o = endOfStream
    · simp [ended, throughEnd]
    · rw [throughEnd_cons ended, List.mem_cons, List.mem_cons, ih]

end Outcome

def shapeAfter (known : Option Shape) (os : List Outcome) : Option Shape :=
  os.foldl Outcome.shapeAfter known

/-- The events of outcomes in order, each seen after the shape of the batch before it. -/
def events (known : Option Shape) : List Outcome → List Event
  | [] => []
  | o :: os => o.events known ++ events (o.shapeAfter known) os

def answers (known : Option Shape) : List Outcome → List Signal
  | [] => []
  | o :: os => o.answers known ++ answers (o.shapeAfter known) os

def Event.signal? : Event → Option Signal
  | announce .. => some .newSchema
  | row _ => none
  | boundary => some .endOfGroup
  | wait => some .notYet
  | finish => some .endOfStream

theorem events_append (known : Option Shape) (os os' : List Outcome) :
    events known (os ++ os') = events known os ++ events (shapeAfter known os) os' := by
  induction os generalizing known with
  | nil => rfl
  | cons o os ih => simp [events, shapeAfter, ih]

theorem shapeAfter_append (known : Option Shape) (os os' : List Outcome) :
    shapeAfter known (os ++ os') = shapeAfter (shapeAfter known os) os' :=
  List.foldl_append

theorem answers_append (known : Option Shape) (os os' : List Outcome) :
    answers known (os ++ os') = answers known os ++ answers (shapeAfter known os) os' := by
  induction os generalizing known with
  | nil => rfl
  | cons o os ih => simp [answers, shapeAfter, ih]

theorem length_answers (known : Option Shape) (us : List Outcome) :
    (answers known us).length ≤ 2 * us.length := by
  induction us generalizing known with
  | nil => exact Nat.le_refl 0
  | cons u us ih =>
    have others := ih (u.shapeAfter known)
    have here : (u.answers known).length ≤ 2 := by
      cases u <;> simp only [Outcome.answers] <;> (try split) <;> simp
    simp only [answers, List.length_append, List.length_cons]
    omega

@[simp] theorem rowEvents_signals (b : Batch) : b.rowEvents.filterMap Event.signal? = [] := by
  simp [Batch.rowEvents, List.filterMap_map, Function.comp_def, Event.signal?]

theorem Outcome.events_signals (known : Option Shape) (o : Outcome) :
    (o.events known).filterMap Event.signal? = o.answers known := by
  cases o with
  | newSchema b => simp [events, answers, Event.signal?]
  | data b | endOfGroup b =>
    cases fresh : b.schema.isFresh known <;>
      simp [events, answers, Batch.announcement, fresh, Event.signal?]
  | notYet | endOfStream => rfl

/-- The signals among the events are the answers. -/
theorem events_signals (known : Option Shape) (os : List Outcome) :
    (events known os).filterMap Event.signal? = answers known os := by
  induction os generalizing known with
  | nil => rfl
  | cons o os ih => rw [events, answers, List.filterMap_append, o.events_signals, ih]

end BatchFlow

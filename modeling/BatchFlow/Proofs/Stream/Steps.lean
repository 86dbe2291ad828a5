import BatchFlow.Proofs.Aggregate.Groups
import BatchFlow.Proofs.Stream.Events
import BatchFlow.Stream.Aggregation

/-!
The small steps of an aggregation. Every turn of the machine is a sequence of them; each is labelled
with the outcomes of the child that it takes in, the events that it works off, and the outcomes that
it hands on. Steps are few and say little, so that what holds of all runs is shown step by step.
-/
namespace BatchFlow

def Delivery.outcome (d : Delivery) : Outcome :=
  match d.kind with
  | .newSchema => .newSchema d.batch
  | .data => .data d.batch
  | .endOfGroup => .endOfGroup d.batch

namespace Working

def shape (w : Working) : Option Shape := w.inputSchema.map Schema.shape

/-- Whether a delivery has to wait until what came before it has been handed on. -/
def mustWait (w : Working) (d : Delivery) : Prop :=
  w.intake = .holding d ∧ d.batch.schema.isFresh w.shape = true

/-- After the end of the input, the group of an input without rows. -/
def lastDefault (w : Working) : Working := if w.boundarySeen then w else w.openDefault

/-- Small steps: outcomes taken in, events worked off, outcomes handed on. -/
inductive Step : Working → List Outcome → List Event → List Outcome → Working → Prop
  | take (reading : w.intake = .reading (.ok row :: rest) closes)
      (taken : w.takeRow row = (.ok true, w')) :
      Step w [] [.row (.ok row)] [] { w' with intake := .reading rest closes }
  | drain (reading : w.intake = .reading [] false) : Step w [] [] [] { w with intake := .awaiting }
  | spill (full : w.isFull = true) (flushed : w.flush .data = (.emit o, w')) : Step w [] [] [o] w'
  | openDefault (due : w.intake = .reading [] true ∨ w.intake = .ended ∧ w.boundarySeen = false) :
      Step w [] [] [] w.openDefault
  | bound (reading : w.intake = .reading [] true) (tried : w.openDefault = w)
      (room : w.isBlocked = false) (closed : w.closeGroup = (.ok (), w₁))
      (flushed : flush .endOfGroup { w₁ with
        fold := w₁.fold.restart
        groupEmitted := false
        boundarySeen := true
        intake := .awaiting } = (.emit o, w')) :
      Step w [] [.boundary] [o] w'
  | hold (running : w.phase = .running) (awaiting : w.intake = .awaiting) (d : Delivery) :
      Step w [d.outcome] [] [] { w with intake := .holding d }
  | wait (running : w.phase = .running) (awaiting : w.intake = .awaiting) :
      Step w [.notYet] [.wait] [.notYet] w
  | endInput (running : w.phase = .running) (awaiting : w.intake = .awaiting) :
      Step w [.endOfStream] [] [] { w with intake := .ended }
  | announce (holding : w.intake = .holding d) (kind : d.kind = .newSchema)
      (known : d.batch.schema.isFresh w.shape = false) (laid : w.outputSchema = some output) :
      Step w [] [.announce false d.batch.schema] [.newSchema (.empty output)]
        { w with intake := .reading d.batch.readings false }
  | startReading (holding : w.intake = .holding d) (kind : d.kind ≠ .newSchema)
      (known : d.batch.schema.isFresh w.shape = false) :
      Step w [] [] [] { w with intake := .reading d.batch.readings (d.kind = .endOfGroup) }
  | close (last : w.mustWait d ∨ w.intake = .ended) (room : w.isBlocked = false)
      (closed : w.closeGroup = (.ok (), w')) : Step w [] [] [] w'
  | flushRest (last : w.mustWait d ∨ w.intake = .ended) (closed : w.openKey = none)
      (some : w.rows ≠ []) (flushed : w.flush .data = (.emit o, w')) : Step w [] [] [o] w'
  | layOut (waiting : w.mustWait d) (closed : w.openKey = none) (none : w.rows = [])
      (laid : w.fold.setUp d.batch.schema = .ok (fold, output)) :
      Step w [] [.announce true d.batch.schema] [.newSchema (.empty output)] { w with
        fold
        intake := match d.kind with
          | .newSchema => .reading d.batch.readings false
          | _ => .holding d
        inputSchema := some d.batch.schema
        outputSchema := some output }
  | finish (ended : w.intake = .ended) (tried : w.lastDefault = w) (closed : w.openKey = none)
      (none : w.rows = []) :
      Step w [] [.finish] [.endOfStream] { w with phase := .finished }.release
  -- What does not matter to the rows: the count that is shown, and the budget that is shared.
  | other (recordCount : Nat) (memory : Budget) : Step w [] [] [] { w with recordCount, memory }

inductive Steps : Working → List Outcome → List Event → List Outcome → Working → Prop
  | refl (w : Working) : Steps w [] [] [] w
  | snoc (before : Steps w us es ds w₁) (step : Step w₁ us' es' ds' w₂) :
      Steps w (us ++ us') (es ++ es') (ds ++ ds') w₂

variable {w w' w₁ w₂ : Working} {us us' ds ds' : List Outcome} {es es' : List Event}

theorem Step.steps (h : Step w us es ds w') :
    Steps w us es ds w' := by
  simpa using Steps.snoc (.refl w) h

theorem Steps.trans (h : Steps w us es ds w₁) (h' : Steps w₁ us' es' ds' w₂) :
    Steps w (us ++ us') (es ++ es') (ds ++ ds') w₂ := by
  induction h' with
  | refl => simpa using h
  | snoc _ step ih => simpa using Steps.snoc ih step

end Working
end BatchFlow

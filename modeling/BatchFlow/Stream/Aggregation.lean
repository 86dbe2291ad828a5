import BatchFlow.Aggregate.GroupFold
import BatchFlow.Batch.Builder
import BatchFlow.Memory.Budget
import BatchFlow.Settings
import BatchFlow.Specs
import BatchFlow.Stream.Outcome

/-!
Streaming aggregation over input that is sorted by its grouping key. Each run of rows with equal
keys becomes one output row; finished rows are kept until a batch is full, the child ends a group,
the schema changes or the input ends. The bytes of the rows kept are charged to a shared budget.

The operator is a machine that answers, fails, or asks for the child's next outcome: `poll` goes on
with what is at hand, `receive` takes one outcome of the child in, and `pull` joins them to the
child.
-/
namespace BatchFlow

inductive DeliveryKind where
  | newSchema
  | data
  | endOfGroup
  deriving DecidableEq, Repr

structure Delivery where
  kind : DeliveryKind
  batch : Batch

/-- What is at hand of the input: nothing, so that the child has to be asked; the rows left of a batch,
and whether a group ends with it; a batch put back until the rows before it have been handed on; or the
end of the child. -/
inductive Intake where
  | awaiting
  | reading (rows : List (Except Fault Row)) (closes : Bool)
  | holding (d : Delivery)
  | ended

structure Aggregation where
  fold : GroupFold
  rowCap : Nat
  inputSchema : Option Schema
  outputSchema : Option Schema
  intake : Intake
  openKey : Option (List Value)
  rows : List Row
  -- Whether a group was finished since the last boundary.
  groupEmitted : Bool
  boundarySeen : Bool
  -- Bytes charged for `rows`.
  held : Nat
  phase : Phase
  recordCount : Nat

def Aggregation.operatorName : String := "StreamingAggExec"

/-- An aggregation at work, with the budget that it charges. -/
structure Working extends Aggregation where
  memory : Budget

/-- What a turn comes to: an outcome, a fault, or the need of another outcome of the child. -/
inductive Turn where
  | emit (o : Outcome)
  | fail (e : Fault)
  | pull

namespace Working

def isFull (w : Working) : Bool := w.rowCap ≤ w.rows.length

def continues (w : Working) (key : List Value) : Bool :=
  match w.openKey with
  | some k => Value.allEqual k key
  | none => false

/-- Whether a group is open for which there is no room. -/
def isBlocked (w : Working) : Bool := w.openKey.isSome && w.isFull

def closeGroup (w : Working) : Except Fault Unit × Working :=
  match w.openKey with
  | none => (.ok (), w)
  | some key =>
    let (row, fold) := w.fold.finish key
    match w.memory.charge row.footprint with
    | (.error e, memory) => (.error e, { w with fold, openKey := none, memory })
    | (.ok (), memory) =>
      (.ok (), { w with
        fold
        openKey := none
        memory
        held := w.held + row.footprint
        rows := w.rows ++ [row]
        groupEmitted := true })

/-- Without grouping keys, opens the group of an input that had no rows since the last boundary, so
that it yields a row all the same. -/
def openDefault (w : Working) : Working :=
  if w.fold.hasKeys || w.openKey.isSome || w.groupEmitted || w.outputSchema.isNone then w
  else { w with openKey := some [] }

def release (w : Working) : Working :=
  { w with
    intake := .awaiting
    openKey := none
    rows := []
    held := 0
    memory := w.memory.release w.held }

def flush (wrap : Batch → Outcome) (w : Working) : Turn × Working :=
  match w.outputSchema with
  | none => (.fail (.misuse .noOutputSchema), w)
  | some schema =>
    match Batch.ofRows schema w.rows with
    | .error e => (.fail e, { w with rows := [] })
    | .ok b =>
      (.emit (wrap b), { w with rows := [], held := 0, memory := w.memory.release w.held })

def closing (w : Working) (next : Working → Turn × Working) : Turn × Working :=
  match w.closeGroup with
  | (.error e, w) => (.fail e, w)
  | (.ok (), w) => next w

inductive Reading where
  | taken
  | full (rest : List (Except Fault Row))
  | fault (e : Fault)

def accumulate (row : Row) (w : Working) : Except Fault Unit × Working :=
  let (r, fold) := w.fold.accumulate row
  (r, { w with fold })

/-- Takes one row in, finishing the open group if the row does not belong to it. Answers false, and
takes nothing in, if there is no room for the finished group. -/
def takeRow (row : Row) (w : Working) : Except Fault Bool × Working :=
  match w.fold.key row with
  | .error e => (.error e, w)
  | .ok key =>
    if w.continues key then
      let (r, w) := w.accumulate row
      (r.map fun () => true, w)
    else if w.isBlocked then (.ok false, w)
    else
      match w.closeGroup with
      | (.error e, w) => (.error e, w)
      | (.ok (), w) =>
        let (r, w) := { w with openKey := some key }.accumulate row
        (r.map fun () => true, w)

def read : List (Except Fault Row) → Working → Reading × Working
  | [], w => (.taken, w)
  | .error e :: _, w => (.fault e, w)
  | .ok row :: rest, w =>
    match w.takeRow row with
    | (.error e, w) => (.fault e, w)
    | (.ok false, w) => (.full (.ok row :: rest), w)
    | (.ok true, w) => read rest w

/-- Ends a group: one last row for it where there is room, and `endOfGroup` with what is kept. -/
def endGroup (w : Working) : Turn × Working :=
  let w := w.openDefault
  if w.isBlocked then flush .data { w with intake := .reading [] true }
  else
    w.closing fun w =>
      flush .endOfGroup
        { w with fold := w.fold.restart, groupEmitted := false, boundarySeen := true }

def readOn (rows : List (Except Fault Row)) (closes : Bool) (w : Working) : Turn × Working :=
  match read rows { w with intake := .awaiting } with
  | (.fault e, w) => (.fail e, w)
  | (.full rest, w) => flush .data { w with intake := .reading rest closes }
  | (.taken, w) => if closes then w.endGroup else (.pull, w)

def finish (w : Working) : Turn × Working :=
  let w := if w.boundarySeen then w else w.openDefault
  if w.isBlocked then flush .data w
  else
    w.closing fun w =>
      if w.rows.isEmpty then (.emit .endOfStream, { w with phase := .finished }.release)
      else flush .data w

/-- Lays the fold out for the batch's schema and announces the output schema. A batch that is more
than an announcement is put back. -/
def layOut (d : Delivery) (w : Working) : Turn × Working :=
  match w.fold.setUp d.batch.schema with
  | .error e => (.fail e, w)
  | .ok (fold, output) =>
    let intake := match d.kind with
      | .newSchema => .reading d.batch.readings false
      | _ => .holding d
    (.emit (.newSchema (.empty output)), { w with
      fold
      intake
      inputSchema := some d.batch.schema
      outputSchema := some output })

/-- Takes a batch in. If its schema is new, what was built under the old one is handed on first. -/
def accept (d : Delivery) (w : Working) : Turn × Working :=
  let mode := d.batch.selectionMode
  if mode ≠ .all then (.fail (.unsupportedSelection Aggregation.operatorName mode.text), w)
  else if (w.inputSchema.map d.batch.schema.sameShape).getD false then
    match d.kind with
    | .newSchema =>
      match w.outputSchema with
      | none => (.fail (.misuse .noOutputSchema), w)
      | some output =>
        (.emit (.newSchema (.empty output)),
          { w with intake := .reading d.batch.readings false })
    | .data => readOn d.batch.readings false w
    | .endOfGroup => readOn d.batch.readings true w
  else if w.openKey.isSome || !w.rows.isEmpty then
    let w := { w with intake := .holding d }
    if w.isFull then flush .data w else w.closing (flush .data)
  else layOut d w

def poll (w : Working) : Turn × Working :=
  match w.intake with
  | .awaiting => (.pull, w)
  | .reading rows closes => readOn rows closes w
  | .holding d => accept d { w with intake := .awaiting }
  | .ended => w.finish

def receive (o : Outcome) (w : Working) : Turn × Working :=
  match o with
  | .newSchema b => accept ⟨.newSchema, b⟩ w
  | .data b => accept ⟨.data, b⟩ w
  | .endOfGroup b => accept ⟨.endOfGroup, b⟩ w
  | .notYet => (.emit .notYet, w)
  | .endOfStream => finish { w with intake := .ended }

def emitted (o : Outcome) (w : Working) : Working := { w with recordCount := o.recordCount }

def failed (w : Working) : Working := { w with phase := .failed, recordCount := 0 }.release

/-- Asks the child until there is something to answer, `patience` times at most. `next` is one turn
of the child, which may charge the same budget. -/
def pull {σ : Type} (next : σ → Budget → Except Fault Outcome × σ × Budget) :
    Nat → Working → σ → Except Fault Outcome × Working × σ
  | 0, w, s => (.ok .notYet, w.emitted .notYet, s)
  | patience + 1, w, s =>
    match next s w.memory with
    | (.error e, s, memory) => (.error e, { w with memory }.failed, s)
    | (.ok o, s, memory) =>
      match receive o { w with memory } with
      | (.emit o, w) => (.ok o, w.emitted o, s)
      | (.fail e, w) => (.error e, w.failed, s)
      | (.pull, w) => pull next patience w s

end Working

namespace Aggregation

/-- An aggregation that has seen nothing yet. The fraction is checked, the fold is not. -/
def ofFold (fold : GroupFold) (fraction : Binary .single) (settings : Settings) :
    Except Fault Aggregation := do
  AggregateSpec.validateFraction fraction
  pure {
    fold
    rowCap := AggregateSpec.rowCap fraction settings.batchRows
    inputSchema := none
    outputSchema := none
    intake := .awaiting
    openKey := none
    rows := []
    groupEmitted := false
    boundarySeen := false
    held := 0
    phase := .running
    recordCount := 0 }

def ofSpec (c : AggregateSpec) (settings : Settings) : Except Fault Aggregation := do
  c.validate
  ofFold (.ofCalls c.groupBy c.aggregates) c.fraction settings

def advance {σ : Type} (next : σ → Budget → Except Fault Outcome × σ × Budget) (patience : Nat)
    (a : Aggregation) (s : σ) (memory : Budget) : Except Fault Outcome × Working × σ :=
  let w : Working := { a with memory }
  match a.phase with
  | .running =>
    match w.poll with
    | (.emit o, w) => (.ok o, w.emitted o, s)
    | (.fail e, w) => (.error e, w.failed, s)
    | (.pull, w) => w.pull next patience s
  | .finished => (.ok .endOfStream, w, s)
  | .failed => (.error (.misuse (.advancedAfterFailure operatorName)), w, s)
  | .closed => (.error (.misuse (.advancedAfterClose operatorName)), w, s)

/-- Rows at hand that may still become output rows. -/
def backlog (a : Aggregation) : Nat :=
  let pending := match a.intake with
    | .reading rows _ => rows.length
    | .holding d => d.batch.numRows
    | .awaiting | .ended => 0
  a.rows.length + a.openKey.toList.length + pending

end Aggregation
end BatchFlow

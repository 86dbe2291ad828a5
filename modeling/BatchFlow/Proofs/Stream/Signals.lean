import BatchFlow.Proofs.Stream.Runs

/-!
Signals pass through an aggregation exactly once and in order. What was taken in is always what was
worked off together with what is still at hand; and every event that is a signal is worked off by
handing that signal on.
-/
namespace BatchFlow

namespace Intake

def events (known : Option Shape) : Intake → List Event
  | awaiting => []
  | reading rows closes => rows.map .row ++ if closes then [.boundary] else []
  | holding d => d.outcome.events known
  | ended => [.finish]

def shapeAfter (known : Option Shape) : Intake → Option Shape
  | holding d => some d.batch.schema.shape
  | _ => known

end Intake

theorem Outcome.shapeAfter_delivery (known : Option Shape) (d : Delivery) :
    d.outcome.shapeAfter known = some d.batch.schema.shape := by
  rcases d with ⟨_ | _ | _, b⟩ <;> rfl

theorem Schema.isFresh_self (s : Schema) : s.isFresh (some s.shape) = false := by simp [isFresh]

theorem Schema.shape_of_known {s : Schema} {known : Option Shape} (h : s.isFresh known = false) :
    known = some s.shape := by
  simpa [isFresh] using h

namespace Working

variable {w w' : Working} {us ds : List Outcome} {es : List Event}

def atHand (w : Working) : List Event := w.intake.events w.shape

def seen (w : Working) : Option Shape := w.intake.shapeAfter w.shape

/-- Whether events worked off were at hand or came with these outcomes. -/
def Accounts (w : Working) (us : List Outcome) (es : List Event) (w' : Working) : Prop :=
  w.atHand ++ events w.seen us = es ++ w'.atHand ∧ shapeAfter w.seen us = w'.seen

theorem accounts_kept (intake : w'.intake = w.intake) (input : w'.inputSchema = w.inputSchema) :
    w.Accounts [] [] w' := by
  simp [Accounts, atHand, seen, shape, intake, input, BatchFlow.events, BatchFlow.shapeAfter]

theorem accounts_worked (worked : w.atHand = es ++ w'.atHand) (same : w.seen = w'.seen) :
    w.Accounts [] es w' := by
  simp [Accounts, worked, same, BatchFlow.events, BatchFlow.shapeAfter]

theorem Step.accounts (step : Step w us es ds w') : w.Accounts us es w' := by
  cases step with
  | take reading taken =>
    have same := (takeRow_fixed taken).2.2.1
    apply accounts_worked
    · simp [atHand, reading, Intake.events]
    · simp [seen, reading, Intake.shapeAfter, shape, same]
  | drain reading =>
    apply accounts_worked
    · simp [atHand, reading, Intake.events]
    · simp [seen, reading, Intake.shapeAfter, shape]
  | spill _ flushed | flushRest _ _ _ flushed =>
    refine accounts_kept ?_ (flush_fixed flushed).2.2.1
    obtain ⟨_, _, _, _, _, rfl⟩ := flush_emit flushed
    rfl
  | openDefault => exact accounts_kept (openDefault_keeps w) (openDefault_fixed w).2.2.1
  | bound reading tried room closed flushed =>
    have same := (flush_fixed flushed).2.2.1.trans (closeGroup_fixed closed).2.2.1
    obtain ⟨_, _, _, _, _, rfl⟩ := flush_emit flushed
    apply accounts_worked
    · simp [atHand, reading, Intake.events]
    · simp only [seen, reading, Intake.shapeAfter, shape]
      exact congrArg (Option.map Schema.shape) same.symm
  | hold running awaiting d =>
    simp [Accounts, atHand, seen, shape, awaiting, Intake.events, Intake.shapeAfter,
      BatchFlow.events, BatchFlow.shapeAfter, Outcome.shapeAfter_delivery]
  | wait running awaiting | endInput running awaiting =>
    simp [Accounts, atHand, seen, shape, awaiting, Intake.events, Intake.shapeAfter,
      BatchFlow.events, BatchFlow.shapeAfter, Outcome.events, Outcome.shapeAfter, Outcome.batch?]
  | @announce _ _ d holding kind known laid =>
    obtain ⟨kind', b⟩ := d
    obtain rfl : kind' = .newSchema := kind
    have shape := Schema.shape_of_known known
    apply accounts_worked
    · simp [atHand, holding, Intake.events, Delivery.outcome, Outcome.events, Batch.rowEvents,
        known]
    · simp only [seen, holding, Intake.shapeAfter]
      exact shape.symm
  | @startReading _ d holding kind known =>
    obtain ⟨kind', b⟩ := d
    have shape := Schema.shape_of_known known
    apply accounts_worked
    · cases kind' <;>
        simp_all [atHand, Intake.events, Delivery.outcome, Outcome.events, Batch.rowEvents,
          Batch.announcement]
    · simp only [seen, holding, Intake.shapeAfter]
      exact shape.symm
  | close last room closed =>
    exact accounts_kept (closeGroup_keeps closed) (closeGroup_fixed closed).2.2.1
  | @layOut _ output fold d waiting closed none laid =>
    obtain ⟨holding, fresh⟩ := waiting
    obtain ⟨kind, b⟩ := d
    apply accounts_worked
    · cases kind <;>
        simp_all [atHand, shape, Intake.events, Delivery.outcome, Outcome.events, Batch.rowEvents,
          Batch.announcement, Schema.isFresh_self]
    · cases kind <;> simp [seen, holding, Intake.shapeAfter, shape]
  | finish ended tried closed none =>
    apply accounts_worked
    · simp [atHand, ended, Intake.events, release]
    · simp [seen, ended, Intake.shapeAfter, release, shape]
  | other => exact accounts_kept rfl rfl

theorem Steps.accounts (steps : Steps w us es ds w') : w.Accounts us es w' := by
  induction steps with
  | refl => exact accounts_kept rfl rfl
  | snoc _ step ih =>
    obtain ⟨worked, seen⟩ := ih
    obtain ⟨worked', seen'⟩ := step.accounts
    constructor
    · rw [events_append, ← List.append_assoc, worked, seen, List.append_assoc, worked',
        List.append_assoc]
    · rw [shapeAfter_append, seen, seen']

/-! Each step hands on the signals among the events that it works off. -/

theorem Step.signals_eq (step : Step w us es ds w') :
    ds.filterMap Outcome.signal? = es.filterMap Event.signal? := by
  cases step with
  | spill _ flushed | flushRest _ _ _ flushed | bound _ _ _ _ flushed =>
    obtain ⟨_, _, _, _, rfl, _⟩ := flush_emit flushed
    rfl
  | _ => rfl

theorem Steps.signals_eq (steps : Steps w us es ds w') :
    ds.filterMap Outcome.signal? = es.filterMap Event.signal? := by
  induction steps with
  | refl => rfl
  | snoc _ step ih => rw [List.filterMap_append, List.filterMap_append, ih, step.signals_eq]

theorem Step.announced_numRows (step : Step w us es ds w') :
    ∀ b, .newSchema b ∈ ds → b.numRows = 0 := by
  intro b member
  cases step with
  | spill _ flushed | flushRest _ _ _ flushed | bound _ _ _ _ flushed =>
    obtain ⟨_, _, _, _, rfl, _⟩ := flush_emit flushed
    simp at member
  | announce | layOut =>
    obtain rfl : b = .empty _ := by simpa using member
    rfl
  | _ => simp at member

theorem Steps.announced_numRows (steps : Steps w us es ds w') :
    ∀ b, .newSchema b ∈ ds → b.numRows = 0 := by
  intro b member
  induction steps with
  | refl => simp at member
  | snoc _ step ih =>
    rcases List.mem_append.mp member with before | now
    · exact ih before
    · exact step.announced_numRows b now

theorem flush_data {o : Outcome} (flushed : w.flush .data = (.emit o, w')) :
    o ≠ .endOfStream ∧ w'.intake = w.intake := by
  obtain ⟨_, _, _, _, rfl, rfl⟩ := flush_emit flushed
  exact ⟨by simp, rfl⟩

theorem Step.ends_or_goes_on (step : Step w us es ds w') (running : w.phase = .running)
    (more : w.intake ≠ .ended) :
    us = [.endOfStream] ∧ ds = [] ∧ w'.phase = .running ∧ w'.intake = .ended ∨
      .endOfStream ∉ us ∧ .endOfStream ∉ ds ∧ w'.intake ≠ .ended := by
  cases step with
  | endInput => exact .inl ⟨rfl, rfl, running, rfl⟩
  | take => exact .inr ⟨by simp, by simp, by simp⟩
  | spill _ flushed | flushRest _ _ _ flushed =>
    obtain ⟨data, kept⟩ := flush_data flushed
    exact .inr ⟨by simp, by simpa using data.symm, kept ▸ more⟩
  | openDefault => exact .inr ⟨by simp, by simp, openDefault_keeps w ▸ more⟩
  | bound _ _ _ closed flushed =>
    obtain ⟨_, _, _, _, rfl, rfl⟩ := flush_emit flushed
    exact .inr ⟨by simp, by simp, by simp⟩
  | hold _ _ d =>
    refine .inr ⟨?_, by simp, by simp⟩
    rcases d with ⟨_ | _ | _, b⟩ <;> simp [Delivery.outcome]
  | close _ _ closed => exact .inr ⟨by simp, by simp, closeGroup_keeps closed ▸ more⟩
  | @layOut _ _ _ d =>
    refine .inr ⟨by simp, by simp, ?_⟩
    rcases d with ⟨_ | _ | _, b⟩ <;> simp
  | finish ended => exact absurd ended more
  | _ => exact .inr ⟨by simp, by simp, by simp_all⟩

theorem Step.after_ended (step : Step w us es ds w') (ended : w.intake = .ended) :
    us = [] ∧ (.endOfStream ∉ ds ∧ w'.intake = .ended ∨
      w'.phase = .finished ∧ w'.intake = .awaiting) := by
  cases step with
  | spill _ flushed | flushRest _ _ _ flushed =>
    obtain ⟨data, kept⟩ := flush_data flushed
    exact ⟨rfl, .inl ⟨by simpa using data.symm, kept.trans ended⟩⟩
  | openDefault => exact ⟨rfl, .inl ⟨by simp, (openDefault_keeps w).trans ended⟩⟩
  | close _ _ closed => exact ⟨rfl, .inl ⟨by simp, (closeGroup_keeps closed).trans ended⟩⟩
  | layOut waiting => simp [waiting.1] at ended
  | finish => exact ⟨rfl, .inr ⟨rfl, rfl⟩⟩
  | other => exact ⟨rfl, .inl ⟨by simp, ended⟩⟩
  | _ => simp_all

theorem Step.after_finished (step : Step w us es ds w') (finished : w.phase = .finished)
    (awaiting : w.intake = .awaiting) :
    us = [] ∧ w'.phase = .finished ∧ w'.intake = .awaiting := by
  cases step with
  | spill _ flushed | flushRest _ _ _ flushed =>
    exact ⟨rfl, (flush_fixed flushed).2.1.trans finished, (flush_data flushed).2.trans awaiting⟩
  | openDefault =>
    exact ⟨rfl, (openDefault_fixed w).2.1.trans finished, (openDefault_keeps w).trans awaiting⟩
  | close _ _ closed =>
    exact ⟨rfl, (closeGroup_fixed closed).2.1.trans finished, (closeGroup_keeps closed).trans awaiting⟩
  | layOut waiting => simp [waiting.1] at awaiting
  | other => exact ⟨rfl, finished, awaiting⟩
  | _ => simp_all

/-- How far a run that took `us` in and handed `ds` on has come: the end of the input comes last,
and is handed on only when nothing is left at hand. -/
inductive Ending (us ds : List Outcome) (w : Working) : Prop
  | going (running : w.phase = .running) (more : w.intake ≠ .ended) (given : .endOfStream ∉ us)
      (handed : .endOfStream ∉ ds)
  | ended (running : w.phase = .running) (ended : w.intake = .ended)
      (given : ∃ before, us = before ++ [.endOfStream] ∧ .endOfStream ∉ before)
      (handed : .endOfStream ∉ ds)
  | finished (finished : w.phase = .finished) (awaiting : w.intake = .awaiting)
      (given : ∃ before, us = before ++ [.endOfStream] ∧ .endOfStream ∉ before)

theorem Steps.ending (steps : Steps w us es ds w') (running : w.phase = .running)
    (more : w.intake ≠ .ended) : Ending us ds w' := by
  induction steps with
  | refl => exact .going running more (by simp) (by simp)
  | snoc _ step ih =>
    cases ih with
    | going running more given handed =>
      rcases step.ends_or_goes_on running more with ⟨rfl, rfl, running', ended⟩ | ⟨noEnd, silent, more'⟩
      · exact .ended running' ended ⟨_, rfl, given⟩ (by simpa using handed)
      · exact .going ((step.phase_kept silent).trans running) more' (by simp [given, noEnd])
          (by simp [handed, silent])
    | ended running ended given handed =>
      obtain ⟨rfl, ⟨silent, still⟩ | ⟨finished, awaiting⟩⟩ := step.after_ended ended
      · exact .ended ((step.phase_kept silent).trans running) still (by simpa using given)
          (by simp [handed, silent])
      · exact .finished finished awaiting (by simpa using given)
    | finished finished awaiting given =>
      obtain ⟨rfl, finished', awaiting'⟩ := step.after_finished finished awaiting
      exact .finished finished' awaiting' (by simpa using given)

end Working

def boundaries (results : List (Except Fault Outcome)) : Nat :=
  results.countP fun
    | .ok (.endOfGroup _) => true
    | _ => false

theorem boundaries_signals (os : List Outcome) :
    boundaries (os.map .ok) = (os.filterMap Outcome.signal?).count .endOfGroup := by
  induction os with
  | nil => rfl
  | cons o os ih =>
    rw [boundaries] at ih
    cases o <;> simp [boundaries, List.filterMap_cons, Outcome.signal?, ih]

theorem boundaries_answers (known : Option Shape) (os : List Outcome) :
    (answers known os).count .endOfGroup = boundaries (os.map .ok) := by
  induction os generalizing known with
  | nil => rfl
  | cons o os ih =>
    rw [answers, List.count_append, ih]
    cases o <;> simp only [Outcome.answers] <;> (try split) <;> simp [boundaries, Nat.add_comm]

def received (results : List (Except Fault Outcome)) : List Outcome :=
  results.filterMap Except.toOption

theorem received_eq {results : List (Except Fault Outcome)} {os : List Outcome}
    (all : results = os.map .ok) : received results = os := by
  rw [all, received, List.filterMap_map]
  exact List.filterMap_some

/-- Whether results are without a fault up to the end, and the end comes last. -/
def reachesEnd : List (Except Fault Outcome) → Bool
  | [.ok .endOfStream] => true
  | .ok .endOfStream :: _ => false
  | .ok _ :: rest => reachesEnd rest
  | _ => false

theorem reachesEnd_iff {results : List (Except Fault Outcome)} :
    reachesEnd results = true ↔
      ∃ ds, results = (ds ++ [Outcome.endOfStream]).map .ok ∧ Outcome.endOfStream ∉ ds := by
  constructor
  · intro h
    fun_induction reachesEnd results with
    | case1 => exact ⟨[], rfl, by simp⟩
    | case3 o rest _ other ih =>
      obtain ⟨ds, rfl, once⟩ := ih h
      refine ⟨o :: ds, rfl, ?_⟩
      rw [List.mem_cons, not_or]
      exact ⟨fun same => other same.symm, once⟩
    | case2 | case4 => simp at h
  · rintro ⟨ds, rfl, once⟩
    induction ds with
    | nil => rfl
    | cons o ds ih =>
      rw [List.mem_cons, not_or] at once
      cases o
      case endOfStream => exact absurd rfl once.1
      all_goals
        exact ih once.2

namespace Aggregation.Fresh

variable {a : Aggregation} {c : AggregateSpec} {memory : Budget} {us ds : List Outcome}
  {es : List Event} {w : Working}

theorem events_eq (fresh : a.Fresh c) (steps : Working.Steps { a with memory } us es ds w) :
    BatchFlow.events none us = es ++ w.atHand := by
  have worked := steps.accounts.1
  have nothing : Working.atHand { a with memory } = [] := by
    simp [Working.atHand, fresh.intake, Intake.events]
  have unseen : Working.seen { a with memory } = none := by
    simp [Working.seen, fresh.intake, Intake.shapeAfter, Working.shape, fresh.input]
  rwa [nothing, unseen, List.nil_append] at worked

/-- The signals handed on answer what was taken in, as far as it has been worked off. -/
theorem signals_isPrefix (fresh : a.Fresh c) (steps : Working.Steps { a with memory } us es ds w) :
    ds.filterMap Outcome.signal? <+: answers none us := by
  rw [steps.signals_eq, ← events_signals, fresh.events_eq steps, List.filterMap_append]
  exact List.prefix_append ..

theorem ending (fresh : a.Fresh c) (steps : Working.Steps { a with memory } us es ds w) :
    Working.Ending us ds w :=
  steps.ending fresh.running (by simp [fresh.intake])

end Aggregation.Fresh

namespace Operator

variable {depth : Nat} {settings : Settings} {fs : List Fragment} {ds : List Outcome}

/-- A run of an aggregation that starts from nothing is made of small steps over what its child
gives in that run. -/
theorem fresh_run {a : Aggregation} {child : Operator depth} {c : AggregateSpec}
    (positive : ∀ f ∈ fs, 0 < f.settings.batchRows) (sound : child.Sound) (fresh : a.Fresh c)
    (run : ((aggregate a child).turns fs).1 = ds.map .ok) (memory : Budget) :
    ∃ us es w, (aggregate a child).upstream fs = us.map .ok ∧
      Working.Steps { a with memory } us es (Outcome.throughEnd ds) w := by
  have whole : (aggregate a child).Sound := ⟨fresh.cap, sound⟩
  obtain ⟨us, es, w, child', given, steps, -⟩ :=
    run_steps positive whole fresh.running (Prod.ext run rfl) memory
  exact ⟨us, es, w, congrArg Prod.fst given, steps⟩

/-- Signals pass through an aggregation exactly once and in order, announcements of new shapes are
added, and every announcement is without rows. -/
theorem signals_relayed {a : Aggregation} {child : Operator depth} {c : AggregateSpec}
    (positive : ∀ f ∈ fs, 0 < f.settings.batchRows) (sound : child.Sound) (fresh : a.Fresh c)
    (run : ((aggregate a child).turns fs).1 = (ds ++ [Outcome.endOfStream]).map .ok)
    (once : .endOfStream ∉ ds) :
    (∃ us, (aggregate a child).upstream fs = (us ++ [Outcome.endOfStream]).map .ok ∧
      Outcome.endOfStream ∉ us ∧
      (ds ++ [Outcome.endOfStream]).filterMap Outcome.signal? = answers none (us ++ [.endOfStream])) ∧
    ∀ b, .newSchema b ∈ ds → b.numRows = 0 := by
  obtain ⟨us, es, w, given, steps⟩ :=
    fresh_run positive sound fresh run (.ofLimit 0)
  rw [Outcome.throughEnd_ending once] at steps
  have worked := fresh.events_eq steps
  cases fresh.ending steps with
  | going _ _ _ handed | ended _ _ _ handed => simp at handed
  | finished finished awaiting ends =>
    obtain ⟨before, rfl, once'⟩ := ends
    rw [Working.atHand, awaiting, Intake.events, List.append_nil] at worked
    refine ⟨⟨before, given, once', ?_⟩, fun b member => ?_⟩
    · rw [steps.signals_eq, ← worked, events_signals]
    · exact steps.announced_numRows b (List.mem_append_left _ member)

/-- Through any number of aggregations there come as many boundaries as the source gives. -/
theorem boundaries_sourced {p : Plan} {op : Operator p.depth}
    (positive : ∀ f ∈ fs, 0 < f.settings.batchRows) (built : p.build settings = .ok op)
    (run : (op.turns fs).1 = (ds ++ [Outcome.endOfStream]).map .ok) (once : .endOfStream ∉ ds) :
    boundaries (op.sourced fs) = boundaries (op.turns fs).1 := by
  induction p generalizing fs ds with
  | replay | unnest => rfl
  | aggregate p c direct ih =>
    obtain ⟨a, child, rfl, below, fresh, -⟩ := Plan.build_aggregate built
    obtain ⟨⟨us, given, once', signals⟩, -⟩ :=
      signals_relayed positive (built_sound below) fresh run once
    have positive' : ∀ f ∈ (aggregate a child).childRun fs, 0 < f.settings.batchRows := by
      intro f member
      obtain ⟨f', there, same⟩ := settings_childRun member
      rw [same]
      exact positive f' there
    rw [run, boundaries_signals, signals, boundaries_answers, ← given]
    exact ih positive' below given once'

/-- In a complete run an aggregation answers what its child gave, signal by signal, announces
without rows, and as many boundaries come through as the source gives. -/
theorem aggregate_relays {p : Plan} {c : AggregateSpec} {direct : Bool}
    {op : Operator (p.depth + 1)} (valid : settings.validate = .ok ())
    (built : (Plan.aggregate p c direct).build settings = .ok op)
    (shared : ∀ f ∈ fs, f.settings = settings)
    (run : (op.turns fs).1 = (ds ++ [Outcome.endOfStream]).map .ok) (once : .endOfStream ∉ ds) :
    (∃ us, op.upstream fs = (us ++ [Outcome.endOfStream]).map .ok ∧ Outcome.endOfStream ∉ us ∧
      (ds ++ [Outcome.endOfStream]).filterMap Outcome.signal? =
        answers none (us ++ [Outcome.endOfStream])) ∧
    (∀ b, .newSchema b ∈ ds → b.numRows = 0) ∧
    boundaries (op.sourced fs) = boundaries (op.turns fs).1 := by
  have positive := batchRows_shared valid shared
  have sourced := boundaries_sourced positive built run once
  obtain ⟨a, child, rfl, below, fresh, -⟩ := Plan.build_aggregate built
  obtain ⟨relayed, announced⟩ := signals_relayed positive (built_sound below) fresh run once
  exact ⟨relayed, announced, sourced⟩

end Operator

def sampleBatch (name : String) (values : List Bool) : Batch :=
  ⟨⟨[⟨name, .boolean, true⟩]⟩,
    [.flat (.ofList ⟨name, .boolean, true⟩ (values.map .boolean) none)], values.length, none, 0⟩

def sampleChain : Plan :=
  let count : AggregateSpec := ⟨[], [⟨.countAll, [], "n"⟩], AggregateSpec.fullFraction⟩
  .aggregate (.aggregate (.replay [.newSchema (sampleBatch "x" []), .notYet,
    .endOfGroup (sampleBatch "x" [true, false]), .data (sampleBatch "y" [true]),
    .endOfGroup (sampleBatch "y" [])] none) count false) count false

theorem aggregate_relays_sample :
    let fs := List.replicate 6 ⟨.trial, .ofLimit 4096, .start⟩
    ∃ op : Operator 2, ∃ ds us, sampleChain.build .trial = .ok op ∧
      (op.turns fs).1 = (ds ++ [Outcome.endOfStream]).map .ok ∧
      op.upstream fs = (us ++ [Outcome.endOfStream]).map .ok ∧
      (ds ++ [Outcome.endOfStream]).filterMap Outcome.signal? =
        answers none (us ++ [Outcome.endOfStream]) ∧
      boundaries (op.sourced fs) = boundaries (op.turns fs).1 := by
  intro fs
  have ends : (sampleChain.build .trial).toOption.any
      (fun op : Operator 2 => reachesEnd (op.turns fs).1) = true := by decide +kernel
  rcases built : sampleChain.build .trial with e | op
  · rw [built] at ends
    cases ends
  · rw [built] at ends
    obtain ⟨ds, run, once⟩ := reachesEnd_iff.mp ends
    have valid : Settings.validate .trial = .ok () := rfl
    obtain ⟨⟨us, given, -, signals⟩, -, sourced⟩ :=
      Operator.aggregate_relays valid built (by simp [fs]) run once
    exact ⟨op, ds, us, rfl, run, given, signals, sourced⟩

end BatchFlow

import BatchFlow.Proofs.Aggregate.Refusals
import BatchFlow.Proofs.Batch.Fitting
import BatchFlow.Proofs.Stream.Asking

/-!
Where the faults of an aggregation come from. A turn that fails has come, by small steps that hand
nothing on, to a state in which something is broken; what can be broken is a short list.
-/
namespace BatchFlow

/-- A child that neither reads nor charges the budget. -/
def Child.Frugal {σ : Type} (next : Child σ) : Prop :=
  ∀ s memory memory', next s memory' = ((next s memory).1, (next s memory).2.1, memory')

namespace Working

/-- What can be broken in a state, with the fault that comes of it. -/
inductive Broken : Working → Fault → Prop
  | row (reading : w.intake = .reading (.error e :: rest) closes) : Broken w e
  | key (reading : w.intake = .reading (.ok row :: rest) closes)
      (failed : w.fold.key row = .error e) : Broken w e
  -- A row that neither the open group nor a new one can take in.
  | fold (reading : w.intake = .reading (.ok row :: rest) closes)
      (group : g = w.fold ∨ g = w.fold.restart) (failed : (g.accumulate row).1 = .error e) :
      Broken w e
  -- The bytes of the open group's row are more than are left.
  | memory (opened : w.openKey = some key)
      (refused : (w.memory.charge (w.fold.finish key).1.footprint).1 = .error e) : Broken w e
  | unlaid (none : w.outputSchema = none) : Broken w (.misuse .noOutputSchema)
  -- The rows kept, alone or with that of the open group, make no batch.
  | unfit (laid : w.outputSchema = some output)
      (kept : rows = w.rows ∨ rows = w.rows ++ w.fold.openRow w.openKey)
      (failed : Batch.ofRows output rows = .error e) : Broken w e
  | selection (holding : w.intake = .holding d) (selected : d.batch.selectionMode ≠ .all) :
      Broken w (.unsupportedSelection Aggregation.operatorName d.batch.selectionMode.text)
  | layout (holding : w.intake = .holding d) (failed : w.fold.setUp d.batch.schema = .error e) :
      Broken w e

/-- All that has been charged or given back in between are the bytes of rows kept. -/
structure Charged (w w' : Working) : Prop where
  limit : w'.memory.limit = w.memory.limit
  bytes : w'.memory.allocated + w.held = w.memory.allocated + w'.held
  below : w.memory.allocated ≤ w.memory.limit → w'.memory.allocated ≤ w'.memory.limit

variable {w w' w₁ v : Working} {e : Fault} {row : Row} {rows rest : List (Except Fault Row)}
  {closes : Bool} {d : Delivery} {us us' ds : List Outcome} {es : List Event}

theorem Charged.refl (w : Working) : w.Charged w := ⟨rfl, rfl, id⟩

theorem Charged.trans (first : w.Charged w₁) (then' : w₁.Charged w') : w.Charged w' := by
  refine ⟨then'.limit.trans first.limit, ?_, then'.below ∘ first.below⟩
  have := first.bytes
  have := then'.bytes
  omega

theorem closeGroup_charged (h : w.closeGroup = (.ok (), w')) : w.Charged w' := by
  unfold closeGroup at h
  cases opened : w.openKey with
  | none =>
    simp only [opened] at h
    obtain rfl := (Prod.mk.inj h).2
    exact .refl w
  | some key =>
    simp only [opened] at h
    split at h
    · cases h
    next memory charged =>
      obtain rfl := (Prod.mk.inj h).2
      obtain ⟨fits, rfl⟩ := Budget.charge_ok charged
      simp only [Budget.available] at fits
      refine ⟨rfl, ?_, fun below => ?_⟩ <;> simp only
      · omega
      · omega

theorem takeRow_charged (h : w.takeRow row = (.ok true, w')) : w.Charged w' := by
  obtain ⟨-, -, -, ⟨-, -, -, -, rfl⟩ | ⟨-, -, w₁, closed, -, rfl⟩⟩ := takeRow_taken h
  · exact ⟨rfl, rfl, id⟩
  · obtain ⟨limit, bytes, below⟩ := closeGroup_charged closed
    exact ⟨limit, bytes, below⟩

/-- A turn that fails has come to a state in which something is broken. Until then, as until more
input is asked for, only rows kept have been charged. -/
def Fails (w : Working) (us : List Outcome) : Turn × Working → Prop
  | (.fail e, _) => ∃ es w₁, Steps w us es [] w₁ ∧ w₁.Broken e ∧ w.Charged w₁
  | (.pull, w') => w.Charged w'
  | (.emit _, _) => True

theorem Broken.fails (broken : w.Broken e) : w.Fails [] (.fail e, w') :=
  ⟨[], w, .refl w, broken, .refl w⟩

theorem Steps.fails {t : Turn × Working} (first : Steps w us es [] w₁) (charged : w.Charged w₁)
    (then' : w₁.Fails us' t) : w.Fails (us ++ us') t := by
  obtain ⟨_ | _ | _, w'⟩ := t
  · trivial
  · obtain ⟨es', w₂, steps, broken, paid⟩ := then'
    exact ⟨_, w₂, first.trans steps, broken, charged.trans paid⟩
  · exact charged.trans then'

theorem closeGroup_error (h : w.closeGroup = (.error e, w')) : w.Broken e := by
  unfold closeGroup at h
  cases opened : w.openKey with
  | none => simp [opened] at h
  | some key =>
    simp only [opened] at h
    split at h
    next refused =>
      obtain rfl := Except.error.inj (Prod.mk.inj h).1
      exact .memory opened (congrArg Prod.fst refused)
    · cases h

theorem takeRow_error (h : w.takeRow row = (.error e, w'))
    (reading : w.intake = .reading (.ok row :: rest) closes) : w.Broken e := by
  unfold takeRow at h
  split at h
  next failed =>
    obtain rfl := Except.error.inj (Prod.mk.inj h).1
    exact .key reading failed
  · have folded {g : GroupFold} {r : Except Fault Unit} (r_eq : r = (g.accumulate row).1)
        (failed : r.map (fun () => true) = .error e) : (g.accumulate row).1 = .error e := by
      subst r_eq
      cases result : (g.accumulate row).1 with
      | ok => simp [result, Except.map] at failed
      | error => simpa [result, Except.map] using failed
    split at h
    · exact .fold reading (.inl rfl) (folded rfl (Prod.mk.inj h).1)
    · split at h
      · cases h
      · split at h
        next refused =>
          obtain rfl := Except.error.inj (Prod.mk.inj h).1
          exact closeGroup_error refused
        next w₁ closed =>
          obtain ⟨memory, rfl⟩ := closeGroup_ok closed
          refine .fold reading ?_ (folded rfl (Prod.mk.inj h).1)
          cases w.openKey with
          | none => exact .inl rfl
          | some => exact .inr rfl

/-- Rows are taken in one by one, until one cannot be. -/
theorem read_fails (closes : Bool) (rows : List (Except Fault Row)) (w : Working) :
    match read rows w with
    | (.fault e, _) => ∃ es w₁, Steps { w with intake := .reading rows closes } [] es [] w₁ ∧
        w₁.Broken e ∧ w.Charged w₁
    | (_, w') => w.Charged w' := by
  induction rows generalizing w with
  | nil => exact .refl w
  | cons r rest ih =>
    cases r with
    | error e => exact ⟨[], _, .refl _, .row rfl, rfl, rfl, id⟩
    | ok row =>
      rw [read]
      have here : takeRow row { w with intake := .reading (.ok row :: rest) closes } = _ :=
        takeRow_intake w row _
      rcases taken : w.takeRow row with ⟨e | ⟨_ | _⟩, w₁⟩
      · rw [taken] at here
        exact ⟨[], _, .refl _, takeRow_error here rfl, rfl, rfl, id⟩
      · obtain ⟨rfl, -⟩ := takeRow_full taken
        exact .refl _
      · rw [taken] at here
        have step : Step { w with intake := .reading (.ok row :: rest) closes } []
            [.row (.ok row)] [] { w₁ with intake := .reading rest closes } :=
          @Step.take { w₁ with intake := .reading (.ok row :: rest) closes } _ _ _ _ rfl here
        have paid : w.Charged w₁ := takeRow_charged taken
        have others := ih w₁
        simp only
        rcases result : read rest w₁ with ⟨_ | _ | e, w₂⟩ <;> rw [result] at others
        · exact paid.trans others
        · exact paid.trans others
        · obtain ⟨es, w₃, steps, broken, charged⟩ := others
          exact ⟨_, w₃, step.steps.trans steps, broken, paid.trans charged⟩

/-- A flush that fails does so because of the rows that it was to hand on. -/
theorem flush_fails {wrap : Batch → Outcome} (output : v.outputSchema = w.outputSchema)
    (kept : v.rows = w.rows ∨ v.rows = w.rows ++ w.fold.openRow w.openKey) :
    w.Fails [] (v.flush wrap) := by
  unfold flush
  split
  next none => exact Broken.fails (.unlaid (output ▸ none))
  next schema laid =>
    split
    next failed => exact Broken.fails (.unfit (output ▸ laid) kept failed)
    · trivial

theorem endGroup_fails (w : Working) : Fails { w with intake := .reading [] true } [] w.endGroup := by
  have default : Step { w with intake := .reading [] true } [] [] []
      { w.openDefault with intake := .reading [] true } := by
    have step : Step { w with intake := .reading [] true } [] [] [] _ := .openDefault (.inl rfl)
    rwa [openDefault_intake] at step
  have free : Charged { w with intake := .reading [] true }
      { w.openDefault with intake := .reading [] true } := by
    unfold openDefault
    split <;> exact ⟨rfl, rfl, id⟩
  refine default.steps.fails free ?_
  unfold endGroup
  simp only
  split
  · exact flush_fails rfl (.inl rfl)
  · unfold closing
    have here : closeGroup { w.openDefault with intake := .reading [] true } = _ :=
      closeGroup_intake w.openDefault _
    rcases closed : w.openDefault.closeGroup with ⟨_ | _, w₁⟩
    · rw [closed] at here
      exact Broken.fails (closeGroup_error here)
    · obtain ⟨memory, rfl⟩ := closeGroup_ok closed
      exact flush_fails rfl (.inr rfl)

theorem readOn_fails (rows : List (Except Fault Row)) (closes : Bool) (w : Working) :
    Fails { w with intake := .reading rows closes } [] (readOn rows closes w) := by
  have steps := read_steps closes rows { w with intake := .awaiting }
  have fails := read_fails closes rows { w with intake := .awaiting }
  unfold readOn
  rcases result : read rows { w with intake := .awaiting } with ⟨_ | rest | e, w₁⟩ <;>
    rw [result] at steps fails
  · obtain ⟨kept, steps⟩ := steps
    cases closes with
    | false => exact ⟨fails.limit, fails.bytes, fails.below⟩
    | true => exact steps.fails ⟨fails.limit, fails.bytes, fails.below⟩ (endGroup_fails w₁)
  · obtain ⟨-, es, steps⟩ := steps
    exact steps.fails ⟨fails.limit, fails.bytes, fails.below⟩ (flush_fails rfl (.inl rfl))
  · obtain ⟨es, w₂, steps, broken, charged⟩ := fails
    exact ⟨es, w₂, steps, broken, charged.limit, charged.bytes, charged.below⟩

theorem finish_fails (ended : w.intake = .ended) : w.Fails [] w.finish := by
  obtain ⟨default, still⟩ := lastDefault_steps ended
  have free : w.Charged w.lastDefault := by
    unfold lastDefault openDefault
    split
    · exact .refl w
    · split <;> exact ⟨rfl, rfl, id⟩
  refine default.fails free ?_
  change Fails w.lastDefault []
    (if w.lastDefault.isBlocked then flush .data w.lastDefault else w.lastDefault.closing _)
  split
  · exact flush_fails rfl (.inl rfl)
  · unfold closing
    rcases closed : w.lastDefault.closeGroup with ⟨_ | _, w₁⟩
    · exact Broken.fails (closeGroup_error closed)
    · obtain ⟨memory, rfl⟩ := closeGroup_ok closed
      simp only
      split
      · trivial
      · exact flush_fails rfl (.inr rfl)

/-- What was built before another shape is handed on while its batch waits. -/
theorem rest_fails (w : Working) :
    w.Fails [] (if w.isFull then flush .data w else w.closing (flush .data)) := by
  split
  · exact flush_fails rfl (.inl rfl)
  · unfold closing
    rcases closed : w.closeGroup with ⟨_ | _, w₁⟩
    · exact Broken.fails (closeGroup_error closed)
    · obtain ⟨memory, rfl⟩ := closeGroup_ok closed
      exact flush_fails rfl (.inr rfl)

theorem accept_fails (d : Delivery) (w : Working) :
    Fails { w with intake := .holding d } [] (accept d w) := by
  unfold accept
  simp only
  split
  next selected => exact Broken.fails (.selection rfl selected)
  · rw [known_iff]
    split
    next known =>
      have known : d.batch.schema.isFresh w.shape = false := by simpa using known
      have start (kind : d.kind ≠ .newSchema) :
          Step { w with intake := .holding d } [] [] []
            { w with intake := .reading d.batch.readings (d.kind = .endOfGroup) } :=
        .startReading rfl kind known
      rcases d with ⟨_ | _ | _, b⟩
      · simp only
        split
        next none => exact Broken.fails (.unlaid none)
        · trivial
      · exact (start (by simp)).steps.fails ⟨rfl, rfl, id⟩ (readOn_fails b.readings false w)
      · exact (start (by simp)).steps.fails ⟨rfl, rfl, id⟩ (readOn_fails b.readings true w)
    · split
      · exact rest_fails { w with intake := .holding d }
      · unfold layOut
        split
        next failed => exact Broken.fails (.layout rfl failed)
        · trivial

theorem poll_fails (w : Working) : w.Fails [] w.poll := by
  unfold poll
  split
  · exact .refl w
  next rows closes reading =>
    have turn := readOn_fails rows closes w
    rwa [with_intake reading] at turn
  next d holding =>
    have turn := accept_fails d { w with intake := .awaiting }
    rwa [show { ({ w with intake := .awaiting } : Working) with intake := .holding d } = w from
      with_intake holding] at turn
  next ended => exact finish_fails ended

theorem receive_fails (u : Outcome) (running : w.phase = .running) (awaiting : w.intake = .awaiting) :
    w.Fails [u] (receive u w) := by
  have held (d : Delivery) : w.Fails [d.outcome] (accept d w) :=
    (Step.steps (.hold running awaiting d)).fails ⟨rfl, rfl, id⟩ (accept_fails d w)
  cases u with
  | newSchema b => exact held ⟨.newSchema, b⟩
  | data b => exact held ⟨.data, b⟩
  | endOfGroup b => exact held ⟨.endOfGroup, b⟩
  | notYet => trivial
  | endOfStream =>
    exact (Step.steps (.endInput running awaiting)).fails ⟨rfl, rfl, id⟩ (finish_fails rfl)

def Reported (w : Working) : Prop :=
  ∀ rows closes e, w.intake = .reading rows closes → .error e ∈ rows → e.code = .internal

theorem unread_readings {b : Batch} (member : .error e ∈ b.readings) :
    e.code = .internal := by
  obtain ⟨i, -, read⟩ := List.mem_map.mp member
  split at read <;> cases read
  rfl

theorem Reported.of_intake_eq (reported : w.Reported) (kept : w'.intake = w.intake) : w'.Reported := by
  unfold Reported
  rw [kept]
  exact reported

theorem Step.reported (step : Step w us es ds w') (reported : w.Reported) : w'.Reported := by
  cases step with
  | take reading taken =>
    rintro rows closes e ⟨⟩ member
    exact reported _ _ e reading (List.mem_cons_of_mem _ member)
  | spill _ flushed | flushRest _ _ _ flushed =>
    obtain ⟨_, _, _, _, _, rfl⟩ := flush_emit flushed
    exact reported
  | openDefault => exact reported.of_intake_eq (openDefault_keeps w)
  | close _ _ closed => exact reported.of_intake_eq (closeGroup_keeps closed)
  | bound _ _ _ _ flushed =>
    obtain ⟨_, _, _, _, _, rfl⟩ := flush_emit flushed
    rintro rows closes e ⟨⟩
  | announce | startReading =>
    rintro rows closes e ⟨⟩ member
    exact unread_readings member
  | layOut =>
    intro rows closes e reading member
    simp only at reading
    split at reading <;> cases reading
    exact unread_readings member
  | drain | hold | endInput | finish => rintro rows closes e ⟨⟩
  | wait | other => exact reported

theorem Steps.reported (steps : Steps w us es ds w') (reported : w.Reported) : w'.Reported := by
  induction steps with
  | refl => exact reported
  | snoc _ step ih => exact step.reported ih

/-- Faults that come neither from the child nor from the buffer of rows: of a row, of a layout, of a
selection, or of the state itself. -/
def internalCodes : List FaultCode :=
  [.internal, .evaluationFailed, .unsupportedSelectionVector, .missingColumn, .invalidConfig]

/-- The row of the open group is refused for its bytes, the buffer for its rows; an unreadable row
brings its own fault. -/
theorem Broken.exists_cause (broken : w.Broken e) :
    (∃ rest closes, w.intake = .reading (.error e :: rest) closes) ∨
      (∃ key, w.openKey = some key ∧
        (w.memory.charge (w.fold.finish key).1.footprint).1 = .error e) ∨
      (∃ output rows, w.outputSchema = some output ∧
        (rows = w.rows ∨ rows = w.rows ++ w.fold.openRow w.openKey) ∧
        Batch.ofRows output rows = .error e) ∨
      e.code ∈ internalCodes := by
  cases broken with
  | row reading => exact .inl ⟨_, _, reading⟩
  | memory opened refused => exact .inr (.inl ⟨_, opened, refused⟩)
  | unfit laid kept failed => exact .inr (.inr (.inl ⟨_, _, laid, kept, failed⟩))
  | key reading failed =>
    refine .inr (.inr (.inr ?_))
    rcases GroupFold.key_error failed with code | code <;> simp [internalCodes, code]
  | fold reading group failed =>
    refine .inr (.inr (.inr ?_))
    rcases GroupFold.accumulate_error failed with code | code <;> simp [internalCodes, code]
  | layout holding failed =>
    refine .inr (.inr (.inr ?_))
    rcases GroupFold.setUp_error failed with code | code <;> simp [internalCodes, code]
  | unlaid | selection =>
    refine .inr (.inr (.inr ?_))
    simp [internalCodes, Fault.code]

variable {σ : Type} {next : Child σ} {s s' : σ}

/-- Asking fails with the child's fault, or because the last outcome that the child gave has led to
a state in which something is broken. -/
theorem pull_fails {patience : Nat} (running : w.phase = .running) (awaiting : w.intake = .awaiting)
    (turn : w.pull next patience s = (.error e, w', s')) (log : List Budget) :
    ∃ asked us, w.pull next.logged patience (s, log) = (.error e, w', (s', log ++ asked)) ∧
      (∃ v : Working, w' = v.failed) ∧
      (next.turns asked s = (us.map .ok ++ [.error e], s') ∨
        next.turns asked s = (us.map .ok, s') ∧ ∃ es w₁, Steps w us es [] w₁ ∧ w₁.Broken e ∧
          (next.Frugal → w.Charged w₁)) := by
  induction patience generalizing w s log with
  | zero => simp [pull] at turn
  | succ patience ih =>
    rw [pull] at turn ⊢
    rcases asked : next s w.memory with ⟨e' | u, s₁, memory⟩
    · simp only [asked, Child.logged] at turn ⊢
      simp only [Prod.mk.injEq, Except.error.injEq] at turn
      obtain ⟨rfl, rfl, rfl⟩ := turn
      exact ⟨[w.memory], [], rfl, ⟨_, rfl⟩, .inl (by simp [Child.turns, asked])⟩
    · have others : Step w [] [] [] { w with memory } := .other w.recordCount memory
      have free (frugal : next.Frugal) : w.Charged { w with memory } := by
        have same := congrArg (fun t => t.2.2) (frugal s w.memory w.memory)
        rw [asked] at same
        obtain rfl : memory = w.memory := same
        exact .refl w
      have reached := receive_reaches u (w := { w with memory }) running awaiting
      have fails := receive_fails u (w := { w with memory }) running awaiting
      simp only [asked, Child.logged] at turn ⊢
      rcases received : receive u { w with memory } with ⟨o | e' | _, w₁⟩ <;>
        rw [received] at turn reached fails
      · simp at turn
      · simp only [Prod.mk.injEq, Except.error.injEq] at turn
        obtain ⟨rfl, rfl, rfl⟩ := turn
        obtain ⟨es, w₂, steps, broken, charged⟩ := fails
        refine ⟨[w.memory], [u], rfl, ⟨_, rfl⟩, .inr ⟨by simp [Child.turns, asked], es, w₂, ?_,
          broken, fun frugal => (free frugal).trans charged⟩⟩
        exact others.steps.trans steps
      · obtain ⟨⟨es, steps⟩, again⟩ := reached
        obtain ⟨budgets, us, same, failed, blame⟩ :=
          ih (steps.phase_running running (by simp)) again turn (log ++ [w.memory])
        refine ⟨w.memory :: budgets, u :: us, ?_, failed, ?_⟩
        · refine same.trans ?_
          rw [List.append_assoc]
          rfl
        · rcases blame with given | ⟨given, es', w₂, steps', broken, charged⟩
          · exact .inl (by simp [Child.turns, asked, given])
          · refine .inr ⟨by simp [Child.turns, asked, given], es ++ es', w₂, ?_, broken, ?_⟩
            · simpa using (others.steps.trans steps).trans steps'
            · exact fun frugal => ((free frugal).trans fails).trans (charged frugal)

end Working

namespace Aggregation

variable {σ : Type} {a : Aggregation} {w' : Working} {e : Fault} {next : Child σ} {s s' : σ}
  {memory : Budget} {patience : Nat}

/-- A turn fails with the child's fault, or because something is broken in a state to which the
outcomes asked for have led. -/
theorem advance_fails (running : a.phase = .running)
    (turn : a.advance next patience s memory = (.error e, w', s')) :
    ∃ us, (∃ v : Working, w' = v.failed) ∧
      (next.turns (a.asks next patience s memory) s = (us.map .ok ++ [.error e], s') ∨
        next.turns (a.asks next patience s memory) s = (us.map .ok, s') ∧ ∃ es w₁,
          Working.Steps { a with memory } us es [] w₁ ∧ w₁.Broken e ∧
          (next.Frugal → Working.Charged { a with memory } w₁)) := by
  simp only [advance, asks, running] at turn ⊢
  have reached := Working.poll_reaches { a with memory }
  have fails := Working.poll_fails { a with memory }
  rcases polled : Working.poll { a with memory } with ⟨o | e' | _, w₁⟩ <;>
    rw [polled] at turn reached fails
  · simp at turn
  · simp only [Prod.mk.injEq, Except.error.injEq] at turn
    obtain ⟨rfl, rfl, rfl⟩ := turn
    obtain ⟨es, w₂, steps, broken, charged⟩ := fails
    exact ⟨[], ⟨_, rfl⟩, .inr ⟨rfl, es, w₂, steps, broken, fun _ => charged⟩⟩
  · obtain ⟨⟨es, steps⟩, awaiting⟩ := reached
    obtain ⟨asked, us, same, failed, blame⟩ :=
      Working.pull_fails (steps.phase_running running (by simp)) awaiting turn []
    refine ⟨us, failed, ?_⟩
    simp only [same, List.nil_append]
    rcases blame with given | ⟨given, es', w₂, steps', broken, charged⟩
    · exact .inl given
    · refine .inr ⟨given, es ++ es', w₂, ?_, broken, fun frugal => fails.trans (charged frugal)⟩
      simpa using steps.trans steps'

end Aggregation
end BatchFlow

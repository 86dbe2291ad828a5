import BatchFlow.Proofs.Stream.Steps

/-!
What each operation of an aggregation does to its state, and that every turn of the machine is a
sequence of small steps.
-/
namespace BatchFlow.Working

variable {w w' : Working} {o : Outcome} {row : Row} {rows rest : List (Except Fault Row)}
  {closes : Bool} {d : Delivery} {us : List Outcome} {w₀ : Working}

/-- Closing moves the open group's row to the rows kept. -/
theorem closeGroup_ok (h : w.closeGroup = (.ok (), w')) :
    ∃ memory, w' = { w with
      fold := if w.openKey.isSome then w.fold.restart else w.fold
      openKey := none
      rows := w.rows ++ w.fold.openRow w.openKey
      groupEmitted := w.groupEmitted || w.openKey.isSome
      held := w.held + ((w.fold.openRow w.openKey).map Row.footprint).foldr (· + ·) 0
      memory } := by
  unfold closeGroup at h
  cases key : w.openKey with
  | none =>
    simp only [key, Prod.mk.injEq, true_and] at h
    subst h
    obtain ⟨a, memory⟩ := w
    cases a
    subst key
    exact ⟨memory, by simp [GroupFold.openRow]⟩
  | some k =>
    simp only [key] at h
    split at h
    · cases h
    next memory _ =>
      refine ⟨memory, ?_⟩
      rw [← (Prod.mk.inj h).2]
      simp [GroupFold.openRow, GroupFold.finish]

/-- A flush hands on all rows kept, in a batch of the announced schema. -/
theorem flush_emit {wrap : Batch → Outcome} (h : w.flush wrap = (.emit o, w')) :
    ∃ output b, w.outputSchema = some output ∧ Batch.ofRows output w.rows = .ok b ∧ o = wrap b ∧
      w' = { w with rows := [], held := 0, memory := w.memory.release w.held } := by
  unfold flush at h
  split at h
  · cases h
  next output laid =>
    split at h
    · cases h
    next b built =>
      obtain ⟨emitted, rfl⟩ := Prod.mk.inj h
      exact ⟨output, b, laid, built, (Turn.emit.inj emitted).symm, rfl⟩

theorem flush_ne_pull {wrap : Batch → Outcome} : w.flush wrap ≠ (.pull, w') := by
  unfold flush
  split
  · simp
  · split <;> simp

/-- A row taken in is folded into the open group, or into a new one after the open group has been
closed. -/
theorem takeRow_taken (h : w.takeRow row = (.ok true, w')) :
    ∃ key fold, w.fold.key row = .ok key ∧
      ((∃ openKey, w.openKey = some openKey ∧ Value.allEqual openKey key = true ∧
          w.fold.accumulate row = (.ok (), fold) ∧ w' = { w with fold }) ∨
        (w.continues key = false ∧ w.isBlocked = false ∧ ∃ w₁, w.closeGroup = (.ok (), w₁) ∧
          w₁.fold.accumulate row = (.ok (), fold) ∧
          w' = { w₁ with openKey := some key, fold })) := by
  unfold takeRow at h
  split at h
  · cases h
  next key keyed =>
    refine ⟨key, ?_⟩
    split at h
    next same =>
      obtain ⟨openKey, there, equal⟩ :
          ∃ openKey, w.openKey = some openKey ∧ Value.allEqual openKey key = true := by
        unfold continues at same
        split at same
        next k there => exact ⟨k, there, same⟩
        · cases same
      obtain ⟨result, rfl⟩ := Prod.mk.inj h
      refine ⟨_, keyed, .inl ⟨openKey, there, equal, ?_, rfl⟩⟩
      obtain ⟨⟨⟩, ok, -⟩ := map_eq_ok.mp result
      exact Prod.ext ok rfl
    next other =>
      split at h
      · cases h
      next room =>
        split at h
        · cases h
        next w₁ closed =>
          obtain ⟨result, rfl⟩ := Prod.mk.inj h
          refine ⟨_, keyed, .inr ⟨Bool.eq_false_iff.mpr other, Bool.eq_false_iff.mpr room, w₁,
            closed, ?_, rfl⟩⟩
          obtain ⟨⟨⟩, ok, -⟩ := map_eq_ok.mp result
          exact Prod.ext ok rfl

theorem takeRow_full (h : w.takeRow row = (.ok false, w')) : w' = w ∧ w.isBlocked = true := by
  unfold takeRow at h
  split at h
  · cases h
  · split at h
    · obtain ⟨⟨⟩, -, no⟩ := map_eq_ok.mp (Prod.mk.inj h).1
      cases no
    · split at h
      next blocked => exact ⟨(Prod.mk.inj h).2.symm, blocked⟩
      · split at h
        · cases h
        · obtain ⟨⟨⟩, -, no⟩ := map_eq_ok.mp (Prod.mk.inj h).1
          cases no

/-! What is at hand of the input plays no part in the groups. -/

theorem with_intake {i : Intake} (h : w.intake = i) : { w with intake := i } = w := by
  subst h; rfl

theorem closeGroup_intake (w : Working) (i : Intake) :
    closeGroup { w with intake := i } = (w.closeGroup.1, { w.closeGroup.2 with intake := i }) := by
  obtain ⟨a, memory⟩ := w
  obtain ⟨fold, rowCap, inputSchema, outputSchema, intake, openKey⟩ := a
  cases openKey with
  | none => rfl
  | some key =>
    simp only [closeGroup]
    rcases memory.charge _ with ⟨_ | _, _⟩ <;> rfl

theorem openDefault_intake (w : Working) (i : Intake) :
    openDefault { w with intake := i } = { w.openDefault with intake := i } := by
  simp only [openDefault]
  split <;> rfl

theorem takeRow_intake (w : Working) (row : Row) (i : Intake) :
    takeRow row { w with intake := i } =
      ((w.takeRow row).1, { (w.takeRow row).2 with intake := i }) := by
  have same : continues { w with intake := i } = w.continues := rfl
  have blocked : isBlocked { w with intake := i } = w.isBlocked := rfl
  simp only [takeRow, closeGroup_intake, same, blocked, accumulate]
  split
  · rfl
  · split
    · rfl
    · split
      · rfl
      · rcases w.closeGroup with ⟨_ | _, _⟩ <;> rfl

theorem closeGroup_keeps (h : w.closeGroup = (.ok (), w')) : w'.intake = w.intake := by
  obtain ⟨-, rfl⟩ := closeGroup_ok h
  rfl

theorem takeRow_keeps (h : w.takeRow row = (.ok true, w')) : w'.intake = w.intake := by
  obtain ⟨-, -, -, ⟨-, -, -, -, rfl⟩ | ⟨-, -, w₁, closed, -, rfl⟩⟩ := takeRow_taken h
  · rfl
  · change w₁.intake = w.intake
    exact closeGroup_keeps closed

/-- What a turn from a state comes to is reached by small steps that take these outcomes in. A turn
that needs more input has nothing left at hand. -/
def Reaches (w : Working) (us : List Outcome) : Turn × Working → Prop
  | (.emit o, w') => ∃ es, Steps w us es [o] w'
  | (.pull, w') => (∃ es, Steps w us es [] w') ∧ w'.intake = .awaiting
  | (.fail _, _) => True

theorem Steps.reaches {w₁ : Working} {us us' : List Outcome} {es : List Event}
    {t : Turn × Working} (first : Steps w us es [] w₁) (then' : w₁.Reaches us' t) :
    w.Reaches (us ++ us') t := by
  obtain ⟨_ | _ | _, w'⟩ := t
  · obtain ⟨es', steps⟩ := then'
    exact ⟨_, first.trans steps⟩
  · trivial
  · obtain ⟨⟨es', steps⟩, awaiting⟩ := then'
    exact ⟨⟨_, first.trans steps⟩, awaiting⟩

theorem reaches_flush {wrap : Batch → Outcome}
    (step : ∀ o w', w.flush wrap = (.emit o, w') → ∃ es, Steps w₀ us es [o] w') :
    Reaches w₀ us (w.flush wrap) := by
  cases turn : w.flush wrap with
  | mk t w' =>
    cases t with
    | emit o => exact step o w' turn
    | fail => trivial
    | pull => exact absurd turn flush_ne_pull

/-- Rows are taken in one by one, until one finds the buffer full. -/
theorem read_steps (closes : Bool) (rows : List (Except Fault Row)) (w : Working) :
    match read rows w with
    | (.taken, w') => w'.intake = w.intake ∧
        Steps { w with intake := .reading rows closes } [] (rows.map .row) []
          { w' with intake := .reading [] closes }
    | (.full rest, w') => w'.isBlocked = true ∧ ∃ es,
        Steps { w with intake := .reading rows closes } [] es []
          { w' with intake := .reading rest closes }
    | (.fault _, _) => True := by
  induction rows generalizing w with
  | nil => exact ⟨rfl, .refl _⟩
  | cons r rest ih =>
    cases r with
    | error e => simp [read]
    | ok row =>
      rw [read]
      rcases taken : w.takeRow row with ⟨_ | ⟨_ | _⟩, w₁⟩
      · trivial
      · obtain ⟨rfl, blocked⟩ := takeRow_full taken
        exact ⟨blocked, [], .refl _⟩
      · have step : Step { w with intake := .reading (.ok row :: rest) closes } []
            [.row (.ok row)] [] { w₁ with intake := .reading rest closes } :=
          @Step.take { w₁ with intake := .reading (.ok row :: rest) closes } _ _ _ _ rfl
            (by rw [takeRow_intake, taken])
        have := ih w₁
        simp only
        split <;> rename_i others
        · rw [others] at this
          obtain ⟨kept, steps⟩ := this
          exact ⟨kept.trans (takeRow_keeps taken), by simpa using step.steps.trans steps⟩
        · rw [others] at this
          obtain ⟨blocked, es, steps⟩ := this
          exact ⟨blocked, _, step.steps.trans steps⟩
        · trivial

theorem openDefault_openDefault (w : Working) : w.openDefault.openDefault = w.openDefault := by
  simp only [openDefault]
  split
  · rfl
  · simp

theorem openDefault_keeps (w : Working) : w.openDefault.intake = w.intake := by
  simp only [openDefault]
  split <;> rfl

theorem closeGroup_of_closed (closed : w.openKey = none) : w.closeGroup = (.ok (), w) := by
  simp only [closeGroup, closed]

theorem isFull_of_blocked (blocked : w.isBlocked = true) : w.isFull = true := by
  simp only [isBlocked, Bool.and_eq_true] at blocked
  exact blocked.2

theorem endGroup_reaches (awaiting : w.intake = .awaiting) :
    Reaches { w with intake := .reading [] true } [] w.endGroup := by
  have default : Step { w with intake := .reading [] true } [] [] []
      { w.openDefault with intake := .reading [] true } := by
    have step : Step { w with intake := .reading [] true } [] [] [] _ := .openDefault (.inl rfl)
    rwa [openDefault_intake] at step
  refine Steps.reaches default.steps ?_
  unfold endGroup
  simp only
  split
  next blocked =>
    apply reaches_flush
    intro o w' flushed
    exact ⟨[], Step.steps (.spill (isFull_of_blocked blocked) flushed)⟩
  next room =>
    unfold closing
    rcases closed : w.openDefault.closeGroup with ⟨_ | _, w₁⟩
    · trivial
    · have kept : w₁.intake = .awaiting := by
        rw [closeGroup_keeps closed, openDefault_keeps, awaiting]
      apply reaches_flush
      intro o w' flushed
      refine ⟨_, Step.steps (@Step.bound _ { w₁ with intake := .reading [] true } _ _ rfl ?_
        (Bool.eq_false_iff.mpr room) ?_ (kept ▸ flushed))⟩
      · rw [openDefault_intake, openDefault_openDefault]
      · rw [closeGroup_intake, closed]

theorem readOn_reaches (rows : List (Except Fault Row)) (closes : Bool) (w : Working) :
    Reaches { w with intake := .reading rows closes } [] (readOn rows closes w) := by
  have steps := read_steps closes rows { w with intake := .awaiting }
  unfold readOn
  rcases result : read rows { w with intake := .awaiting } with ⟨_ | rest | e, w₁⟩
  · rw [result] at steps
    obtain ⟨kept, steps⟩ := steps
    replace kept : w₁.intake = .awaiting := kept
    refine steps.reaches ?_
    cases closes with
    | false =>
      have drain : Step { w₁ with intake := .reading [] false } [] [] []
          { w₁ with intake := .awaiting } := .drain rfl
      rw [with_intake kept] at drain
      exact ⟨⟨_, drain.steps⟩, kept⟩
    | true => exact endGroup_reaches kept
  · rw [result] at steps
    obtain ⟨blocked, es, steps⟩ := steps
    refine steps.reaches (reaches_flush fun o w' flushed => ?_)
    exact ⟨[], Step.steps (.spill (isFull_of_blocked blocked) flushed)⟩
  · trivial

theorem lastDefault_steps (ended : w.intake = .ended) :
    Steps w [] [] [] w.lastDefault ∧ w.lastDefault.intake = .ended := by
  unfold lastDefault
  split
  · exact ⟨.refl w, ended⟩
  next unbounded =>
    exact ⟨Step.steps (.openDefault (.inr ⟨ended, Bool.eq_false_iff.mpr unbounded⟩)),
      (openDefault_keeps w).trans ended⟩

theorem lastDefault_lastDefault (w : Working) : w.lastDefault.lastDefault = w.lastDefault := by
  simp only [lastDefault]
  split
  · rfl
  · rw [openDefault_openDefault, ite_self]

theorem finish_reaches (ended : w.intake = .ended) : Reaches w [] w.finish := by
  obtain ⟨default, still⟩ := lastDefault_steps ended
  refine default.reaches ?_
  change Reaches w.lastDefault []
    (if w.lastDefault.isBlocked then flush .data w.lastDefault else w.lastDefault.closing _)
  split
  next blocked =>
    apply reaches_flush
    intro o w' flushed
    exact ⟨[], Step.steps (.spill (isFull_of_blocked blocked) flushed)⟩
  next room =>
    unfold closing
    rcases closed : w.lastDefault.closeGroup with ⟨_ | _, w₁⟩
    · trivial
    · have close : Step w.lastDefault [] [] [] w₁ :=
        .close (d := ⟨.data, .empty .empty⟩) (.inr still) (Bool.eq_false_iff.mpr room) closed
      have there := (closeGroup_keeps closed).trans still
      obtain ⟨memory, shape⟩ := closeGroup_ok closed
      have noKey : w₁.openKey = none := by rw [shape]
      refine close.steps.reaches ?_
      simp only
      split
      next none =>
        have empty : w₁.rows = [] := List.isEmpty_iff.mp none
        -- No row was added, so no group was open.
        have unopened : w.lastDefault.openKey = Option.none := by
          rw [shape] at empty
          simpa [GroupFold.openRow] using (List.append_eq_nil_iff.mp empty).2
        obtain rfl : w.lastDefault = w₁ := by
          rw [closeGroup_of_closed unopened] at closed
          exact (Prod.mk.inj closed).2
        exact ⟨_, Step.steps (.finish there (lastDefault_lastDefault w) noKey empty)⟩
      next some =>
        apply reaches_flush
        intro o w' flushed
        exact ⟨[], Step.steps (.flushRest (d := ⟨.data, .empty .empty⟩) (.inr there) noKey
          (by simpa using some) flushed)⟩

theorem known_iff (w : Working) (s : Schema) :
    (w.inputSchema.map s.sameShape).getD false = !s.isFresh w.shape := by
  unfold Schema.isFresh shape Schema.sameShape
  cases w.inputSchema with
  | none => simp
  | some t => by_cases same : s.shape = t.shape <;> simp [same, eq_comm]

theorem layOut_reaches (waiting : w.mustWait d) (closed : w.openKey = none) (none : w.rows = [])
    (i : Intake) : Reaches w [] (layOut d { w with intake := i }) := by
  unfold layOut
  rcases laid : w.fold.setUp d.batch.schema with _ | ⟨fold, output⟩
  · trivial
  · simp only
    exact ⟨_, Step.steps (.layOut waiting closed none laid)⟩

/-- What was built before another shape is handed on while its batch waits. -/
theorem rest_reaches (waiting : w.mustWait d) (some : w.openKey.isSome ∨ w.rows ≠ []) :
    Reaches w [] (if w.isFull then flush .data w else w.closing (flush .data)) := by
  split
  next full =>
    apply reaches_flush
    intro o w' flushed
    exact ⟨[], Step.steps (.spill full flushed)⟩
  next room =>
    unfold closing
    rcases closed : w.closeGroup with ⟨_ | _, w₁⟩
    · trivial
    · have unblocked : w.isBlocked = false := by
        rw [isBlocked, Bool.eq_false_iff.mpr room, Bool.and_false]
      have close : Step w [] [] [] w₁ := .close (.inl waiting) unblocked closed
      obtain ⟨memory, shape⟩ := closeGroup_ok closed
      have still : w₁.mustWait d := by
        rw [shape]
        exact waiting
      have kept : w₁.rows ≠ [] := by
        intro none
        rw [shape] at none
        simp only [GroupFold.openRow, List.append_eq_nil_iff, List.map_eq_nil_iff] at none
        simp_all
      refine close.steps.reaches (reaches_flush fun o w' flushed => ?_)
      exact ⟨[], Step.steps (.flushRest (.inl still) (by rw [shape]) kept flushed)⟩

/-- A batch is taken in from where it was put back, or as it comes. -/
theorem accept_reaches (d : Delivery) (awaiting : w.intake = .awaiting) :
    Reaches { w with intake := .holding d } [] (accept d w) := by
  unfold accept
  simp only
  split
  · trivial
  · rw [known_iff]
    split
    next known =>
      have known : d.batch.schema.isFresh w.shape = false := by simpa using known
      have start (kind : d.kind ≠ .newSchema) :
          Step { w with intake := .holding d } [] [] []
            { w with intake := .reading d.batch.readings (d.kind = .endOfGroup) } :=
        .startReading rfl kind known
      rcases d with ⟨_ | _ | _, b⟩
      · simp only
        split
        · trivial
        next output laid =>
          have announce : Step { w with intake := .holding ⟨.newSchema, b⟩ } []
              [.announce false b.schema] [.newSchema (.empty output)]
              { w with intake := .reading b.readings false } :=
            .announce (d := ⟨.newSchema, b⟩) rfl rfl known laid
          exact ⟨_, announce.steps⟩
      · exact (start (by simp)).steps.reaches (readOn_reaches b.readings false w)
      · exact (start (by simp)).steps.reaches (readOn_reaches b.readings true w)
    next fresh =>
      have waiting : mustWait { w with intake := .holding d } d :=
        ⟨rfl, by change d.batch.schema.isFresh w.shape = true; simpa using fresh⟩
      split
      next some => exact rest_reaches waiting (by simpa using some)
      next none =>
        simp only [Bool.or_eq_true, not_or, Bool.not_eq_true, Bool.not_eq_false',
          List.isEmpty_iff, Option.isSome_eq_false_iff, Option.isNone_iff_eq_none] at none
        have turn := layOut_reaches waiting none.1 none.2 .awaiting
        rwa [show { ({ w with intake := .holding d } : Working) with intake := .awaiting } = w from
          with_intake awaiting] at turn

theorem poll_reaches (w : Working) : Reaches w [] w.poll := by
  unfold poll
  split
  next awaiting => exact ⟨⟨_, .refl w⟩, awaiting⟩
  next rows closes reading =>
    have turn := readOn_reaches rows closes w
    rwa [with_intake reading] at turn
  next d holding =>
    have turn := accept_reaches (w := { w with intake := .awaiting }) d rfl
    rwa [show { ({ w with intake := .awaiting } : Working) with intake := .holding d } = w from
      with_intake holding] at turn
  next ended => exact finish_reaches ended

theorem receive_reaches (u : Outcome) (running : w.phase = .running)
    (awaiting : w.intake = .awaiting) : Reaches w [u] (receive u w) := by
  have held (d : Delivery) : Reaches w [d.outcome] (accept d w) :=
    (Step.steps (.hold running awaiting d)).reaches (accept_reaches d awaiting)
  cases u with
  | newSchema b => exact held ⟨.newSchema, b⟩
  | data b => exact held ⟨.data, b⟩
  | endOfGroup b => exact held ⟨.endOfGroup, b⟩
  | notYet => exact ⟨_, Step.steps (.wait running awaiting)⟩
  | endOfStream =>
    exact (Step.steps (.endInput running awaiting)).reaches (finish_reaches rfl)

/-! Small steps leave the cap alone, and the phase until the end is handed on. -/

variable {ds : List Outcome} {es : List Event}

theorem closeGroup_fixed (h : w.closeGroup = (.ok (), w')) :
    w'.rowCap = w.rowCap ∧ w'.phase = w.phase ∧ w'.inputSchema = w.inputSchema ∧
      w'.outputSchema = w.outputSchema := by
  obtain ⟨-, rfl⟩ := closeGroup_ok h
  exact ⟨rfl, rfl, rfl, rfl⟩

theorem takeRow_fixed (h : w.takeRow row = (.ok true, w')) :
    w'.rowCap = w.rowCap ∧ w'.phase = w.phase ∧ w'.inputSchema = w.inputSchema ∧
      w'.outputSchema = w.outputSchema := by
  obtain ⟨-, -, -, ⟨-, -, -, -, rfl⟩ | ⟨-, -, w₁, closed, -, rfl⟩⟩ := takeRow_taken h
  · exact ⟨rfl, rfl, rfl, rfl⟩
  · exact @closeGroup_fixed w w₁ closed

theorem flush_fixed {wrap : Batch → Outcome} (h : w.flush wrap = (.emit o, w')) :
    w'.rowCap = w.rowCap ∧ w'.phase = w.phase ∧ w'.inputSchema = w.inputSchema ∧
      w'.outputSchema = w.outputSchema := by
  obtain ⟨-, -, -, -, -, rfl⟩ := flush_emit h
  exact ⟨rfl, rfl, rfl, rfl⟩

theorem openDefault_fixed (w : Working) :
    w.openDefault.rowCap = w.rowCap ∧ w.openDefault.phase = w.phase ∧
      w.openDefault.inputSchema = w.inputSchema ∧
      w.openDefault.outputSchema = w.outputSchema := by
  simp only [openDefault]
  split <;> exact ⟨rfl, rfl, rfl, rfl⟩

theorem Step.rowCap_eq (step : Step w us es ds w') : w'.rowCap = w.rowCap := by
  cases step with
  | take _ taken => exact (takeRow_fixed taken).1
  | spill _ flushed | flushRest _ _ _ flushed => exact (flush_fixed flushed).1
  | openDefault => exact (openDefault_fixed w).1
  | bound _ _ _ closed flushed => exact (flush_fixed flushed).1.trans (closeGroup_fixed closed).1
  | close _ _ closed => exact (closeGroup_fixed closed).1
  | _ => rfl

theorem Step.phase_kept (step : Step w us es ds w') (more : .endOfStream ∉ ds) :
    w'.phase = w.phase := by
  cases step with
  | take _ taken => exact (takeRow_fixed taken).2.1
  | spill _ flushed | flushRest _ _ _ flushed => exact (flush_fixed flushed).2.1
  | openDefault => exact (openDefault_fixed w).2.1
  | bound _ _ _ closed flushed =>
    exact (flush_fixed flushed).2.1.trans (closeGroup_fixed closed).2.1
  | close _ _ closed => exact (closeGroup_fixed closed).2.1
  | finish => simp at more
  | _ => rfl

theorem Step.phase_finished (step : Step w us es ds w') (ended : .endOfStream ∈ ds) :
    w'.phase = .finished := by
  cases step with
  | spill _ flushed | flushRest _ _ _ flushed | bound _ _ _ _ flushed =>
    obtain ⟨_, _, _, _, rfl, _⟩ := flush_emit flushed
    simp at ended
  | finish => rfl
  | _ => simp at ended

theorem Steps.phase_finished (steps : Steps w us es ds w') (ended : .endOfStream ∈ ds) :
    w'.phase = .finished := by
  induction steps with
  | refl => simp at ended
  | @snoc _ _ _ _ _ _ ds' _ _ step ih =>
    by_cases now : .endOfStream ∈ ds'
    · exact step.phase_finished now
    · have before := (List.mem_append.mp ended).resolve_right now
      exact (step.phase_kept now).trans (ih before)

theorem Steps.rowCap_eq (steps : Steps w us es ds w') : w'.rowCap = w.rowCap := by
  induction steps with
  | refl => rfl
  | snoc _ step ih => rw [step.rowCap_eq, ih]

theorem Steps.phase_running (steps : Steps w us es ds w') (running : w.phase = .running)
    (more : .endOfStream ∉ ds) : w'.phase = .running := by
  induction steps with
  | refl => exact running
  | snoc _ step ih =>
    rw [List.mem_append, not_or] at more
    exact (step.phase_kept more.2).trans (ih more.1)

end BatchFlow.Working

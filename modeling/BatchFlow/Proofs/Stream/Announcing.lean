import BatchFlow.Proofs.Stream.AnyChild

/-!
Every batch has the shape that was announced last. An operator never shows another schema than the
one of its last announcement, whatever its child gives and whether that child keeps to the rule
itself.
-/
namespace BatchFlow

/-- Whether an outcome may come after a schema was announced, and leaves another one announced: an
announcement may always come, a batch only under its own schema. -/
def Outcome.Announces (o : Outcome) (known known' : Option Schema) : Prop :=
  match o with
  | newSchema b => known' = some b.schema
  | data b | endOfGroup b => known = some b.schema ∧ known' = known
  | notYet | endOfStream => known' = known

def Comes (known known' : Option Schema) : Except Fault Outcome × Option Schema → Prop
  | (.ok o, shown) => o.Announces known known' ∧ (o.batch?.isSome = true → shown = known')
  | (.error _, _) => known' = known

/-- Results, each with the schema shown after it, that may come one after another. -/
def Announced : Option Schema → List (Except Fault Outcome × Option Schema) → Prop
  | _, [] => True
  | known, r :: rest => ∃ known', Comes known known' r ∧ Announced known' rest

def Announcing : List Outcome → Option Schema → Option Schema → Prop
  | [], known, known' => known' = known
  | o :: os, known, known' => ∃ s, o.Announces known s ∧ Announcing os s known'

theorem announcing_append {os os' : List Outcome} {known known' : Option Schema} :
    Announcing (os ++ os') known known' ↔
      ∃ s, Announcing os known s ∧ Announcing os' s known' := by
  induction os generalizing known with
  | nil => simp [Announcing]
  | cons o os ih =>
    simp only [List.cons_append, Announcing, ih]
    constructor
    · rintro ⟨s, first, t, here, later⟩
      exact ⟨t, ⟨s, first, here⟩, later⟩
    · rintro ⟨t, ⟨s, first, here⟩, later⟩
      exact ⟨s, first, t, here, later⟩

theorem announcing_singleton {o : Outcome} {known known' : Option Schema} :
    Announcing [o] known known' ↔ o.Announces known known' := by
  simp [Announcing]

theorem Batch.schema_ofRows {s : Schema} {rows : List Row} {b : Batch}
    (built : Batch.ofRows s rows = .ok b) : b.schema = s := by
  obtain ⟨builder, -, rfl, builds⟩ := Batch.ofRows_builder built
  obtain ⟨columns, -, made⟩ := bind_eq_ok.mp builds
  exact (Batch.ofColumns_ok made).1

namespace Working

variable {w w' : Working} {us ds : List Outcome} {es : List Event} {o : Outcome}

/-- A batch of rows kept is of the schema announced. -/
theorem flush_announces {wrap : Batch → Outcome} (wraps : wrap = .data ∨ wrap = .endOfGroup)
    (flushed : w.flush wrap = (.emit o, w')) : o.Announces w.outputSchema w'.outputSchema := by
  obtain ⟨output, b, laid, built, rfl, rfl⟩ := flush_emit flushed
  have known : w.outputSchema = some b.schema := by rw [laid, Batch.schema_ofRows built]
  rcases wraps with rfl | rfl <;> exact ⟨known, rfl⟩

theorem Step.announcing (step : Step w us es ds w') :
    Announcing ds w.outputSchema w'.outputSchema := by
  cases step with
  | take _ taken => exact (takeRow_fixed taken).2.2.2
  | spill _ flushed | flushRest _ _ _ flushed =>
    exact announcing_singleton.mpr (flush_announces (.inl rfl) flushed)
  | bound _ _ _ closed flushed =>
    rw [← (closeGroup_fixed closed).2.2.2]
    have comes := flush_announces (.inr rfl) flushed
    exact announcing_singleton.mpr comes
  | openDefault => exact (openDefault_fixed w).2.2.2
  | close _ _ closed => exact (closeGroup_fixed closed).2.2.2
  | announce _ _ _ laid => exact announcing_singleton.mpr laid
  | layOut => exact announcing_singleton.mpr rfl
  | wait | finish => exact announcing_singleton.mpr rfl
  | _ => rfl

theorem Steps.announcing (steps : Steps w us es ds w') :
    Announcing ds w.outputSchema w'.outputSchema := by
  induction steps with
  | refl => rfl
  | snoc _ step ih => exact announcing_append.mpr ⟨_, ih, step.announcing⟩

end Working

namespace Aggregation

variable {σ : Type} {a : Aggregation} {known : Option Schema}

/-- The schema announced last is the one shown, as long as batches may still come. -/
def Shows (a : Aggregation) (known : Option Schema) : Prop :=
  a.phase = .running → a.outputSchema = known

/-- What a turn over any child comes to, with the schema shown after it, may come. -/
theorem Shows.advance_shows (shows : a.Shows known) (next : Child σ) (patience : Nat) (s : σ)
    (memory : Budget) :
    ∃ known', Comes known known'
        ((a.advance next patience s memory).1,
          (a.advance next patience s memory).2.1.outputSchema) ∧
      (a.advance next patience s memory).2.1.Shows known' := by
  by_cases running : a.phase = .running
  · have heard := advance_heard next patience s memory running
    rcases result : (a.advance next patience s memory).1 with e | o
    · refine ⟨known, rfl, fun still => ?_⟩
      cases (heard.phase_failed result).symm.trans still
    · obtain ⟨us, es, ds, -, steps, handed⟩ := heard.yields o result
      have comes := steps.announcing
      rw [shows running] at comes
      refine ⟨(a.advance next patience s memory).2.1.outputSchema, ⟨?_, fun _ => rfl⟩,
        fun _ => rfl⟩
      -- A turn that has asked in vain hands nothing on, and comes to a wait.
      rcases handed with rfl | ⟨rfl, rfl⟩
      · exact announcing_singleton.mp comes
      · exact comes
  · obtain ⟨-, same⟩ := advance_over next patience s memory running
    refine ⟨known, ?_, fun still => ?_⟩
    · unfold Aggregation.advance
      cases phase : a.phase with
      | running => exact absurd phase running
      | finished => exact ⟨rfl, by simp [Outcome.batch?]⟩
      | failed | closed => rfl
    · rw [same] at still
      exact absurd still running

/-- What an aggregation gives over a child, each result with the schema shown after it. In every
turn the child may be another function of its state, since the cursor may be moved in between, and
the budget another one, since it may be charged. -/
def given : List (Child σ × Nat × Budget) → Aggregation → σ →
    List (Except Fault Outcome × Option Schema)
  | [], _, _ => []
  | (next, patience, memory) :: rest, a, s =>
    ((a.advance next patience s memory).1, (a.advance next patience s memory).2.1.outputSchema) ::
      given rest (a.advance next patience s memory).2.1.toAggregation
        (a.advance next patience s memory).2.2

theorem Shows.given_announced (shows : a.Shows known) (turns : List (Child σ × Nat × Budget)) (s : σ) :
    Announced known (a.given turns s) := by
  induction turns generalizing a known s with
  | nil => trivial
  | cons turn rest ih =>
    obtain ⟨next, patience, memory⟩ := turn
    obtain ⟨known', comes, shows⟩ := shows.advance_shows next patience s memory
    exact ⟨known', comes, ih shows _⟩

theorem shows_ofFold {fold : GroupFold} {fraction : Binary .single} {settings : Settings}
    (built : ofFold fold fraction settings = .ok a) : a.Shows none := by
  obtain ⟨-, -, made⟩ := bind_eq_ok.mp built
  obtain rfl := Except.ok.inj made
  exact fun _ => rfl

end Aggregation

end BatchFlow

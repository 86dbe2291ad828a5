import BatchFlow.Proofs.Batch.RecordCount
import BatchFlow.Proofs.Stream.Announcing
import BatchFlow.Proofs.Stream.Flushing
import BatchFlow.Proofs.Stream.Histories

/-!
The batches of a chain of operators have the shape announced last, whether the chain stands on an
unnest or on a script, which may break the rule itself. The unnest fills batches of the schema that
it announced, also where it binds an outer batch of the same shape without a word.
-/
namespace BatchFlow

namespace Schema

/-- Schemas whose fields all allow NULL are told apart by their shape. -/
theorem eq_of_sameShape {s t : Schema} (same : s.sameShape t = true)
    (left : ∀ f ∈ s.fields, f.nullable = true) (right : ∀ f ∈ t.fields, f.nullable = true) :
    s = t := by
  obtain ⟨fs⟩ := s
  obtain ⟨gs⟩ := t
  have shapes : fs.map (fun f => (f.name, f.dataType)) = gs.map fun f => (f.name, f.dataType) :=
    of_decide_eq_true same
  congr 1
  clear same
  induction fs generalizing gs with
  | nil => exact (List.map_eq_nil_iff.mp shapes.symm).symm
  | cons f fs ih =>
    cases gs with
    | nil => cases shapes
    | cons g gs =>
      obtain ⟨first, others⟩ := List.cons.inj shapes
      obtain ⟨name, type⟩ := Prod.mk.inj first
      rw [List.forall_mem_cons] at left right
      have nullable : f.nullable = g.nullable := left.1.trans right.1.symm
      rw [show f = g from by cases f; cases g; simp_all, ih left.2 gs right.2 others]

end Schema

namespace Expansion

variable {x x' : Expansion} {out out' : Batch} {row requested count : Nat}

theorem schema_expand (turn : x.expand row requested out = (.ok count, x', out')) :
    out'.schema = out.schema := by
  have called := x.expand_called row requested out
  rw [turn] at called
  cases called
  rfl

end Expansion

namespace Unnest

variable {u u' : Unnest} {f : Fragment} {outer : Batch} {o : Outcome}

/-- The batch that is filled is of the schema announced, in which every field allows NULL. -/
structure Laid (u : Unnest) : Prop where
  output : ∀ b ∈ u.output, u.outputSchema = some b.schema
  nullable : ∀ s ∈ u.outputSchema, ∀ f ∈ s.fields, f.nullable = true

theorem laid_ofSpec {c : UnnestSpec} (built : ofSpec c = .ok u) :
    u.Laid ∧ u.outputSchema = none := by
  obtain ⟨-, -, made⟩ := bind_eq_ok.mp built
  obtain rfl := Except.ok.inj made
  exact ⟨⟨nofun, nofun⟩, rfl⟩

theorem Laid.expand_laid (laid : u.Laid) (turn : u.expand f outer = .ok (o, u')) :
    o.Announces u.outputSchema u'.outputSchema ∧ u'.Laid := by
  unfold Unnest.expand at turn
  split at turn
  · cases turn
  next out there =>
    have known := laid.output out there
    split at turn
    · obtain ⟨rfl, rfl⟩ := Prod.mk.inj (Except.ok.inj turn)
      refine ⟨⟨known, rfl⟩, fun b same => ?_, laid.nullable⟩
      obtain rfl := Option.some.inj same
      exact known
    · split at turn
      · cases turn
      next expanded =>
        have schema := Expansion.schema_expand expanded
        obtain ⟨rfl, rfl⟩ := Prod.mk.inj (Except.ok.inj turn)
        rw [← schema] at known
        refine ⟨?_, fun b same => ?_, laid.nullable⟩
        · split <;> exact ⟨known, rfl⟩
        · obtain rfl := Option.some.inj same
          exact known

/-- What is bound is announced, or of the schema announced before. -/
theorem Laid.bind_laid (laid : u.Laid) {announced : Option Schema}
    (bound : u.bind outer = .ok (u', announced)) :
    u'.Laid ∧ u'.outputSchema = announced.or u.outputSchema := by
  obtain ⟨v, -, rfl, said⟩ := bind_binds bound
  have nullable : ∀ f ∈ [Expansion.madeField v], f.nullable = true := by
    simp [Expansion.madeField]
  refine ⟨⟨fun b there => ?_, fun s known => ?_⟩, rfl⟩
  · obtain rfl := Option.some.inj there
    rcases said with rfl | ⟨rfl, s, known, same⟩
    · rfl
    · have equal := Schema.eq_of_sameShape same nullable (laid.nullable s known)
      exact known.trans (congrArg some equal.symm)
  · rcases said with rfl | ⟨rfl, -⟩
    · obtain rfl := Option.some.inj known
      exact nullable
    · exact laid.nullable s known

theorem Laid.next_laid (laid : u.Laid) (turn : u.next f = .ok (o, u')) :
    o.Announces u.outputSchema u'.outputSchema ∧ u'.Laid := by
  unfold Unnest.next at turn
  split at turn
  · obtain ⟨rfl, rfl⟩ := Prod.mk.inj (Except.ok.inj turn)
    exact ⟨rfl, nofun, laid.nullable⟩
  · split at turn
    · exact laid.expand_laid turn
    · obtain ⟨⟨v, announced⟩, bound, turn⟩ := bind_eq_ok.mp turn
      have begun : Laid { u with generation := some f.cursor.generation } :=
        ⟨laid.output, laid.nullable⟩
      obtain ⟨laid, shown⟩ := begun.bind_laid bound
      cases announced with
      | none =>
        have turned := laid.expand_laid turn
        rwa [shown] at turned
      | some schema =>
        obtain ⟨rfl, rfl⟩ := Prod.mk.inj (Except.ok.inj turn)
        exact ⟨shown, laid⟩

end Unnest

namespace Operator

variable {depth : Nat} {op : Operator depth} {known : Option Schema} {f : Fragment}

/-- The schema announced last is the one shown, as long as batches may still come. A script may
show anything. -/
def Shows : {depth : Nat} → Operator depth → Option Schema → Prop
  | 0, replay _, _ => False
  | 0, unnest u, known => u.phase = .running → u.outputSchema = known ∧ u.Laid
  | _ + 1, aggregate a _, known => a.Shows known

/-- What an operator comes to when it is served: a result with the schema shown after it, or
nothing when it is closed. -/
def shown : List Request → Operator depth → List (Except Fault Outcome × Option Schema)
  | [], _ => []
  | .advance f :: rest, op =>
    (op.result f, (op.serve (.advance f)).schema) :: shown rest (op.serve (.advance f))
  | .close memory :: rest, op => shown rest (op.serve (.close memory))

theorem Shows.serve_advance (shows : op.Shows known) (f : Fragment) :
    ∃ known', Comes known known' (op.result f, (op.serve (.advance f)).schema) ∧
      (op.serve (.advance f)).Shows known' := by
  cases op with
  | replay r => cases shows
  | aggregate a child => exact Aggregation.Shows.advance_shows shows _ _ _ _
  | unnest u =>
    by_cases running : u.phase = .running
    · obtain ⟨known, laid⟩ := shows running
      simp only [result, serve, advance, Unnest.advance, running]
      rcases turn : u.next f with e | ⟨o, u'⟩
      · refine ⟨_, rfl, fun still => ?_⟩
        cases still
      · obtain ⟨comes, laid⟩ := laid.next_laid turn
        rw [known] at comes
        exact ⟨u'.outputSchema, ⟨comes, fun _ => rfl⟩, fun _ => ⟨rfl, laid.output, laid.nullable⟩⟩
    · refine ⟨known, ?_, ?_⟩
      · cases phase : u.phase with
        | running => exact absurd phase running
        | finished =>
          rw [(gives_of_finished (unnest u) (congrArg some phase) f).result]
          exact ⟨rfl, by simp [Outcome.batch?]⟩
        | failed | closed =>
          obtain ⟨e, -, refused⟩ :=
            refuses_of_over (unnest u) (by simp [Operator.phase, phase]) f
          rw [refused.result]
          rfl
      · rwa [(over_stays (unnest u) rfl running f).1]

theorem Shows.serve_close (shows : op.Shows known) (memory : Budget) :
    (op.serve (.close memory)).Shows known := by
  cases op with
  | replay r => cases shows
  | unnest u =>
    intro running
    cases running
  | aggregate a child =>
    have closed := close_phase (aggregate a child) rfl memory
    rcases after : (aggregate a child).serve (.close memory) with _ | _ | ⟨b, _⟩
    rw [after] at closed
    intro running
    cases (Option.some.inj closed).symm.trans running

theorem Shows.shown_announced (shows : op.Shows known) (requests : List Request) :
    Announced known (op.shown requests) := by
  induction requests generalizing op known with
  | nil => trivial
  | cons r rest ih =>
    cases r with
    | advance f =>
      obtain ⟨known', comes, shows⟩ := shows.serve_advance f
      exact ⟨known', comes, ih shows⟩
    | close memory => exact ih (shows.serve_close memory)

theorem shows_build {p : Plan} {settings : Settings} {op : Operator p.depth}
    (built : p.build settings = .ok op) (phased : op.phase.isSome = true) : op.Shows none := by
  cases p with
  | replay steps failure =>
    obtain rfl := Except.ok.inj built
    cases phased
  | unnest spec =>
    obtain ⟨u, made, rfl⟩ := map_eq_ok.mp built
    obtain ⟨laid, shown⟩ := Unnest.laid_ofSpec made
    exact fun _ => ⟨shown, laid⟩
  | aggregate child spec direct =>
    obtain ⟨a, child, rfl, -, fresh, -⟩ := Plan.build_aggregate built
    exact fun _ => fresh.output

end Operator

/-- Every batch has the shape announced last. What an aggregation gives over any child at all, and
what an unnest or a chain of aggregations gives, whatever is asked of it and wherever the cursor
stands, begins with an announcement before the first batch; every batch after it is of the schema
announced last, and that is the schema shown. -/
theorem batches_announced :
    (∀ (σ : Type) (c : AggregateSpec) (settings : Settings) (a : Aggregation),
      Aggregation.ofSpec c settings = .ok a →
      ∀ (turns : List (Child σ × Nat × Budget)) (s : σ), Announced none (a.given turns s)) ∧
    ∀ (p : Plan) (settings : Settings) (op : Operator p.depth), p.build settings = .ok op →
      op.phase.isSome = true → ∀ requests, Announced none (op.shown requests) := by
  refine ⟨fun σ c settings a made turns s => ?_, fun p settings op built phased requests => ?_⟩
  · obtain ⟨-, -, made⟩ := bind_eq_ok.mp made
    exact (Aggregation.shows_ofFold made).given_announced turns s
  · exact (Operator.shows_build built phased).shown_announced requests

/-- A child that announces nothing, neither at first nor where its shape changes, and one that
goes on so for ever. -/
theorem batches_announced_sample :
    let requests := List.replicate 8 (Request.advance ⟨.trial, .ofLimit 4096, .start⟩)
    let restless : Child Nat := fun n memory =>
      (.ok (sampleShapes[n % 4]?.getD .notYet), n + 1, memory)
    (∃ a, Aggregation.ofSpec sampleMaxima .trial = .ok a ∧
      Announced none (a.given (List.replicate 9 (restless, 3, .ofLimit 4096)) 0)) ∧
    ∃ op : Operator 1,
      (Plan.aggregate (.replay sampleShapes none) sampleMaxima false).build .trial = .ok op ∧
      (op.shown requests).map (fun r => resultText r.1) = ["NEW_SCHEMA", "NO_DATA_YET", "HAS_DATA",
        "NEW_SCHEMA", "NO_DATA_YET", "HAS_DATA", "END_OF_STREAM", "END_OF_STREAM"] ∧
      Announced none (op.shown requests) := by
  intro requests restless
  refine ⟨⟨_, rfl, batches_announced.1 Nat sampleMaxima .trial _ rfl _ 0⟩, ?_⟩
  have kinds : ((Plan.aggregate (.replay sampleShapes none) sampleMaxima false).build
      .trial).toOption.any (fun op : Operator 1 =>
        (op.shown requests).map (fun r => resultText r.1) = ["NEW_SCHEMA", "NO_DATA_YET",
          "HAS_DATA", "NEW_SCHEMA", "NO_DATA_YET", "HAS_DATA", "END_OF_STREAM",
          "END_OF_STREAM"]) = true := by decide +kernel
  obtain ⟨op, built, kinds⟩ := exists_ok_of_any kinds
  have phased : op.phase.isSome = true := by
    obtain ⟨a, child, rfl, -⟩ := Plan.build_aggregate built
    rfl
  exact ⟨op, built, of_decide_eq_true kinds,
    batches_announced.2 (.aggregate (.replay sampleShapes none) sampleMaxima false) .trial op built
      phased requests⟩

end BatchFlow

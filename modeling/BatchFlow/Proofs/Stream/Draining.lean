import BatchFlow.Proofs.Stream.Flushing
import BatchFlow.Proofs.Stream.Histories
import BatchFlow.Proofs.Stream.Pressure

/-!
How many turns an aggregation of a script takes to its end. Every data outcome takes a row away that
came in, but for one that an input without rows yields; every other outcome answers one of the
script, with two answers for one outcome at most. No turn asks the script more often than it has
outcomes left, and once more.
-/
namespace BatchFlow

namespace Outcome

def isData : Outcome → Bool
  | data _ => true
  | _ => false

theorem length_eq (os : List Outcome) :
    os.length = os.countP isData + (os.filterMap signal?).length := by
  induction os with
  | nil => rfl
  | cons o os ih =>
    cases o <;>
      simp only [List.length_cons, List.countP_cons, List.filterMap_cons, isData, signal?, ih] <;>
      simp <;> omega

end Outcome

def Intake.closing : Intake → Bool
  | .reading rows closes => rows.isEmpty && closes
  | _ => false

namespace Aggregation

/-- The rows that may still be handed on as data. The group with which a batch ends is handed on
with the end of the group, and an input without rows and boundaries yields one row at its end. -/
def dataLeft (a : Aggregation) : Nat :=
  a.rows.length + a.intake.pending + (if a.intake.closing then 0 else a.openKey.toList.length) +
    (!a.boundarySeen && !a.groupEmitted && a.openKey.isNone).toNat

end Aggregation

namespace Working

variable {w w' : Working} {us ds : List Outcome} {es : List Event} {o : Outcome}

theorem flush_dataLeft {wrap : Batch → Outcome} (flushed : w.flush wrap = (.emit o, w')) :
    ∃ b, o = wrap b ∧ w'.dataLeft + w.rows.length = w.dataLeft := by
  obtain ⟨_, b, _, -, rfl, rfl⟩ := flush_emit flushed
  refine ⟨b, rfl, ?_⟩
  simp only [Aggregation.dataLeft, List.length_nil]
  omega

theorem openDefault_dataLeft (w : Working)
    (due : w.intake.closing = true ∨ w.boundarySeen = false) :
    w.openDefault.dataLeft ≤ w.dataLeft := by
  unfold openDefault
  split
  · exact Nat.le_refl _
  next opens =>
    simp only [Bool.or_eq_true, not_or, Bool.not_eq_true, Option.isSome_eq_false_iff,
      Option.isNone_iff_eq_none] at opens
    rcases due with closing | unbounded
    · simp [Aggregation.dataLeft, closing]
    · simp [Aggregation.dataLeft, opens.1.1.2, opens.1.2, unbounded]
      split <;> omega

theorem Step.data_le (step : Step w us es ds w') (positive : 0 < w.rowCap) :
    ds.countP Outcome.isData + w'.dataLeft ≤ w.dataLeft + Outcome.totalRecords us := by
  cases step with
  | @take _ rest closes _ _ reading taken =>
    obtain ⟨-, -, -, ⟨k, opened, -, -, rfl⟩ | ⟨-, -, w₁, closed, -, rfl⟩⟩ := takeRow_taken taken
    · simp [Aggregation.dataLeft, reading, opened, Intake.pending, Intake.closing]
      split <;> omega
    -- The finished row stands for its group, and the group that is opened for the row taken in.
    · obtain ⟨-, rfl⟩ := closeGroup_ok closed
      cases opened : w.openKey <;>
        simp [Aggregation.dataLeft, reading, opened, Intake.pending, Intake.closing,
          GroupFold.openRow] <;>
        split <;> omega
  | drain reading => simp [Aggregation.dataLeft, reading, Intake.pending, Intake.closing]
  | spill full flushed =>
    obtain ⟨b, rfl, paid⟩ := flush_dataLeft flushed
    have some : w.rowCap ≤ w.rows.length := of_decide_eq_true full
    simp only [List.countP_singleton, Outcome.isData]
    simp
    omega
  | openDefault due =>
    have less := openDefault_dataLeft w <|
      due.imp (fun reading => by simp [reading, Intake.closing]) And.right
    simpa using less
  | bound reading tried room closed flushed =>
    obtain ⟨-, b, -, -, rfl, rfl⟩ := flush_emit flushed
    obtain ⟨-, rfl⟩ := closeGroup_ok closed
    simp [Aggregation.dataLeft, Intake.pending, Outcome.isData]
  | hold _ awaiting d =>
    rcases d with ⟨_ | _ | _, b⟩ <;>
      simp [Aggregation.dataLeft, awaiting, Intake.pending, Intake.closing, Delivery.outcome,
        Outcome.recordCount, Outcome.batch?] <;>
      omega
  | wait => simp [Outcome.isData]
  | endInput _ awaiting => simp [Aggregation.dataLeft, awaiting, Intake.pending, Intake.closing]
  | announce holding kind known laid =>
    simp [Aggregation.dataLeft, holding, Intake.pending, Intake.closing, Batch.length_readings,
      Outcome.isData]
  | startReading holding kind known =>
    simp [Aggregation.dataLeft, holding, Intake.pending, Intake.closing, Batch.length_readings]
    split <;> omega
  | close last room closed =>
    obtain ⟨-, rfl⟩ := closeGroup_ok closed
    have waiting : w.intake.closing = false := by
      rcases last with ⟨holding, -⟩ | ended
      · simp [holding, Intake.closing]
      · simp [ended, Intake.closing]
    cases opened : w.openKey <;> simp [Aggregation.dataLeft, waiting, opened, GroupFold.openRow]
    omega
  | flushRest last closed some flushed =>
    obtain ⟨b, rfl, paid⟩ := flush_dataLeft flushed
    have some : 0 < w.rows.length := List.length_pos_of_ne_nil some
    simp only [List.countP_singleton, Outcome.isData]
    simp
    omega
  | @layOut _ output fold d waiting closed none laid =>
    rcases d with ⟨_ | _ | _, b⟩ <;>
      simp [Aggregation.dataLeft, waiting.1, closed, Intake.pending, Intake.closing,
        Batch.length_readings, Outcome.isData]
  | finish ended tried closed none =>
    simp [Aggregation.dataLeft, release, ended, closed, Intake.pending, Intake.closing,
      Outcome.isData]
  | other => simp [Aggregation.dataLeft]

theorem Steps.data_le (steps : Steps w us es ds w') (positive : 0 < w.rowCap) :
    ds.countP Outcome.isData + w'.dataLeft ≤ w.dataLeft + Outcome.totalRecords us := by
  induction steps with
  | refl => simp
  | snoc before step ih =>
    have cap := before.rowCap_eq
    have last := step.data_le (by omega)
    rw [List.countP_append, Outcome.totalRecords_append]
    omega

/-- Asking a script comes to an answer by itself: no more is asked than the script has outcomes
left, and once more. -/
theorem pull_script (f : Fragment) {r : Replay} {patience patience' : Nat} (w : Working)
    (enough : r.steps.length < patience) (enough' : r.steps.length < patience') :
    w.pull (Operator.advance f 0) patience (.replay r) =
      w.pull (Operator.advance f 0) patience' (.replay r) := by
  obtain ⟨patience, rfl⟩ := Nat.exists_eq_succ_of_ne_zero (Nat.ne_zero_of_lt enough)
  obtain ⟨patience', rfl⟩ := Nat.exists_eq_succ_of_ne_zero (Nat.ne_zero_of_lt enough')
  induction script : r.steps generalizing r patience patience' w with
  | nil =>
    cases failure : r.failure with
    | some e => simp only [pull, Operator.advance, Replay.advance, script, failure]
    | none =>
      have answered (w' : Working) : receive .endOfStream w ≠ (.pull, w') := finish_ne_pull
      simp only [pull, Operator.advance, Replay.advance, script, failure]
      rcases received : receive .endOfStream w with ⟨o | e | _, w₁⟩
      · rfl
      · rfl
      · exact absurd received (answered w₁)
  | cons u rest ih =>
    rw [script, List.length_cons] at enough enough'
    simp only [pull, Operator.advance, Replay.advance, script]
    rcases received : receive u w with ⟨o | e | _, w₁⟩
    · rfl
    · rfl
    · obtain ⟨patience, rfl⟩ := Nat.exists_eq_succ_of_ne_zero (n := patience) (by omega)
      obtain ⟨patience', rfl⟩ := Nat.exists_eq_succ_of_ne_zero (n := patience') (by omega)
      exact ih w₁ patience (by simp only; omega) patience' (by simp only; omega) rfl

end Working

theorem answers_ends (known : Option Shape) (n : Nat) :
    answers known (List.replicate n .endOfStream) = List.replicate n .endOfStream := by
  induction n with
  | zero => rfl
  | succ n ih => exact congrArg (.endOfStream :: ·) ih

theorem totalRecords_ends (n : Nat) :
    Outcome.totalRecords (List.replicate n .endOfStream) = 0 := by
  induction n with
  | zero => rfl
  | succ n ih => simp [List.replicate_succ, Outcome.recordCount, Outcome.batch?, ih]

/-- What answers a script, besides its end, is at most twice as long as the script. -/
theorem signals_le {steps us : List Outcome} {given : List Signal} {ends : Nat}
    (script : us <+: steps ++ List.replicate ends .endOfStream)
    (relayed : given <+: answers none us) (going : .endOfStream ∉ given) :
    given.length ≤ 2 * steps.length := by
  obtain ⟨others, whole⟩ := script
  have answered : given <+: answers none steps ++ List.replicate ends .endOfStream := by
    rw [← answers_ends (shapeAfter none steps), ← answers_append, ← whole, answers_append]
    exact relayed.trans (List.prefix_append ..)
  have all : given.countP (· ≠ .endOfStream) = given.length :=
    List.countP_eq_length.mpr fun s member => decide_eq_true fun same => going (same ▸ member)
  have none : (List.replicate ends Signal.endOfStream).countP (· ≠ .endOfStream) = 0 := by
    simp [List.countP_replicate]
  have most := answered.sublist.countP_le (p := (· ≠ Signal.endOfStream))
  rw [all, List.countP_append, none, Nat.add_zero] at most
  exact Nat.le_trans most (Nat.le_trans List.countP_le_length (length_answers Option.none steps))

namespace Operator

variable {depth : Nat} {settings : Settings} {fs : List Fragment} {op : Operator depth}

/-- The turn comes to an answer by itself, in `n + 1` turns of the child at most: were it to ask for
longer, it would come to the same. -/
def Returns (f : Fragment) (n : Nat) (op : Operator (depth + 1)) : Prop :=
  ∀ a child, op = aggregate a child → ∀ patience, n < patience →
    a.advance (advance f depth) patience child f.memory =
      a.advance (advance f depth) (child.backlog f + 1) child f.memory

def OverScript (n : Nat) (op : Operator 1) : Prop :=
  ∃ a r, op = aggregate a (replay r) ∧ r.steps.length ≤ n

variable {n : Nat} {op : Operator 1}

theorem OverScript.script_returns (script : op.OverScript n) (f : Fragment) : op.Returns f n := by
  obtain ⟨a, r, rfl, left⟩ := script
  rintro a' child same patience enough
  obtain ⟨rfl, rfl⟩ := aggregate.inj same
  have enough : r.steps.length < patience := Nat.lt_of_le_of_lt left enough
  have enough' : r.steps.length < (replay r).backlog f + 1 :=
    Nat.lt_succ_of_le (Nat.le_add_right ..)
  unfold Aggregation.advance
  cases a.phase with
  | running =>
    simp only
    rcases Working.poll { a with memory := f.memory } with ⟨_ | _ | _, w⟩
    · rfl
    · rfl
    · exact Working.pull_script f w enough enough'
  | _ => rfl

theorem OverScript.advance_overScript (script : op.OverScript n) (f : Fragment) (memory : Budget) :
    (advance f 1 op memory).2.1.OverScript n := by
  obtain ⟨a, r, rfl, left⟩ := script
  have shorter (s : Operator 0) (memory : Budget) :
      (∃ r, s = replay r ∧ r.steps.length ≤ n) →
        ∃ r, (Operator.advance f 0 s memory).2.1 = replay r ∧ r.steps.length ≤ n := by
    rintro ⟨r, rfl, left⟩
    refine ⟨r.advance.2, rfl, ?_⟩
    unfold Replay.advance
    split
    next script =>
      rw [script, List.length_cons] at left
      exact Nat.le_of_succ_le left
    · exact left
    · exact left
  obtain ⟨r', same, left'⟩ := Aggregation.advance_keeps a shorter ⟨r, rfl, left⟩
    ((replay r).backlog f + 1) memory
  exact ⟨_, r', congrArg (aggregate _) same, left'⟩

theorem OverScript.turns_overScript (script : op.OverScript n) (fs : List Fragment) :
    (op.turns fs).2.OverScript n := by
  induction fs generalizing op with
  | nil => exact script
  | cons f fs ih => exact ih (script.advance_overScript f f.memory)

/-- As long as an aggregation goes on, its outcomes are bounded by the rows and twice the outcomes
that the script gives. -/
theorem length_going {a : Aggregation} {c : AggregateSpec} {r : Replay} {ds : List Outcome}
    (positive : ∀ f ∈ fs, 0 < f.settings.batchRows) (fresh : a.Fresh c)
    (run : ((aggregate a (replay r)).turns fs).1 = ds.map .ok) (going : .endOfStream ∉ ds) :
    ds.length ≤ 2 * r.steps.length + Outcome.totalRecords r.steps + 1 := by
  have sound : (replay r).Sound := trivial
  obtain ⟨us, es, w, given, steps⟩ := fresh_run positive sound fresh run (.ofLimit 0)
  rw [Outcome.throughEnd_going going] at steps
  obtain ⟨ends, script⟩ := turns_replay given
  have unended : Signal.endOfStream ∉ ds.filterMap Outcome.signal? := by
    intro member
    obtain ⟨o, there, signal⟩ := List.mem_filterMap.mp member
    cases o with
    | endOfStream => exact going there
    | _ => cases signal
  have signals := signals_le script (fresh.signals_isPrefix steps) unended
  have data := steps.data_le fresh.cap
  have start : Aggregation.dataLeft a = 1 := by
    simp [Aggregation.dataLeft, fresh.rows, fresh.intake, fresh.closed, fresh.quiet,
      fresh.unbounded, Intake.pending, Intake.closing]
  have rows : Outcome.totalRecords us ≤ Outcome.totalRecords r.steps := by
    obtain ⟨others, whole⟩ := script
    have total := congrArg Outcome.totalRecords whole
    rw [Outcome.totalRecords_append, Outcome.totalRecords_append, totalRecords_ends] at total
    omega
  have all := Outcome.length_eq ds
  change _ ≤ Aggregation.dataLeft a + _ at data
  omega

theorem ends_within {a : Aggregation} {c : AggregateSpec} {r : Replay}
    (positive : ∀ f ∈ fs, 0 < f.settings.batchRows) (fresh : a.Fresh c)
    (calls : 2 * r.steps.length + Outcome.totalRecords r.steps + 1 < fs.length) :
    ∃ result ∈ ((aggregate a (replay r)).turns fs).1, endsRun result = true := by
  rcases turns_upto_fault fs (aggregate a (replay r)) with
    ⟨ds, run⟩ | ⟨before, f, after, ds, e, rfl, -, failed⟩
  · by_cases ended : .endOfStream ∈ ds
    · rw [run]
      exact ⟨_, List.mem_map_of_mem ended, rfl⟩
    · have few := length_going positive fresh run ended
      have all := length_turns fs (aggregate a (replay r))
      rw [run, List.length_map] at all
      omega
  · refine ⟨.error e, ?_, rfl⟩
    rw [turns_append]
    exact List.mem_append_right _ (by simp [Operator.turns, failed])

/-- Every call to an aggregation of a script returns, whatever the calls before came to; and within
two calls for each outcome of the script, one for each of its rows and two more, the stream ends or
a call fails. -/
theorem aggregate_drains {steps : List Outcome} {failure : Option Fault} {c : AggregateSpec}
    {direct : Bool} {op : Operator 1} (valid : settings.validate = .ok ())
    (built : (Plan.aggregate (.replay steps failure) c direct).build settings = .ok op)
    (shared : ∀ f ∈ fs, f.settings = settings) :
    (∀ f, (op.turns fs).2.Returns f steps.length) ∧
      (fs.length = 2 * steps.length + Outcome.totalRecords steps + 2 →
        ∃ r ∈ (op.turns fs).1, endsRun r = true) := by
  obtain ⟨a, child, rfl, source, fresh, -⟩ := Plan.build_aggregate built
  obtain rfl := Except.ok.inj source
  have script : OverScript steps.length (aggregate a (replay (.ofSteps steps failure))) :=
    ⟨a, _, rfl, Nat.le_refl _⟩
  refine ⟨(script.turns_overScript fs).script_returns, fun calls => ?_⟩
  exact ends_within (batchRows_shared valid shared) fresh (Nat.le_of_eq calls.symm)

end Operator

/-- A script of four outcomes with four rows. -/
theorem aggregate_drains_sample :
    let fs := List.replicate 14 ⟨.trial, .ofLimit 4096, .start⟩
    ∃ op : Operator 1,
      (Plan.aggregate (.replay sampleShapes none) sampleMaxima false).build .trial = .ok op ∧
      (∀ f, (op.turns fs).2.Returns f 4) ∧ ∃ r ∈ (op.turns fs).1, endsRun r = true := by
  intro fs
  have made : ((Plan.aggregate (.replay sampleShapes none) sampleMaxima false).build
      .trial).toOption.any (fun _ => true) = true := by decide +kernel
  obtain ⟨op, built, -⟩ := exists_ok_of_any made
  have valid : Settings.validate .trial = .ok () := rfl
  have shared : ∀ f ∈ fs, f.settings = .trial := by simp [fs]
  obtain ⟨returns, ends⟩ := Operator.aggregate_drains valid built shared
  have length : sampleShapes.length = 4 := rfl
  have records : Outcome.totalRecords sampleShapes = 4 := rfl
  rw [length] at returns ends
  rw [records] at ends
  exact ⟨op, built, returns, ends (List.length_replicate ..)⟩

end BatchFlow

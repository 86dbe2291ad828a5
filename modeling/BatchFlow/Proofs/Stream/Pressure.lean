import BatchFlow.Proofs.Stream.Limits
import BatchFlow.Proofs.Stream.Signals

/-!
Memory pressure on an aggregation of a script. Under a smaller limit the calls come to what they
come to under a larger one, up to the first finished row whose bytes, with those of the rows kept,
exceed the smaller limit. That call fails, and after it every call.
-/
namespace BatchFlow

def Row.footprints : List Row → Nat
  | [] => 0
  | row :: rows => row.footprint + footprints rows

theorem Row.footprints_concat (rows : List Row) (row : Row) :
    footprints (rows ++ [row]) = footprints rows + row.footprint := by
  induction rows with
  | nil => simp [footprints]
  | cons first rows ih => simp only [List.cons_append, footprints, ih, Nat.add_assoc]

namespace Working

def Weighed (w : Working) : Prop := w.held = Row.footprints w.rows

variable {w w' : Working} {us ds : List Outcome} {es : List Event}

theorem Weighed.closeGroup_weighed (weighed : w.Weighed) (h : w.closeGroup = (.ok (), w')) :
    w'.Weighed := by
  obtain ⟨memory, rfl⟩ := closeGroup_ok h
  unfold Weighed at weighed ⊢
  cases w.openKey <;> simp [GroupFold.openRow, Row.footprints_concat, weighed]

theorem Weighed.takeRow_weighed {row : Row} (weighed : w.Weighed) (h : w.takeRow row = (.ok true, w')) :
    w'.Weighed := by
  obtain ⟨-, -, -, ⟨-, -, -, -, rfl⟩ | ⟨-, -, w₁, closed, -, rfl⟩⟩ := takeRow_taken h
  · exact weighed
  · have after : w₁.Weighed := weighed.closeGroup_weighed closed
    exact after

theorem Step.weighed (step : Step w us es ds w') (weighed : w.Weighed) : w'.Weighed := by
  cases step with
  | take _ taken =>
    have after := weighed.takeRow_weighed taken
    exact after
  | spill _ flushed | flushRest _ _ _ flushed | bound _ _ _ _ flushed =>
    obtain ⟨_, _, _, _, _, rfl⟩ := flush_emit flushed
    rfl
  | openDefault =>
    unfold Working.openDefault
    split <;> exact weighed
  | close _ _ closed => exact weighed.closeGroup_weighed closed
  | finish => rfl
  | _ => exact weighed

theorem Steps.weighed (steps : Steps w us es ds w') (weighed : w.Weighed) : w'.Weighed := by
  induction steps with
  | refl => exact weighed
  | snoc _ step ih => exact step.weighed ih

end Working

def Pipeline.scripted (a : Aggregation) (r : Replay) (f : Fragment) : Pipeline :=
  ⟨1, .aggregate a (.replay r), f⟩

namespace Pipeline

/-- What the first calls come to, whether they fail or not, and the pipeline after them. -/
def calls : Nat → Pipeline → List (Except Fault Outcome) × Pipeline
  | 0, p => ([], p)
  | n + 1, p =>
    let (results, p) := calls n p
    let (result, p) := p.advance
    (results ++ [result], p)

def underLimit (settings : Settings) (limit : Nat) (p : Plan) : Except Fault Pipeline := do
  let f ← Fragment.ofSettings settings (some limit)
  ofPlan p f

def withLimit (p : Pipeline) (limit : Nat) : Pipeline :=
  { p with fragment := { p.fragment with memory := p.fragment.memory.withLimit limit } }

/-- In its next turn the aggregation comes to finish a group with this row, while these rows are
kept. It has then taken in what the script gives next, and has handed nothing on. -/
def Finishes (p : Pipeline) (kept : List Row) (row : Row) : Prop :=
  ∃ a r f us es w key ends, p = scripted a r f ∧
    us <+: r.steps ++ List.replicate ends .endOfStream ∧
    Working.Steps { a with memory := f.memory } us es [] w ∧ w.rows = kept ∧
    w.openKey = some key ∧ (w.fold.finish key).1 = row

/-- In its next turn the aggregation comes to finish a group whose row does not go with the rows
kept, for which it fails. -/
def Refuses (p : Pipeline) (e : Fault) : Prop :=
  ∃ kept row, p.Finishes kept row ∧
    e = .allocationFailed row.footprint (p.fragment.memory.limit - Row.footprints kept)
      p.fragment.memory.limit ∧
    Row.footprints kept ≤ p.fragment.memory.limit ∧
    p.fragment.memory.limit < Row.footprints (kept ++ [row])

def scriptedTurn (a : Aggregation) (r : Replay) (f : Fragment) :
    Except Fault Outcome × Working × Operator 0 :=
  a.advance (Operator.advance f 0) (Operator.backlog f (.replay r) + 1) (.replay r) f.memory

theorem advance_scripted {a : Aggregation} {r : Replay} {f : Fragment} {w : Working}
    {result : Except Fault Outcome} {child : Operator 0}
    (turn : scriptedTurn a r f = (result, w, child)) : (scripted a r f).advance =
      (result, ⟨1, .aggregate w.toAggregation child, { f with memory := w.memory }⟩) :=
  congrArg (fun t : Except Fault Outcome × Working × Operator 0 =>
    (t.1, (⟨1, .aggregate t.2.1.toAggregation t.2.2, { f with memory := t.2.1.memory }⟩ :
      Pipeline))) turn

end Pipeline

structure Scripted (a : Aggregation) (r : Replay) (memory : Budget) : Prop where
  solvent : Working.Solvent { a with memory }
  weighed : Working.Weighed { a with memory }
  reported : Working.Reported { a with memory }
  cap : a.phase = .running → 0 < a.rowCap
  unclosed : a.phase ≠ .closed
  source : ∀ e, r.failure = some e → e.code ≠ .allocationFailed

variable {a : Aggregation} {r : Replay} {f : Fragment} {memory : Budget} {depth : Nat}

theorem advance_frugal (f : Fragment) : Child.Frugal (Operator.advance f 0) := by
  intro op memory memory'
  cases op <;> rfl

/-- A script gives its outcomes in order, and its end from then on. -/
theorem turns_replay {fs : List Fragment} {us : List Outcome}
    (run : ((Operator.replay r).turns fs).1 = us.map .ok) :
    ∃ ends, us <+: r.steps ++ List.replicate ends .endOfStream := by
  induction fs generalizing r us with
  | nil =>
    obtain rfl := List.map_eq_nil_iff.mp run.symm
    exact ⟨0, List.nil_prefix⟩
  | cons f fs ih =>
    cases us with
    | nil => cases run
    | cons u rest =>
      obtain ⟨_, _, first, others⟩ := Operator.turns_cons_ok (Prod.ext run rfl)
      simp only [Operator.advance, Prod.mk.injEq] at first
      obtain ⟨result, rfl, rfl⟩ := first
      obtain ⟨ends, more⟩ := ih (congrArg Prod.fst others)
      unfold Replay.advance at result more
      split at result
      next o steps script =>
        simp only [script] at more
        obtain rfl := Except.ok.inj result
        exact ⟨ends, by simpa [script] using more⟩
      · cases result
      next script none =>
        simp only [script, none] at more
        obtain rfl := Except.ok.inj result
        exact ⟨ends + 1, by simpa [script, List.replicate_succ] using more⟩

theorem replay_turns {asked : List Budget} {us : List Outcome} {op : Operator 0}
    (given : Child.turns (Operator.advance f 0) asked (.replay r) = (us.map .ok, op)) :
    ∃ ends, us <+: r.steps ++ List.replicate ends .endOfStream := by
  rw [← Operator.turns_asked] at given
  exact turns_replay (congrArg Prod.fst given)

/-- Whatever a turn of the aggregation comes to, its source is still a script, which fails with
nothing else. -/
theorem replay_turns_source {asked : List Budget} {results : List (Except Fault Outcome)}
    {op : Operator 0}
    (given : Child.turns (Operator.advance f 0) asked (.replay r) = (results, op)) :
    ∃ r', op = .replay r' ∧ (∀ e, r'.failure = some e → r.failure = some e) ∧
      ∀ e, .error e ∈ results → r.failure = some e := by
  induction asked generalizing r results with
  | nil =>
    obtain ⟨rfl, rfl⟩ := Prod.mk.inj given
    exact ⟨r, rfl, fun _ => id, by simp⟩
  | cons memory asked ih =>
    simp only [Child.turns, Operator.advance, Prod.mk.injEq] at given
    obtain ⟨rfl, rfl⟩ := given
    obtain ⟨r', same, source, errors⟩ := ih (r := r.advance.2) rfl
    have kept : ∀ e, r.advance.2.failure = some e → r.failure = some e := by
      intro e
      unfold Replay.advance
      split
      · exact id
      · rintro ⟨⟩
      next none => rw [none]; exact id
    refine ⟨r', same, fun e failure => kept e (source e failure), ?_⟩
    intro e member
    rcases List.mem_cons.mp member with first | later
    · unfold Replay.advance at first
      split at first
      · cases first
      next failure => rw [failure, Except.error.inj first]
      · cases first
    · exact kept e (errors e later)

/-- A fault of the budget comes from a group that has been finished: its row does not go with the
rows kept. -/
theorem Working.Broken.charge_refused {w : Working} {e : Fault} (broken : w.Broken e)
    (code : e.code = .allocationFailed) (reported : w.Reported) (weighed : w.Weighed)
    (bytes : w.memory.allocated = w.held) :
    ∃ key, w.openKey = some key ∧
      e = .allocationFailed (w.fold.finish key).1.footprint
        (w.memory.limit - Row.footprints w.rows) w.memory.limit ∧
      w.memory.limit < Row.footprints (w.rows ++ [(w.fold.finish key).1]) := by
  rcases broken.exists_cause with ⟨rest, closes, reading⟩ | ⟨key, opened, refused⟩ |
    ⟨output, rows, -, -, unfit⟩ | others
  · have := reported _ _ e reading List.mem_cons_self
    simp [code] at this
  · rcases charged : w.memory.charge (w.fold.finish key).1.footprint with ⟨e' | _, memory⟩ <;>
      rw [charged] at refused <;> cases refused
    obtain ⟨short, rfl, -⟩ := Budget.charge_error charged
    unfold Budget.available at short
    rw [bytes, weighed] at short
    refine ⟨key, opened, ?_, ?_⟩
    · rw [Budget.available, bytes, weighed]
    · rw [Row.footprints_concat]
      omega
  · rcases Batch.ofRows_error unfit with code' | code' <;> simp [code] at code'
  · simp [code, Working.internalCodes] at others

namespace Scripted

open Pipeline

variable {w : Working} {child : Operator 0} {o : Outcome} {e : Fault}
  {result : Except Fault Outcome}

theorem turn_pays (turn : scriptedTurn a r f = (result, w, child)) :
    Working.Pays { a with memory := f.memory } w := by
  have := (Aggregation.advance_withstands (advance_frugal f)
    (Operator.backlog f (.replay r) + 1) a (.replay r) f.memory 0).pays
  rwa [show a.advance _ _ _ _ = _ from turn] at this

theorem turn_ok (here : Scripted a r f.memory) (positive : 0 < f.settings.batchRows)
    (running : a.phase = .running) (turn : scriptedTurn a r f = (.ok o, w, child)) :
    ∃ r', child = .replay r' ∧ Scripted w.toAggregation r' w.memory := by
  obtain ⟨us, es, given, steps, -⟩ := Aggregation.advance_steps (Operator.advance_measured positive 0)
    (Nat.lt_succ_of_le (Operator.measure_le_backlog f (.replay r))) trivial running turn
  obtain ⟨r', rfl, source, -⟩ := replay_turns_source given.given
  refine ⟨r', rfl, (turn_pays turn).solvent here.solvent, steps.weighed here.weighed,
    steps.reported here.reported, ?_, ?_, fun e failure => here.source e (source e failure)⟩
  · intro _
    rw [steps.rowCap_eq]
    exact here.cap running
  · by_cases ended : .endOfStream ∈ [o]
    · rw [steps.phase_finished ended]
      simp
    · rw [steps.phase_running running ended]
      simp

/-- A turn that fails leaves a script behind as well. A fault of the budget comes from the first row
that does not go with the rows kept. -/
theorem turn_error (here : Scripted a r f.memory) (running : a.phase = .running)
    (turn : scriptedTurn a r f = (.error e, w, child)) :
    ∃ r', child = .replay r' ∧ Scripted w.toAggregation r' w.memory ∧
      (e.code = .allocationFailed → w.phase = .failed ∧ (scripted a r f).Refuses e) := by
  obtain ⟨us, ⟨v, rfl⟩, blame⟩ := Aggregation.advance_fails running turn
  have given : ∃ results, Child.turns (Operator.advance f 0) _ (.replay r) = (results, child) :=
    blame.elim (fun given => ⟨_, given⟩) fun given => ⟨_, given.1⟩
  obtain ⟨results, given⟩ := given
  obtain ⟨r', rfl, source, -⟩ := replay_turns_source given
  refine ⟨r', rfl, ⟨(turn_pays turn).solvent here.solvent, rfl, by rintro rows closes e ⟨⟩,
    by rintro ⟨⟩, by rintro ⟨⟩, fun e failure => here.source e (source e failure)⟩, ?_⟩
  intro code
  refine ⟨rfl, ?_⟩
  rcases blame with child | ⟨taken, es, w₁, steps, broken, charged⟩
  · have failure := (replay_turns_source child).choose_spec.2.2 e (by simp)
    exact absurd code (here.source e failure)
  · obtain ⟨limit, bytes, below⟩ := charged (advance_frugal f)
    have equal : w₁.memory.allocated = w₁.held := by
      have := here.solvent.bytes
      simp only at this bytes
      omega
    have weighed := steps.weighed here.weighed
    obtain ⟨key, opened, rfl, exceeds⟩ :=
      broken.charge_refused code (steps.reported here.reported) weighed equal
    obtain ⟨ends, script⟩ := replay_turns taken
    have fits := below here.solvent.below
    rw [limit, equal, weighed] at fits
    rw [limit] at exceeds
    refine ⟨w₁.rows, (w₁.fold.finish key).1, ?_, by rw [limit]; rfl, fits, exceeds⟩
    exact ⟨a, r, f, us, es, w₁, key, ends, rfl, script, steps, rfl, opened, rfl⟩

theorem turn_stopped (here : Scripted a r f.memory) (still : a.phase ≠ .running)
    (turn : scriptedTurn a r f = (result, w, child)) :
    w = { a with memory := f.memory } ∧ child = .replay r ∧
      ∀ e, result = .error e → e.code = .internal := by
  unfold scriptedTurn Aggregation.advance at turn
  cases phase : a.phase with
  | running => exact absurd phase still
  | closed => exact absurd phase here.unclosed
  | finished =>
    simp only [phase, Prod.mk.injEq] at turn
    obtain ⟨rfl, rfl, rfl⟩ := turn
    exact ⟨rfl, rfl, by simp⟩
  | failed =>
    simp only [phase, Prod.mk.injEq] at turn
    obtain ⟨rfl, rfl, rfl⟩ := turn
    exact ⟨rfl, rfl, by rintro e ⟨⟩; rfl⟩

theorem advance_cases (here : Scripted a r f.memory) (positive : 0 < f.settings.batchRows) :
    ∃ result a' r' memory, (scripted a r f).advance = (result, scripted a' r' { f with memory }) ∧
      Scripted a' r' memory ∧ memory.limit = f.memory.limit ∧
      ∀ e, result = .error e → e.code = .allocationFailed →
        a'.phase = .failed ∧ (scripted a r f).Refuses e := by
  rcases turn : scriptedTurn a r f with ⟨result, w, child⟩
  have whole := advance_scripted turn
  have limit : w.memory.limit = f.memory.limit := (turn_pays turn).limit
  by_cases running : a.phase = .running
  · cases result with
    | ok o =>
      obtain ⟨r', rfl, state⟩ := here.turn_ok positive running turn
      exact ⟨.ok o, w.toAggregation, r', w.memory, whole, state, limit, by simp⟩
    | error e =>
      obtain ⟨r', rfl, state, refused⟩ := here.turn_error running turn
      refine ⟨.error e, w.toAggregation, r', w.memory, whole, state, limit, ?_⟩
      rintro e' ⟨⟩
      exact refused
  · obtain ⟨rfl, rfl, internal⟩ := here.turn_stopped running turn
    refine ⟨result, a, r, f.memory, whole, here, rfl, fun e same code => ?_⟩
    simp [internal e same] at code

end Scripted

theorem advance_failed (failed : a.phase = .failed) : (Pipeline.scripted a r f).advance =
    (.error (.misuse (.advancedAfterFailure Aggregation.operatorName)),
      Pipeline.scripted a r f) := by
  simp [Pipeline.advance, Pipeline.scripted, Operator.advance, Aggregation.advance, failed]

namespace Pipeline

/-- A call is the same under another limit, unless a charge was refused or more was charged than the
other limit allows. -/
theorem advance_withLimit (a : Aggregation) (r : Replay) (f : Fragment) (limit : Nat)
    (granted : ∀ e, (scripted a r f).advance.1 = .error e → e.code ≠ .allocationFailed)
    (below : (scripted a r f).advance.2.fragment.memory.peak ≤ limit) :
    ((scripted a r f).withLimit limit).advance =
      ((scripted a r f).advance.1, (scripted a r f).advance.2.withLimit limit) := by
  rcases turn : scriptedTurn a r f with ⟨result, w, child⟩
  rw [advance_scripted turn] at granted below ⊢
  have same := (Aggregation.advance_withstands (advance_frugal f)
    (Operator.backlog f (.replay r) + 1) a (.replay r) f.memory limit).same
  rw [show a.advance _ _ _ _ = _ from turn] at same
  have other : scriptedTurn a r { f with memory := f.memory.withLimit limit } =
      (result, w.withLimit limit, child) := by
    rw [scriptedTurn, Operator.backlog_memory, Operator.advance_memory]
    exact same granted below
  exact advance_scripted other

/-- In call `k` and no other the tight pipeline fails for want of memory, on a row that makes the
bytes of the rows kept exceed the limit. -/
structure Cut (tight ample : Pipeline) (low k : Nat) (kept : List Row) (row : Row) : Prop where
  results : ∀ m, (tight.calls (k + 1 + m)).1 = (ample.calls k).1 ++
    .error (.allocationFailed row.footprint (low - Row.footprints kept) low) ::
      List.replicate m (.error (.misuse (.advancedAfterFailure Aggregation.operatorName)))
  granted : ∀ e, .error e ∈ (ample.calls k).1 → e.code ≠ .allocationFailed
  finishes : (tight.calls k).2.Finishes kept row
  fits : Row.footprints kept ≤ low
  exceeds : low < Row.footprints (kept ++ [row])
  before : (ample.calls k).2.fragment.memory.peak ≤ low
  -- In that call the other pipeline charges more than the limit, unless it fails as well.
  after : low < (ample.calls (k + 1)).2.fragment.memory.peak ∨
    ∃ e, (ample.calls k).2.advance.1 = .error e ∧ e.code = .allocationFailed

/-- Up to here both pipelines have come to the same, and nothing has been refused. -/
structure Same (tight ample : Pipeline) (low n : Nat) : Prop where
  results : (tight.calls n).1 = (ample.calls n).1
  granted : ∀ e, .error e ∈ (ample.calls n).1 → e.code ≠ .allocationFailed
  below : (ample.calls n).2.fragment.memory.peak ≤ low

/-- After `n` calls that came to the same, two pipelines are in one state, but for their limits. -/
structure Level (tight ample : Pipeline) (f : Fragment) (low high n : Nat) (a : Aggregation)
    (r : Replay) (memory : Budget) : Prop where
  here : (tight.calls n).2 = scripted a r { f with memory }
  there : ample.calls n =
    ((tight.calls n).1, scripted a r { f with memory := memory.withLimit high })
  state : Scripted a r memory
  limit : memory.limit = low
  granted : ∀ e, .error e ∈ (tight.calls n).1 → e.code ≠ .allocationFailed

namespace Level

variable {tight ample : Pipeline} {low high n : Nat}

theorem same (level : Level tight ample f low high n a r memory) : Same tight ample low n := by
  refine ⟨by rw [level.there], by rw [level.there]; exact level.granted, ?_⟩
  have peak := level.state.solvent.peak
  rw [level.there, ← level.limit]
  exact peak

theorem level_next (level : Level tight ample f low high n a r memory) (limits : low ≤ high)
    (positive : 0 < f.settings.batchRows)
    (granted : ∀ e, (scripted a r { f with memory }).advance.1 = .error e →
      e.code ≠ .allocationFailed) :
    ∃ a' r' memory', Level tight ample f low high (n + 1) a' r' memory' := by
  obtain ⟨result, a', r', memory', call, state, limit, -⟩ :=
    Scripted.advance_cases (f := { f with memory }) level.state positive
  have below : memory'.peak ≤ high := by
    refine Nat.le_trans state.solvent.peak ?_
    change memory'.limit ≤ high
    rw [limit, level.limit]
    exact limits
  have other := advance_withLimit a r { f with memory } high granted (by rw [call]; exact below)
  rw [call] at granted other
  have first : tight.calls (n + 1) =
      ((tight.calls n).1 ++ [result], scripted a' r' { f with memory := memory' }) := by
    simp only [calls, level.here, call]
  refine ⟨a', r', memory', by rw [first], ?_, state, limit.trans level.limit, ?_⟩
  · rw [first, calls, level.there]
    exact congrArg (fun t : Except Fault Outcome × Pipeline =>
      ((tight.calls n).1 ++ [t.1], t.2)) other
  · intro e member
    rw [first] at member
    rcases List.mem_append.mp member with before | now
    · exact level.granted e before
    · exact granted e (List.mem_singleton.mp now).symm

theorem cut_of_refused (level : Level tight ample f low high n a r memory)
    (positive : 0 < f.settings.batchRows) {e : Fault}
    (refused : (scripted a r { f with memory }).advance.1 = .error e)
    (code : e.code = .allocationFailed) : ∃ kept row, Cut tight ample low n kept row := by
  obtain ⟨result, a', r', memory', call, state, limit, details⟩ :=
    Scripted.advance_cases (f := { f with memory }) level.state positive
  obtain rfl : result = .error e := by rw [← refused, call]
  obtain ⟨failed, kept, row, finishes, rfl, fits, exceeds⟩ := details e rfl code
  have low_eq : (scripted a r { f with memory }).fragment.memory.limit = low := level.limit
  rw [low_eq] at call fits exceeds
  have first (m : Nat) : tight.calls (n + 1 + m) = ((ample.calls n).1 ++
      .error (.allocationFailed row.footprint (low - Row.footprints kept) low) ::
        List.replicate m (.error (.misuse (.advancedAfterFailure Aggregation.operatorName))),
      scripted a' r' { f with memory := memory' }) := by
    induction m with
    | zero => simp only [calls, level.here, call, level.there, List.replicate_zero]
    | succ m ih =>
      rw [← Nat.add_assoc, calls, ih]
      simp only [advance_failed failed, List.replicate_succ', List.append_assoc, List.cons_append]
  refine ⟨kept, row, fun m => by rw [first], level.same.granted, ?_, fits, exceeds,
    level.same.below, ?_⟩
  · rw [level.here]
    exact finishes
  · by_contra none
    obtain ⟨below, granted⟩ := not_or.mp none
    rw [calls, level.there] at below
    rw [level.there] at granted
    have back : (scripted a r { f with memory := memory.withLimit high }).withLimit low =
        scripted a r { f with memory } := by
      rw [← level.limit]
      rfl
    have other := advance_withLimit a r { f with memory := memory.withLimit high } low
      (fun e failed code => granted ⟨e, failed, code⟩) (Nat.not_lt.mp below)
    rw [back, call] at other
    exact granted ⟨_, (Prod.mk.inj other).1.symm, rfl⟩

end Level

theorem held_build {p : Plan} {c : AggregateSpec} {direct : Bool} {settings : Settings}
    {a : Aggregation} {child : Operator p.depth}
    (built : (Plan.aggregate p c direct).build settings = .ok (.aggregate a child)) :
    a.held = 0 := by
  have unpaid {fold : GroupFold} {fraction : Binary .single}
      (h : Aggregation.ofFold fold fraction settings = .ok a) : a.held = 0 := by
    obtain ⟨⟨⟩, -, h⟩ := bind_eq_ok.mp h
    obtain rfl := pure_eq_ok.mp h
    rfl
  obtain ⟨child', -, built⟩ := bind_eq_ok.mp built
  cases direct with
  | true =>
    obtain ⟨a', made, built⟩ := bind_eq_ok.mp built
    obtain ⟨rfl, -⟩ := Operator.aggregate.inj (pure_eq_ok.mp built)
    exact unpaid made
  | false =>
    obtain ⟨a', made, built⟩ := bind_eq_ok.mp built
    obtain ⟨rfl, -⟩ := Operator.aggregate.inj (pure_eq_ok.mp built)
    obtain ⟨⟨⟩, -, made⟩ := bind_eq_ok.mp made
    exact unpaid made

/-- Two pipelines of an aggregation on top of a script, built for two limits, start level. -/
theorem level_start {steps : List Outcome} {failure : Option Fault} {c : AggregateSpec}
    {direct : Bool} {settings : Settings} {low high : Nat} {tight ample : Pipeline}
    (external : ∀ e, failure = some e → e.code ≠ .allocationFailed)
    (tightly : underLimit settings low (.aggregate (.replay steps failure) c direct) =
      .ok tight)
    (amply : underLimit settings high (.aggregate (.replay steps failure) c direct) =
      .ok ample) :
    ∃ a r f, 0 < f.settings.batchRows ∧ Level tight ample f low high 0 a r (.ofLimit low) := by
  obtain ⟨f, shared, built⟩ := bind_eq_ok.mp tightly
  obtain ⟨f', shared', built'⟩ := bind_eq_ok.mp amply
  obtain ⟨⟨⟩, valid, same⟩ := bind_eq_ok.mp shared
  obtain ⟨⟨⟩, -, same'⟩ := bind_eq_ok.mp shared'
  obtain rfl := pure_eq_ok.mp same
  obtain rfl := pure_eq_ok.mp same'
  obtain ⟨op, made, rfl⟩ := map_eq_ok.mp built
  obtain ⟨op', made', rfl⟩ := map_eq_ok.mp built'
  obtain rfl : op = op' := Except.ok.inj (made.symm.trans made')
  obtain ⟨a, child, rfl, source, fresh, -⟩ := Plan.build_aggregate made
  obtain rfl := Except.ok.inj source
  have unpaid := held_build made
  refine ⟨a, .ofSteps steps failure, ⟨settings, .ofLimit low, .start⟩,
    Settings.batchRows_pos valid, rfl, rfl, ?_, rfl, by simp [calls]⟩
  refine ⟨⟨unpaid.symm, Nat.zero_le _, Nat.zero_le _⟩, ?_, ?_, fun _ => fresh.cap, ?_, external⟩
  · unfold Working.Weighed
    rw [unpaid, fresh.rows]
    rfl
  · intro rows closes e reading
    rw [fresh.intake] at reading
    cases reading
  · rw [fresh.running]
    simp

/-- Memory pressure alters nothing that an aggregation of a script gives: under a smaller limit all
calls come to the same, or to the same up to the first finished row for which the limit is too
small. -/
theorem pressure_only_cuts {steps : List Outcome} {failure : Option Fault} {c : AggregateSpec}
    {direct : Bool} {settings : Settings} {low high : Nat} {tight ample : Pipeline}
    (external : ∀ e, failure = some e → e.code ≠ .allocationFailed) (limits : low ≤ high)
    (tightly : underLimit settings low (.aggregate (.replay steps failure) c direct) =
      .ok tight)
    (amply : underLimit settings high (.aggregate (.replay steps failure) c direct) =
      .ok ample) :
    (∀ n, Same tight ample low n) ∨ ∃ k kept row, Cut tight ample low k kept row := by
  obtain ⟨a, r, f, positive, start⟩ := level_start external tightly amply
  by_cases refusal : ∃ n a r memory, Level tight ample f low high n a r memory ∧
      ∃ e, (scripted a r { f with memory }).advance.1 = .error e ∧ e.code = .allocationFailed
  · obtain ⟨n, a, r, memory, level, e, refused, code⟩ := refusal
    exact .inr ⟨n, level.cut_of_refused positive refused code⟩
  · left
    have always (n : Nat) : ∃ a r memory, Level tight ample f low high n a r memory := by
      induction n with
      | zero => exact ⟨a, r, _, start⟩
      | succ n ih =>
        obtain ⟨a, r, memory, level⟩ := ih
        exact level.level_next limits positive fun e failed code =>
          refusal ⟨n, a, r, memory, level, e, failed, code⟩
    intro n
    obtain ⟨a, r, memory, level⟩ := always n
    exact level.same

end Pipeline

def sampleKeys : Plan :=
  .aggregate (.replay [.data (sampleBatch "x" [true, true, false])] none)
    ⟨[⟨.column "x" none, "k"⟩], [⟨.countAll, [], "n"⟩], AggregateSpec.fullFraction⟩ false

def refusedWithin (n : Nat) (p : Pipeline) : Bool := (p.calls n).1.any fun
  | .error e => e.code = .allocationFailed
  | .ok _ => false

/-- A row of the sample takes 32 bytes, and two of them are kept. -/
theorem pressure_only_cuts_sample : ∃ tight ample,
    Pipeline.underLimit .trial 40 sampleKeys = .ok tight ∧
      Pipeline.underLimit .trial 64 sampleKeys = .ok ample ∧ refusedWithin 4 ample = false ∧
        ∃ k kept row, Pipeline.Cut tight ample 40 k kept row := by
  have refused : (Pipeline.underLimit .trial 40 sampleKeys).toOption.any (refusedWithin 4) = true := by
    decide +kernel
  have granted : (Pipeline.underLimit .trial 64 sampleKeys).toOption.all
      (!refusedWithin 4 ·) = true := by
    decide +kernel
  rcases tightly : Pipeline.underLimit .trial 40 sampleKeys with e | tight <;>
    rw [tightly] at refused
  · cases refused
  rcases amply : Pipeline.underLimit .trial 64 sampleKeys with e | ample
  · have : (Pipeline.underLimit .trial 64 sampleKeys).toOption.isSome = true := by decide +kernel
    rw [amply] at this
    cases this
  rw [amply] at granted
  refine ⟨tight, ample, rfl, rfl, by simpa [Except.toOption] using granted, ?_⟩
  have external : ∀ e, (none : Option Fault) = some e → e.code ≠ .allocationFailed := by simp
  rcases Pipeline.pressure_only_cuts external (by decide) tightly amply with same | cut
  · obtain ⟨results, granted, -⟩ := same 4
    have none : refusedWithin 4 tight = false := by
      rw [refusedWithin, results, List.any_eq_false]
      rintro (e | o) member
      · simpa using granted e member
      · simp
    rw [Except.toOption, Option.any_some, none] at refused
    cases refused
  · exact cut

end BatchFlow

import BatchFlow.Proofs.Stream.AnyChild

/-!
What may be asked of an operator, turns and closing in any order, and how its states end: the end
stays the end until the operator is closed, and after a fault, or after closing, every turn is
refused. In none of these states is the child asked for anything.
-/
namespace BatchFlow

/-- What an operator can be asked for. Every turn has a fragment of its own, because the cursor may
be moved and the budget be charged in between. -/
inductive Request where
  | advance (f : Fragment)
  | close (memory : Budget)

namespace Unnest

variable {u u' : Unnest} {f : Fragment} {outer : Batch} {o : Outcome}

theorem expand_carries (turn : u.expand f outer = .ok (o, u')) :
    ∃ b, o = .data b ∨ o = .endOfGroup b := by
  unfold expand at turn
  split at turn
  · cases turn
  · split at turn
    · obtain ⟨rfl, -⟩ := Prod.mk.inj (Except.ok.inj turn)
      exact ⟨_, .inr rfl⟩
    · split at turn
      · cases turn
      · obtain ⟨rfl, -⟩ := Prod.mk.inj (Except.ok.inj turn)
        split
        · exact ⟨_, .inr rfl⟩
        · exact ⟨_, .inl rfl⟩

theorem next_finished (turn : u.next f = .ok (.endOfStream, u')) : u'.phase = .finished := by
  unfold next at turn
  split at turn
  · obtain ⟨-, rfl⟩ := Prod.mk.inj (Except.ok.inj turn)
    rfl
  · have carried {v : Unnest} {outer : Batch} (turn : v.expand f outer = .ok (.endOfStream, u')) :
        u'.phase = .finished := by
      obtain ⟨b, same | same⟩ := expand_carries turn <;> cases same
    split at turn
    · exact carried turn
    · obtain ⟨⟨v, announced⟩, -, turn⟩ := bind_eq_ok.mp turn
      cases announced with
      | none => exact carried turn
      | some schema => cases turn

end Unnest

namespace Operator

variable {depth : Nat}

def result (f : Fragment) (op : Operator depth) : Except Fault Outcome :=
  (advance f depth op f.memory).1

def serve : Request → Operator depth → Operator depth
  | .advance f, op => (advance f depth op f.memory).2.1
  | .close memory, op => (op.close memory).1

def after : List Request → Operator depth → Operator depth
  | [], op => op
  | r :: rest, op => after rest (op.serve r)

/-- What the child gives in the next turn; a source has no child. -/
def fetchedIn (f : Fragment) : {depth : Nat} → Operator depth → List (Except Fault Outcome)
  | 0, _ => []
  | _ + 1, aggregate a child => (child.turns ((aggregate a child).childTurns f)).1

def fetched : List Request → Operator depth → List (Except Fault Outcome)
  | [], _ => []
  | .advance f :: rest, op => op.fetchedIn f ++ fetched rest (op.serve (.advance f))
  | .close memory :: rest, op => fetched rest (op.serve (.close memory))

def phase : {depth : Nat} → Operator depth → Option Phase
  | 0, replay _ => none
  | 0, unnest u => some u.phase
  | _ + 1, aggregate a _ => some a.phase

structure Gives (op : Operator depth) (f : Fragment) (r : Except Fault Outcome) : Prop where
  result : op.result f = r
  silent : op.fetchedIn f = []

def Refuses (op : Operator depth) (f : Fragment) : Prop :=
  ∃ e, e.code = .internal ∧ op.Gives f (.error e)

variable {f : Fragment} {fs : List Fragment} {op : Operator depth} {memory : Budget}

theorem turn_heard {a : Aggregation} (child : Operator depth) (running : a.phase = .running)
    (f : Fragment) : Heard (advance f depth) child (asked f a child f.memory)
      { a with memory := f.memory }
      (a.advance (advance f depth) (child.backlog f + 1) child f.memory) :=
  Aggregation.advance_heard _ _ _ _ running

theorem fetchedIn_aggregate (f : Fragment) (a : Aggregation) (child : Operator depth) :
    (aggregate a child).fetchedIn f =
      (Child.turns (advance f depth) (asked f a child f.memory) child).1 := by
  rw [fetchedIn, childTurns, turns_asked]

/-- A turn when the work is over: the same as ever, and nothing changes. -/
theorem over_stays (op : Operator depth) {p : Phase} (phase : op.phase = some p)
    (stopped : p ≠ .running) (f : Fragment) :
    op.serve (.advance f) = op ∧ op.fetchedIn f = [] := by
  cases op with
  | replay r => cases phase
  | unnest u =>
    obtain rfl := Option.some.inj phase
    refine ⟨?_, rfl⟩
    simp only [serve, advance, Unnest.advance]
    cases phase : u.phase with
    | running => exact absurd phase stopped
    | finished | failed | closed => rfl
  | aggregate a child =>
    obtain rfl := Option.some.inj phase
    constructor
    · obtain ⟨-, same⟩ := Aggregation.advance_over (advance f _) (child.backlog f + 1) child
        f.memory stopped
      exact congrArg (fun t : Working × Operator _ => aggregate t.1.toAggregation t.2) same
    · have silent : asked f a child f.memory = [] :=
        (Aggregation.advance_over (advance f _) (child.backlog f + 1) child f.memory stopped).1
      rw [fetchedIn_aggregate, silent]
      rfl

theorem gives_of_finished (op : Operator depth) (finished : op.phase = some .finished)
    (f : Fragment) :
    op.Gives f (.ok .endOfStream) := by
  refine ⟨?_, (over_stays op finished (by simp) f).2⟩
  cases op with
  | replay r => cases finished
  | unnest u =>
    have phase : u.phase = .finished := Option.some.inj finished
    simp only [result, advance, Unnest.advance, phase]
  | aggregate a child =>
    have phase : a.phase = .finished := Option.some.inj finished
    simp only [result, advance, Aggregation.advance, phase]

theorem refuses_of_over (op : Operator depth)
    (stopped : op.phase = some .failed ∨ op.phase = some .closed) (f : Fragment) :
    op.Refuses f := by
  have silent : op.fetchedIn f = [] := by
    rcases stopped with failed | closed
    · exact (over_stays op failed (by simp) f).2
    · exact (over_stays op closed (by simp) f).2
  cases op with
  | replay r => rcases stopped with failed | closed <;> contradiction
  | unnest u =>
    rcases stopped with phase | phase <;> replace phase := Option.some.inj phase
    · exact ⟨.misuse (.advancedAfterFailure Unnest.operatorName), rfl,
        by simp only [result, advance, Unnest.advance, phase], silent⟩
    · exact ⟨.misuse (.advancedAfterClose Unnest.operatorName), rfl,
        by simp only [result, advance, Unnest.advance, phase], silent⟩
  | aggregate a child =>
    rcases stopped with phase | phase <;> replace phase := Option.some.inj phase
    · exact ⟨.misuse (.advancedAfterFailure Aggregation.operatorName), rfl,
        by simp only [result, advance, Aggregation.advance, phase], silent⟩
    · exact ⟨.misuse (.advancedAfterClose Aggregation.operatorName), rfl,
        by simp only [result, advance, Aggregation.advance, phase], silent⟩

theorem close_phase (op : Operator depth) (phased : op.phase.isSome = true) (memory : Budget) :
    (op.serve (.close memory)).phase = some .closed := by
  cases op with
  | replay r => cases phased
  | unnest u => rfl
  | aggregate a child =>
    simp only [serve, close]
    split
    next closed => exact congrArg some closed
    · rfl

theorem over_after (stopped : op.phase = some .failed ∨ op.phase = some .closed)
    (requests : List Request) :
    (op.after requests).phase = some .failed ∨ (op.after requests).phase = some .closed := by
  induction requests generalizing op with
  | nil => exact stopped
  | cons r rest ih =>
    apply ih
    cases r with
    | advance f =>
      have same : op.serve (.advance f) = op := by
        rcases stopped with failed | closed
        · exact (over_stays op failed (by simp) f).1
        · exact (over_stays op closed (by simp) f).1
      rwa [same]
    | close memory =>
      refine .inr (close_phase _ ?_ memory)
      rcases stopped with phase | phase <;> simp [phase]

theorem finished_after (finished : op.phase = some .finished) (fs : List Fragment) :
    (op.after (fs.map .advance)).phase = some .finished := by
  induction fs generalizing op with
  | nil => exact finished
  | cons f fs ih =>
    apply ih
    rwa [(over_stays op finished (by simp) f).1]

theorem phase_finished (phased : op.phase.isSome = true)
    (ended : op.result f = .ok .endOfStream) :
    (op.serve (.advance f)).phase = some .finished := by
  cases op with
  | replay r => cases phased
  | unnest u =>
    simp only [result, serve, advance, Unnest.advance] at ended ⊢
    cases running : u.phase with
    | running =>
      rw [running] at ended
      rcases turn : u.next f with e | ⟨o, u'⟩ <;> rw [turn] at ended
      · cases ended
      · obtain rfl := Except.ok.inj ended
        have finished : u'.phase = .finished := Unnest.next_finished turn
        exact congrArg some finished
    | finished => exact congrArg some running
    | failed | closed =>
      rw [running] at ended
      cases ended
  | aggregate a child =>
    by_cases running : a.phase = .running
    · exact congrArg some ((turn_heard child running f).phase_finished ended)
    · have still := (over_stays (aggregate a child) rfl running f).1
      rw [still]
      cases phase : a.phase with
      | running => exact absurd phase running
      | finished => exact congrArg some phase
      | failed | closed =>
        obtain ⟨e, -, refused⟩ := refuses_of_over (aggregate a child)
          (by simp [Operator.phase, phase]) f
        cases ended.symm.trans refused.result

theorem phase_failed (phased : op.phase.isSome = true) {e : Fault}
    (failed : op.result f = .error e) :
    (op.serve (.advance f)).phase = some .failed ∨
      (op.serve (.advance f)).phase = some .closed := by
  obtain ⟨p, phase⟩ := Option.isSome_iff_exists.mp phased
  by_cases running : p = .running
  · subst running
    left
    cases op with
    | replay r => cases phase
    | unnest u =>
      have running : u.phase = .running := Option.some.inj phase
      simp only [result, serve, advance, Unnest.advance, running] at failed ⊢
      rcases turn : u.next f with e | ⟨o, u'⟩ <;> rw [turn] at failed
      · rfl
      · cases failed
    | aggregate a child =>
      exact congrArg some ((turn_heard child (Option.some.inj phase) f).phase_failed failed)
  · rw [(over_stays op phase running f).1]
    cases p with
    | running => exact absurd rfl running
    | finished => cases failed.symm.trans (gives_of_finished op phase f).result
    | failed => exact .inl phase
    | closed => exact .inr phase

/-! What the child gives. -/

theorem result_of_fetched {e : Fault} (given : .error e ∈ op.fetchedIn f) :
    op.result f = .error e := by
  cases op with
  | replay | unnest => cases given
  | aggregate a child =>
    by_cases running : a.phase = .running
    · rw [fetchedIn_aggregate] at given
      exact (turn_heard child running f).fault e given
    · rw [(over_stays (aggregate a child) rfl running f).2] at given
      cases given

def Spent : {depth : Nat} → Operator depth → Prop
  | 0, _ => True
  | _ + 1, aggregate a _ => a.Spent

theorem Spent.serve_spent (spent : op.Spent) (r : Request) : (op.serve r).Spent := by
  cases op with
  | replay | unnest => cases r <;> trivial
  | aggregate a child =>
    cases r with
    | advance f =>
      by_cases running : a.phase = .running
      · exact (turn_heard child running f).spent spent
      · rwa [(over_stays (aggregate a child) rfl running f).1]
    | close memory =>
      have closed := close_phase (aggregate a child) rfl memory
      rcases after : (aggregate a child).serve (.close memory) with _ | _ | ⟨b, _⟩
      rw [after] at closed
      refine .inl ?_
      rw [Option.some.inj closed]
      simp

theorem Spent.fetchedIn_eq_nil (spent : op.Spent) (f : Fragment) : op.fetchedIn f = [] := by
  cases op with
  | replay | unnest => rfl
  | aggregate a child =>
    have silent : asked f a child f.memory = [] := Aggregation.Spent.asks_eq_nil spent ..
    rw [fetchedIn_aggregate, silent]
    rfl

theorem Spent.fetched_eq_nil (spent : op.Spent) (requests : List Request) :
    op.fetched requests = [] := by
  induction requests generalizing op with
  | nil => rfl
  | cons r rest ih =>
    cases r with
    | advance f =>
      rw [Operator.fetched, spent.fetchedIn_eq_nil, ih (spent.serve_spent _), List.nil_append]
    | close memory => exact ih (spent.serve_spent _)

/-- In one turn all that the child gives but the last is data. -/
theorem fetchedIn_going (f : Fragment) (op : Operator depth) :
    ∀ r ∈ (op.fetchedIn f).dropLast, endsRun r = false := by
  intro r member
  cases op with
  | replay | unnest => cases member
  | aggregate a child =>
    by_cases running : a.phase = .running
    · rw [fetchedIn_aggregate] at member
      obtain ⟨b, rfl⟩ := (turn_heard child running f).data r member
      rfl
    · rw [(over_stays (aggregate a child) rfl running f).2] at member
      cases member

/-- When the child has ended or failed, nothing more is to be asked of it. -/
theorem spent_of_ends {r : Except Fault Outcome} (given : r ∈ op.fetchedIn f)
    (ends : endsRun r = true) : (op.serve (.advance f)).Spent := by
  cases op with
  | replay | unnest => cases given
  | aggregate a child =>
    by_cases running : a.phase = .running
    · rw [fetchedIn_aggregate] at given
      exact (turn_heard child running f).spent_of_ends running given ends
    · rw [(over_stays (aggregate a child) rfl running f).2] at given
      cases given

/-- Whatever is asked of an operator, its child is asked for nothing after its end or a fault. -/
theorem fetched_going (requests : List Request) (op : Operator depth) :
    ∀ r ∈ (op.fetched requests).dropLast, endsRun r = false := by
  induction requests generalizing op with
  | nil =>
    intro r member
    cases member
  | cons r rest ih =>
    cases r with
    | close memory => exact ih (op.serve (.close memory))
    | advance f =>
      rw [fetched]
      by_cases none : (op.serve (.advance f)).fetched rest = []
      · rw [none, List.append_nil]
        exact fetchedIn_going f op
      · intro r member
        rw [List.dropLast_append_of_ne_nil none] at member
        rcases List.mem_append.mp member with now | later
        · by_contra ends
          exact none ((spent_of_ends now (by simpa using ends)).fetched_eq_nil rest)
        · exact ih _ r later

/-- The last states absorb. After the end every turn gives the end, until the operator is closed;
after a fault, and after closing, every turn is refused, whatever else has been asked for; and in
all these turns the child is left alone. It is also left alone once it has ended or failed, and its
fault is the fault of the turn that met with it. -/
theorem terminal_absorbs (op : Operator depth) (phased : op.phase.isSome = true) (f : Fragment) :
    (op.result f = .ok .endOfStream →
      ∀ fs f', (op.after ((f :: fs).map .advance)).Gives f' (.ok .endOfStream)) ∧
    (∀ e, op.result f = .error e →
      ∀ requests f', (op.after (.advance f :: requests)).Refuses f') ∧
    (∀ memory requests f', (op.after (.close memory :: requests)).Refuses f') ∧
    (∀ requests, ∀ r ∈ (op.fetched requests).dropLast, endsRun r = false) ∧
    ∀ e, .error e ∈ op.fetchedIn f → op.result f = .error e := by
  refine ⟨fun ended fs f' => ?_, fun e failed requests f' => ?_, fun memory requests f' => ?_,
    fun requests => fetched_going requests op, fun e given => result_of_fetched given⟩
  · exact gives_of_finished _ (finished_after (phase_finished phased ended) fs) f'
  · exact refuses_of_over _ (over_after (phase_failed phased failed) requests) f'
  · exact refuses_of_over _ (over_after (.inr (close_phase _ phased memory)) requests) f'

end Operator

def sampleBroken : Plan :=
  .aggregate (.replay [.data (sampleBatch "x" [true, false])] (some (.reported .internal "lost")))
    ⟨[], [⟨.countAll, [], "n"⟩], AggregateSpec.fullFraction⟩ false

/-- The second turn meets with the fault, and the rows counted so far are never given. -/
theorem terminal_absorbs_sample :
    let f : Fragment := ⟨.trial, .ofLimit 4096, .start⟩
    ∃ op : Operator 1, sampleBroken.build .trial = .ok op ∧
      (op.serve (.advance f)).result f = .error (.reported .internal "lost") ∧
      ∀ requests f', ((op.serve (.advance f)).after (.advance f :: requests)).Refuses f' := by
  intro f
  have breaks : (sampleBroken.build .trial).toOption.any (fun op : Operator 1 =>
      ((op.serve (.advance f)).fetchedIn f).any fun
        | .error e => e = .reported .internal "lost"
        | .ok _ => false) = true := by decide +kernel
  obtain ⟨op, built, breaks⟩ := exists_ok_of_any breaks
  obtain ⟨r, given, lost⟩ := List.any_eq_true.mp breaks
  rcases r with e | o
  · obtain rfl : e = .reported .internal "lost" := of_decide_eq_true lost
    have phased : (op.serve (.advance f)).phase.isSome = true := by
      obtain ⟨a, child, rfl, -⟩ := Plan.build_aggregate built
      rfl
    obtain ⟨-, refused, -, -, passed⟩ := Operator.terminal_absorbs _ phased f
    exact ⟨op, built, passed _ given, refused _ (passed _ given)⟩
  · cases lost

end BatchFlow

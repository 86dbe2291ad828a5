import BatchFlow.Proofs.Stream.Backlog

/-!
Runs of an operator: turns one after another, each in a fragment of its own, because the cursor may
be moved and the budget be charged in between. A run of an aggregation goes with a run of its child.
-/
namespace BatchFlow.Operator

variable {depth : Nat}

def turns : List Fragment → Operator depth → List (Except Fault Outcome) × Operator depth
  | [], op => ([], op)
  | f :: fs, op =>
    let (result, op, _) := advance f depth op f.memory
    let (results, op) := turns fs op
    (result :: results, op)

def child : Operator (depth + 1) → Operator depth
  | aggregate _ child => child

def childTurns (f : Fragment) : Operator (depth + 1) → List Fragment
  | aggregate a child => (asked f a child f.memory).map fun memory => { f with memory }

def childRun : List Fragment → Operator (depth + 1) → List Fragment
  | [], _ => []
  | f :: fs, op => op.childTurns f ++ childRun fs (advance f (depth + 1) op f.memory).2.1

def upstream (fs : List Fragment) (op : Operator (depth + 1)) : List (Except Fault Outcome) :=
  (op.child.turns (op.childRun fs)).1

def sourced : {depth : Nat} → List Fragment → Operator depth → List (Except Fault Outcome)
  | 0, fs, op => (op.turns fs).1
  | _ + 1, fs, op => sourced (op.childRun fs) op.child

variable {f : Fragment} {fs fs' : List Fragment} {op op' op₁ : Operator depth}

/-! The budget of a turn is the one it is given, not that of the fragment. -/

theorem backlog_memory (f : Fragment) (m : Budget) (op : Operator depth) :
    op.backlog { f with memory := m } = op.backlog f := by
  induction op with
  | replay | unnest => rfl
  | aggregate a child ih => rw [backlog, backlog, ih]

theorem advance_memory (f : Fragment) (m : Budget) :
    advance { f with memory := m } depth = advance f depth := by
  induction depth with
  | zero =>
    funext op memory
    cases op <;> rfl
  | succ depth ih =>
    funext op memory
    cases op with
    | aggregate a child => simp only [advance, ih, backlog_memory]

theorem turns_asked (f : Fragment) (memories : List Budget) (op : Operator depth) :
    op.turns (memories.map fun memory => { f with memory }) =
      Child.turns (advance f depth) memories op := by
  induction memories generalizing op with
  | nil => rfl
  | cons memory memories ih =>
    rw [List.map_cons, turns, Child.turns, advance_memory]
    simp only [ih]

theorem turns_append (fs fs' : List Fragment) (op : Operator depth) :
    op.turns (fs ++ fs') = ((op.turns fs).1 ++ ((op.turns fs).2.turns fs').1,
      ((op.turns fs).2.turns fs').2) := by
  induction fs generalizing op with
  | nil => rfl
  | cons f fs ih => simp only [List.cons_append, turns, ih]

theorem length_turns (fs : List Fragment) (op : Operator depth) :
    (op.turns fs).1.length = fs.length := by
  induction fs generalizing op with
  | nil => rfl
  | cons f fs ih => simp only [turns, List.length_cons, ih]

theorem turns_cons_ok {d : Outcome} {ds : List Outcome}
    (run : op.turns (f :: fs) = ((d :: ds).map .ok, op')) :
    ∃ op₁ left, advance f depth op f.memory = (.ok d, op₁, left) ∧
      op₁.turns fs = (ds.map .ok, op') := by
  rcases first : advance f depth op f.memory with ⟨result, op₁, left⟩
  simp only [turns, first, List.map_cons, Prod.mk.injEq, List.cons.injEq] at run
  obtain ⟨⟨rfl, others⟩, rfl⟩ := run
  exact ⟨op₁, left, rfl, Prod.ext others rfl⟩

theorem childRun_append (fs fs' : List Fragment) (op : Operator (depth + 1)) :
    op.childRun (fs ++ fs') = op.childRun fs ++ (op.turns fs).2.childRun fs' := by
  induction fs generalizing op with
  | nil => rfl
  | cons f fs ih => simp only [List.cons_append, childRun, turns, ih, List.append_assoc]

theorem run_over {a : Aggregation} {result : Except Fault Outcome} (child : Operator depth)
    (still : ∀ {σ : Type} (next : Child σ) (patience : Nat) (s : σ) (memory : Budget),
      a.advance next patience s memory = (result, { a with memory }, s)) (fs : List Fragment) :
    (aggregate a child).turns fs = (List.replicate fs.length result, aggregate a child) ∧
      (aggregate a child).childRun fs = [] := by
  induction fs with
  | nil => exact ⟨rfl, rfl⟩
  | cons f fs ih =>
    have turn : advance f (depth + 1) (aggregate a child) f.memory =
        (result, aggregate a child, f.memory) := by
      simp [advance, still]
    have silent : asked f a child f.memory = [] := by
      simp [asked, Aggregation.asks, still]
    constructor
    · simp [turns, turn, ih.1, List.replicate_succ]
    · simp [childRun, childTurns, silent, turn, ih.2]

/-- After the end an aggregation asks for nothing, and gives nothing but the end. -/
theorem run_ended {a : Aggregation} (child : Operator depth) (ended : a.phase = .finished)
    (fs : List Fragment) :
    (aggregate a child).turns fs =
        (List.replicate fs.length (.ok .endOfStream), aggregate a child) ∧
      (aggregate a child).childRun fs = [] :=
  run_over child (by simp [Aggregation.advance, ended]) fs

theorem run_failed {a : Aggregation} (child : Operator depth) (failed : a.phase = .failed)
    (fs : List Fragment) :
    (aggregate a child).turns fs =
        (List.replicate fs.length
          (.error (.misuse (.advancedAfterFailure Aggregation.operatorName))),
          aggregate a child) ∧
      (aggregate a child).childRun fs = [] :=
  run_over child (by simp [Aggregation.advance, failed]) fs

theorem run_closed {a : Aggregation} (child : Operator depth) (closed : a.phase = .closed)
    (fs : List Fragment) :
    (aggregate a child).turns fs =
        (List.replicate fs.length
          (.error (.misuse (.advancedAfterClose Aggregation.operatorName))),
          aggregate a child) ∧
      (aggregate a child).childRun fs = [] :=
  run_over child (by simp [Aggregation.advance, closed]) fs

theorem turns_failed {op : Operator (depth + 1)} {a : Aggregation} {child : Operator depth}
    {e : Fault} (failed : (advance f (depth + 1) op f.memory).1 = .error e)
    (now : (advance f (depth + 1) op f.memory).2.1 = aggregate a child) (down : a.phase = .failed)
    (fs : List Fragment) : op.turns (f :: fs) =
      (.error e :: List.replicate fs.length
        (.error (.misuse (.advancedAfterFailure Aggregation.operatorName))),
        aggregate a child) := by
  simp only [turns, failed, now, (run_failed child down fs).1]

theorem upstream_cons (f : Fragment) (fs : List Fragment) (op : Operator (depth + 1)) :
    ∃ later, op.upstream (f :: fs) = (op.child.turns (op.childTurns f)).1 ++ later := by
  rw [upstream, childRun, turns_append]
  exact ⟨_, rfl⟩

/-- What the child gives in a run, after it has given `us` in the first turns of it. -/
theorem upstream_append {a b : Aggregation} {child child' : Operator depth} {us : List Outcome}
    (given : child.turns ((aggregate a child).childRun fs) = (us.map .ok, child'))
    (after : ((aggregate a child).turns fs).2 = aggregate b child') (fs' : List Fragment) :
    (aggregate a child).upstream (fs ++ fs') = us.map .ok ++ (aggregate b child').upstream fs' := by
  change (child.turns _).1 = _
  rw [childRun_append, turns_append, given, after]
  rfl

/-- A run is without faults, or without faults up to its first one. -/
theorem turns_upto_fault (fs : List Fragment) (op : Operator depth) :
    (∃ ds : List Outcome, (op.turns fs).1 = ds.map .ok) ∨
      ∃ before f after, ∃ ds : List Outcome, ∃ e,
        fs = before ++ f :: after ∧ (op.turns before).1 = ds.map .ok ∧
        (advance f depth (op.turns before).2 f.memory).1 = .error e := by
  induction fs generalizing op with
  | nil => exact .inl ⟨[], rfl⟩
  | cons f fs ih =>
    rcases first : advance f depth op f.memory with ⟨e | d, op₁, left⟩
    · exact .inr ⟨[], f, fs, [], e, rfl, rfl, by simp [turns, first]⟩
    · rcases ih op₁ with ⟨ds, run⟩ | ⟨before, f', after, ds, e, rfl, run, failed⟩
      · exact .inl ⟨d :: ds, by simp [turns, first, run]⟩
      · exact .inr ⟨f :: before, f', after, d :: ds, e, rfl, by simp [turns, first, run],
          by simp [turns, first, failed]⟩

/-- A run of an aggregation is made of small steps over what its child gives in that run. -/
theorem run_steps {a : Aggregation} {child : Operator depth} {op' : Operator (depth + 1)}
    {ds : List Outcome} (positive : ∀ f ∈ fs, 0 < f.settings.batchRows)
    (sound : (aggregate a child).Sound) (running : a.phase = .running)
    (run : (aggregate a child).turns fs = (ds.map .ok, op')) (memory : Budget) :
    ∃ us es w child', child.turns ((aggregate a child).childRun fs) = (us.map .ok, child') ∧
      Working.Steps { a with memory } us es (Outcome.throughEnd ds) w ∧
      op' = .aggregate w.toAggregation child' ∧ op'.Sound := by
  induction fs generalizing a child ds memory with
  | nil =>
    simp only [turns, Prod.mk.injEq] at run
    obtain ⟨none, rfl⟩ := run
    obtain rfl := List.map_eq_nil_iff.mp none.symm
    exact ⟨[], [], _, child, rfl, .refl _, rfl, sound⟩
  | cons f fs ih =>
    cases ds with
    | nil => simp [turns] at run
    | cons d ds =>
      obtain ⟨op₁, left, first, others⟩ := turns_cons_ok run
      obtain ⟨us, es, w, child₁, rfl, sound₁, given, steps, -⟩ :=
        turn_steps_of (advance_measured (positive f List.mem_cons_self) depth) sound running first
      have other : Working.Step { a with memory } [] [] [] { a with memory := f.memory } :=
        .other a.recordCount f.memory
      have steps := other.steps.trans steps
      rw [childRun, turns_append, childTurns, turns_asked, given.given, first]
      by_cases ended : d = .endOfStream
      · subst ended
        obtain ⟨turned, silent⟩ := run_ended child₁ (steps.phase_finished (by simp)) fs
        obtain rfl := congrArg Prod.snd (turned.symm.trans others)
        exact ⟨us, es, w, child₁, by simp [silent, turns], by simpa [Outcome.throughEnd] using steps,
          rfl, sound₁⟩
      · have still : w.phase = .running :=
          steps.phase_running running (by simpa using Ne.symm ended)
        obtain ⟨us', es', w', child', given', steps', same, sound'⟩ :=
          ih (fun f member => positive f (List.mem_cons_of_mem _ member)) sound₁ still others
            w.memory
        refine ⟨us ++ us', es ++ es', w', child', ?_, ?_, same, sound'⟩
        · simp [given']
        · rw [Outcome.throughEnd_cons ended]
          simpa using steps.trans steps'

/-- After the end a run gives nothing but the end. -/
theorem run_after_end {a : Aggregation} {child : Operator depth} {before after : List Outcome}
    (positive : ∀ f ∈ fs, 0 < f.settings.batchRows) (sound : (aggregate a child).Sound)
    (running : a.phase = .running)
    (run : ((aggregate a child).turns fs).1 = (before ++ .endOfStream :: after).map .ok) :
    ∀ o ∈ after, o = .endOfStream := by
  -- The run is cut behind the turn that gives the end.
  obtain ⟨fs₁, fs₂, rfl, length⟩ :
      ∃ fs₁ fs₂, fs = fs₁ ++ fs₂ ∧ fs₁.length = (before ++ [Outcome.endOfStream]).length := by
    have count := congrArg List.length run
    rw [length_turns] at count
    refine ⟨fs.take (before.length + 1), fs.drop (before.length + 1),
      (List.take_append_drop ..).symm, ?_⟩
    simp only [List.length_map, List.length_append, List.length_cons] at count
    simp [count]
  rcases first : (aggregate a child).turns fs₁ with ⟨results, op'⟩
  have same := length_turns fs₁ (aggregate a child)
  rw [turns_append, first, List.append_cons, List.map_append] at run
  rw [first] at same
  obtain ⟨rfl, later⟩ := List.append_inj run (by simpa [same] using length)
  obtain ⟨us, es, w, child', -, steps, rfl, -⟩ :=
    run_steps (fun f member => positive f (List.mem_append_left _ member)) sound running first
      (.ofLimit 0)
  have finished := steps.phase_finished (Outcome.mem_throughEnd.mpr (by simp))
  rw [(run_ended child' finished fs₂).1] at later
  intro o member
  have there : Except.ok o ∈ List.replicate fs₂.length (Except.ok Outcome.endOfStream) :=
    later ▸ List.mem_map_of_mem member
  exact Except.ok.inj (List.eq_of_mem_replicate there)

theorem mem_throughEnd_of_run {a : Aggregation} {child : Operator depth} {ds : List Outcome}
    {o : Outcome} (positive : ∀ f ∈ fs, 0 < f.settings.batchRows)
    (sound : (aggregate a child).Sound) (running : a.phase = .running)
    (run : ((aggregate a child).turns fs).1 = ds.map .ok) (member : o ∈ ds) :
    o ∈ Outcome.throughEnd ds ∨ o = .endOfStream := by
  by_cases ended : .endOfStream ∈ ds
  · obtain ⟨before, after, rfl, more⟩ := List.eq_append_cons_of_mem ended
    have nothing := run_after_end positive sound running run
    rw [Outcome.throughEnd_append more]
    rcases List.mem_append.mp member with first | later
    · exact .inl (List.mem_append_left _ first)
    · rcases List.mem_cons.mp later with now | later
      · exact .inr now
      · exact .inr (nothing o later)
  · exact .inl ((Outcome.throughEnd_going ended).symm ▸ member)

theorem settings_childRun {op : Operator (depth + 1)} (member : f ∈ op.childRun fs) :
    ∃ f' ∈ fs, f.settings = f'.settings := by
  induction fs generalizing op with
  | nil => simp [childRun] at member
  | cons f' fs ih =>
    rcases List.mem_append.mp member with now | later
    · refine ⟨f', List.mem_cons_self, ?_⟩
      cases op with
      | aggregate a child =>
        obtain ⟨memory, -, rfl⟩ := List.mem_map.mp now
        rfl
    · obtain ⟨f'', there, same⟩ := ih later
      exact ⟨f'', List.mem_cons_of_mem _ there, same⟩

theorem batchRows_shared {settings : Settings} (valid : settings.validate = .ok ())
    (shared : ∀ f ∈ fs, f.settings = settings) : ∀ f ∈ fs, 0 < f.settings.batchRows := by
  intro f member
  rw [shared f member]
  exact Settings.batchRows_pos valid

theorem built_sound {settings : Settings} {p : Plan} {op : Operator p.depth}
    (built : p.build settings = .ok op) : op.Sound := by
  induction p with
  | replay steps failure =>
    obtain rfl := Except.ok.inj built
    trivial
  | unnest spec =>
    obtain ⟨u, made, rfl⟩ := map_eq_ok.mp built
    obtain ⟨least, rfl⟩ := Unnest.ofSpec_ok made
    exact ⟨least, by simp⟩
  | aggregate p c direct ih =>
    obtain ⟨a, child, rfl, below, fresh, -⟩ := Plan.build_aggregate built
    exact ⟨fresh.cap, ih below⟩

end BatchFlow.Operator

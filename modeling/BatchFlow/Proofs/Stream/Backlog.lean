import BatchFlow.Proofs.Stream.Asking
import BatchFlow.Proofs.Stream.Expansion
import BatchFlow.Proofs.Stream.Validated

/-! Every operator has a measure of the data that it has left, so that the patience with which it
is asked by an aggregation on top of it never runs out. -/
namespace BatchFlow

namespace Unnest

variable {u u' : Unnest} {f : Fragment} {outer : Batch} {o : Outcome}

/-- The batch that is filled next has no rows yet. -/
structure Sound (u : Unnest) : Prop where
  positive : 0 < u.expansion.rowCap
  empty : ∀ b ∈ u.output, b.numRows = 0

theorem Sound.release_sound (sound : u.Sound) : u.release.Sound :=
  ⟨sound.positive, by simp [Unnest.release]⟩

theorem backlog_bound (bound : u.generation = some f.cursor.generation) {v : ListVector}
    (column : u.expansion.column = some v) :
    u.backlog f = v.countAt f.cursor.row - u.expansion.made f.cursor.row := by
  simp [backlog, bound, column]

theorem expand_within (positive : 0 < f.settings.batchRows) (sound : u.Sound)
    (bound : u.generation = some f.cursor.generation) (turn : u.expand f outer = .ok (o, u')) :
    u'.Sound ∧ o.Within (u.backlog f) (u'.backlog f) := by
  unfold expand at turn
  split at turn
  · cases turn
  next out output =>
    split at turn
    · simp only [Except.ok.injEq, Prod.mk.injEq] at turn
      obtain ⟨rfl, rfl⟩ := turn
      refine ⟨⟨sound.positive, by simp [Batch.take]⟩, ?_⟩
      have none : out.numRows = 0 := sound.empty out output
      simp [Outcome.Within, Batch.take, none]
    · split at turn
      · cases turn
      next n x filled expanded =>
        obtain ⟨v, ready, column, count, rfl, numRows, -⟩ := Expansion.expand_made expanded
        simp only [Except.ok.injEq, Prod.mk.injEq] at turn
        obtain ⟨rfl, rfl⟩ := turn
        refine ⟨⟨sound.positive, by simp [Batch.take]⟩, ?_⟩
        have least := sound.positive
        have taken : filled.take.1.numRows = n := numRows
        have after : backlog { u with
            expansion := { u.expansion with
              progress := some ⟨f.cursor.row, u.expansion.made f.cursor.row + n⟩ }
            output := some filled.take.2 } f =
              v.countAt f.cursor.row - (u.expansion.made f.cursor.row + n) := by
          simp [backlog, bound, column, Expansion.made]
        rw [backlog_bound bound column, after]
        simp only [Expansion.step] at count
        split
        · simp only [Outcome.Within, taken]
          omega
        next left =>
          simp only [Expansion.isDrained, ready, column, decide_true, Bool.true_and,
            decide_eq_true_eq] at left
          simp only [Outcome.Within, taken]
          omega

/-- Binding an outer batch starts its column over, with an empty batch for what the column makes. Its
schema is announced, unless the one announced before has its shape. -/
theorem bind_binds {announced : Option Schema} (bound : u.bind outer = .ok (u', announced)) :
    ∃ v, outer.columnNamed? u.spec.field = some (.repeated v) ∧
      u' = { u with
        expansion := { u.expansion with ready := true, column := some v, progress := none }
        output := some (.empty ⟨[Expansion.madeField v]⟩)
        outputSchema := announced.or u.outputSchema } ∧
      (announced = some ⟨[Expansion.madeField v]⟩ ∨ announced = none ∧
        ∃ s, u.outputSchema = some s ∧ Schema.sameShape ⟨[Expansion.madeField v]⟩ s = true) := by
  unfold bind at bound
  obtain ⟨x₁, ready, bound⟩ := bind_eq_ok.mp bound
  simp only at bound
  cases there : outer.columnNamed? u.spec.field with
  | none => simp [there, Bind.bind, Except.bind] at bound
  | some c =>
    simp only [there, bind_eq_ok, pure_eq_ok, exists_eq_left'] at bound
    obtain ⟨x₂, set, bound⟩ := bound
    obtain ⟨v, lists, set⟩ := bind_eq_ok.mp set
    obtain rfl := pure_eq_ok.mp set
    obtain rfl : x₁ = { u.expansion with ready := true } := by
      unfold Expansion.setUp at ready
      split at ready
      · exact (Except.ok.inj ready).symm
      · cases ready
    obtain rfl : c = .repeated v := by
      cases c with
      | flat => cases lists
      | repeated => rw [Except.ok.inj lists]
    refine ⟨v, rfl, ?_⟩
    split at bound
    next same =>
      obtain ⟨rfl, rfl⟩ := Prod.mk.inj (pure_eq_ok.mp bound)
      rcases Option.getD_eq_iff.mp same with same | ⟨-, ⟨⟩⟩
      exact ⟨rfl, .inr ⟨rfl, Option.map_eq_some_iff.mp same⟩⟩
    · obtain ⟨rfl, rfl⟩ := Prod.mk.inj (pure_eq_ok.mp bound)
      exact ⟨rfl, .inl rfl⟩

theorem bind_within {announced : Option Schema} (sound : u.Sound)
    (unbound : u.generation ≠ some f.cursor.generation) (at' : f.cursor.outer = some outer)
    (turn : bind { u with generation := some f.cursor.generation } outer = .ok (u', announced)) :
    u'.Sound ∧ u'.generation = some f.cursor.generation ∧ u'.backlog f = u.backlog f := by
  obtain ⟨v, there, rfl, -⟩ := bind_binds turn
  have before : u.backlog f = v.countAt f.cursor.row := by
    simp [backlog, unbound, at', there]
  refine ⟨⟨sound.positive, by simp [Batch.empty]⟩, rfl, ?_⟩
  rw [before, backlog_bound rfl rfl]
  rfl

theorem next_within (positive : 0 < f.settings.batchRows) (sound : u.Sound)
    (turn : u.next f = .ok (o, u')) : u'.Sound ∧ o.Within (u.backlog f) (u'.backlog f) := by
  unfold next at turn
  split at turn
  · simp only [Except.ok.injEq, Prod.mk.injEq] at turn
    obtain ⟨rfl, rfl⟩ := turn
    exact ⟨Sound.release_sound ⟨sound.positive, sound.empty⟩, trivial⟩
  next outer at' =>
    split at turn
    next bound => exact expand_within positive sound bound turn
    next unbound =>
      obtain ⟨⟨u₁, announced⟩, bound, turn⟩ := bind_eq_ok.mp turn
      obtain ⟨sound₁, here, same⟩ := bind_within sound unbound at' bound
      cases announced with
      | none =>
        rw [← same]
        exact expand_within positive sound₁ here turn
      | some schema =>
        simp only [pure_eq_ok, Prod.mk.injEq] at turn
        obtain ⟨rfl, rfl⟩ := turn
        refine ⟨sound₁, ?_⟩
        simp [Outcome.Within, same, Batch.empty]

theorem advance_within (positive : 0 < f.settings.batchRows) (sound : u.Sound)
    (turn : u.advance f = (.ok o, u')) : u'.Sound ∧ o.Within (u.backlog f) (u'.backlog f) := by
  unfold advance at turn
  split at turn
  · split at turn
    next o' u₁ next =>
      simp only [Prod.mk.injEq, Except.ok.injEq] at turn
      obtain ⟨rfl, rfl⟩ := turn
      obtain ⟨sound', within⟩ := next_within positive sound next
      exact ⟨⟨sound'.positive, sound'.empty⟩, within⟩
    · simp at turn
  · simp only [Prod.mk.injEq, Except.ok.injEq] at turn
    obtain ⟨rfl, rfl⟩ := turn
    exact ⟨sound, trivial⟩
  · simp at turn
  · simp at turn

end Unnest

theorem Replay.advance_within {r r' : Replay} {o : Outcome} (turn : r.advance = (.ok o, r')) :
    o.Within (r.steps.length + Outcome.totalRecords r.steps)
      (r'.steps.length + Outcome.totalRecords r'.steps) := by
  unfold advance at turn
  split at turn
  next first rest steps =>
    simp only [Prod.mk.injEq, Except.ok.injEq] at turn
    obtain ⟨rfl, rfl⟩ := turn
    simp only [steps, List.length_cons, Outcome.totalRecords]
    cases first <;> simp [Outcome.Within, Outcome.recordCount, Outcome.batch?] <;> omega
  · simp at turn
  · simp only [Prod.mk.injEq, Except.ok.injEq] at turn
    obtain ⟨rfl, -⟩ := turn
    trivial

namespace Operator

variable {settings : Settings} {f : Fragment}

/-- Bounds that hold of every operator built, whatever it has been asked for. -/
def Sound : {depth : Nat} → Operator depth → Prop
  | 0, replay _ => True
  | 0, unnest u => u.Sound
  | _ + 1, aggregate a child => 0 < a.rowCap ∧ child.Sound

def measure (f : Fragment) : {depth : Nat} → Operator depth → Nat
  | 0, replay r => r.steps.length + Outcome.totalRecords r.steps
  | 0, unnest u => u.backlog f
  | _ + 1, aggregate a child => a.measure (child.measure f)

theorem measure_le_backlog (f : Fragment) {depth : Nat} (op : Operator depth) :
    op.measure f ≤ op.backlog f := by
  induction op with
  | replay | unnest => exact Nat.le_refl _
  | aggregate a child ih =>
    have := a.potential_le_backlog
    simp only [measure, backlog, Aggregation.measure]
    split <;> omega

def asked (f : Fragment) {depth : Nat} (a : Aggregation) (child : Operator depth)
    (memory : Budget) : List Budget :=
  a.asks (advance f depth) (child.backlog f + 1) child memory

theorem advance_aggregate {depth : Nat} {a : Aggregation} {child : Operator depth}
    {op : Operator (depth + 1)} {memory left : Budget} {o : Outcome}
    (turn : advance f (depth + 1) (.aggregate a child) memory = (.ok o, op, left)) :
    ∃ w child', a.advance (advance f depth) (child.backlog f + 1) child memory = (.ok o, w, child') ∧
      op = .aggregate w.toAggregation child' := by
  rcases inner : a.advance (advance f depth) (child.backlog f + 1) child memory with ⟨r, w, child'⟩
  have same : (fun child memory => advance f depth child memory) = advance f depth := rfl
  rw [advance] at turn
  simp only [same, inner, Prod.mk.injEq] at turn
  obtain ⟨rfl, rfl, -⟩ := turn
  exact ⟨w, child', rfl, rfl⟩

/-- A turn of an aggregation is made of small steps over what it asks of its child. -/
theorem turn_steps_of {depth : Nat} (measured : Child.Measured (advance f depth) Sound (measure f))
    {a : Aggregation} {child : Operator depth} {op : Operator (depth + 1)} {memory left : Budget}
    {o : Outcome} (sound : (aggregate a child).Sound) (running : a.phase = .running)
    (turn : advance f (depth + 1) (.aggregate a child) memory = (.ok o, op, left)) :
    ∃ us es w child', op = .aggregate w.toAggregation child' ∧ op.Sound ∧
      Asked (advance f depth) child (asked f a child memory) us child' ∧
      Working.Steps { a with memory } us es [o] w ∧
      (us ≠ [] → ∃ es w, Working.Steps { a with memory } [] es [] w ∧ w.intake = .awaiting) ∧
      Spends us (child.measure f) (child'.measure f) := by
  obtain ⟨cap, below⟩ := sound
  obtain ⟨w, child', inner, rfl⟩ := advance_aggregate turn
  have enough : child.measure f < child.backlog f + 1 :=
    Nat.lt_succ_of_le (measure_le_backlog f child)
  obtain ⟨us, es, given, steps, opening⟩ :=
    Aggregation.advance_steps measured enough below running inner
  obtain ⟨below', spent⟩ := measured.spends below given.given
  have cap' : 0 < w.rowCap := by rw [steps.rowCap_eq]; exact cap
  exact ⟨us, es, w, child', rfl, ⟨cap', below'⟩, given, steps, opening, spent⟩

/-- A measure that no turn of an operator exceeds. -/
theorem advance_measured (positive : 0 < f.settings.batchRows) (depth : Nat) :
    Child.Measured (advance f depth) Sound (measure f) := by
  induction depth with
  | zero =>
    constructor
    intro op op' memory left o sound turn
    cases op with
    | replay r =>
      simp only [advance, Prod.mk.injEq] at turn
      obtain ⟨given, rfl, -⟩ := turn
      exact ⟨trivial, Replay.advance_within (Prod.ext given rfl)⟩
    | unnest u =>
      simp only [advance, Prod.mk.injEq] at turn
      obtain ⟨given, rfl, -⟩ := turn
      exact Unnest.advance_within positive sound (Prod.ext given rfl)
  | succ depth measured =>
    constructor
    intro op op' memory left o sound turn
    cases op with
    | aggregate a child =>
      by_cases running : a.phase = .running
      · obtain ⟨us, es, w, child', rfl, sound', -, steps, -, spent⟩ :=
          turn_steps_of measured sound running turn
        exact ⟨sound', spends_singleton.mp (steps.spends sound.1 spent)⟩
      · obtain ⟨w, child', inner, rfl⟩ := advance_aggregate turn
        obtain ⟨-, rfl, rfl, rfl⟩ := Aggregation.advance_ended running inner
        exact ⟨sound, trivial⟩

end Operator
end BatchFlow

import BatchFlow.Proofs.Stream.Flushing
import BatchFlow.Proofs.Stream.Settling

/-!
The account of the budget that a pipeline shares with others. Between calls, whatever the calls came
to, the bytes that are charged are those that others hold and those of the rows that the
aggregations keep, so nothing is lost and nothing is given back twice.
-/
namespace BatchFlow

namespace Operator

variable {depth : Nat} {op : Operator depth}

def aggregations : {depth : Nat} → Operator depth → List Aggregation
  | 0, _ => []
  | _ + 1, aggregate a child => a :: child.aggregations

def held : {depth : Nat} → Operator depth → Nat
  | 0, _ => 0
  | _ + 1, aggregate a child => a.held + child.held

@[simp] theorem held_aggregate (a : Aggregation) (child : Operator depth) :
    (aggregate a child).held = a.held + child.held := rfl

/-- A turn leaves alone what others hold. -/
theorem advance_accounts (f : Fragment) (depth : Nat) : Child.Accounts (advance f depth) held := by
  induction depth with
  | zero =>
    intro n op memory before
    cases op <;> exact before
  | succ depth ih =>
    intro n op memory before
    obtain _ | _ | ⟨a, child⟩ := op
    rw [held_aggregate, ← Nat.add_assoc] at before
    have after := Aggregation.advance_spares ih (child.backlog f + 1) child memory before
    rw [Nat.add_assoc] at after
    simp only [advance, held_aggregate]
    exact after

/-- What holds of a chain between turns: each of its aggregations is balanced, and below one that
is closed nothing is held. -/
def Balanced : {depth : Nat} → Operator depth → Prop
  | 0, _ => True
  | _ + 1, aggregate a child =>
    a.Balanced ∧ (a.phase = .closed → child.held = 0) ∧ child.Balanced

theorem Balanced.each_balanced (balanced : op.Balanced) : ∀ a ∈ op.aggregations, a.Balanced := by
  induction depth with
  | zero =>
    intro b member
    cases op <;> cases member
  | succ depth ih =>
    obtain _ | _ | ⟨a, child⟩ := op
    obtain ⟨here, -, below⟩ := balanced
    intro b member
    rcases List.mem_cons.mp member with rfl | others
    · exact here
    · exact ih below b others

theorem turn_aggregate (f : Fragment) (a : Aggregation) (child : Operator depth)
    (memory : Budget) : advance f (depth + 1) (aggregate a child) memory =
      let t := a.advance (advance f depth) (child.backlog f + 1) child memory
      (t.1, aggregate t.2.1.toAggregation t.2.2, t.2.1.memory) := rfl

/-- Turns keep a chain balanced, and its root holds nothing after a result that clears. -/
theorem Balanced.advance_balanced (balanced : op.Balanced) (f : Fragment) (memory : Budget) :
    (advance f depth op memory).2.1.Balanced ∧
      (clearing (advance f depth op memory).1 = true →
        ∀ a ∈ (advance f depth op memory).2.1.aggregations.head?, a.held = 0) := by
  induction depth generalizing memory with
  | zero =>
    refine ⟨?_, fun _ b root => ?_⟩ <;> cases op
    · trivial
    · trivial
    · cases root
    · cases root
  | succ depth ih =>
    obtain _ | _ | ⟨a, child⟩ := op
    obtain ⟨here, closed, below⟩ := balanced
    rw [turn_aggregate]
    generalize patience : child.backlog f + 1 = k
    obtain ⟨after, cleared⟩ := here.advance_balanced (advance_accounts f depth) k child memory
    have kept := Aggregation.advance_keeps (P := Balanced) a
      (fun s memory here => (ih here memory).1) below k memory
    refine ⟨⟨after, fun stopped => ?_, kept⟩, fun clears b root => ?_⟩
    · by_cases running : a.phase = .running
      · have heard := Aggregation.advance_heard (Operator.advance f depth) k child memory running
        exact absurd stopped (heard.phase_ne_closed running)
      · have same := (Aggregation.advance_over (Operator.advance f depth) k child memory running).2
        rw [same] at stopped ⊢
        exact closed stopped
    · obtain rfl := Option.some.inj root
      exact after.held_of_rows (cleared clears)

/-- Closing a chain gives back all that it holds, once. -/
theorem Balanced.close_frees (balanced : op.Balanced) {n : Nat} {memory : Budget}
    (before : memory.allocated = n + op.held) :
    (op.close memory).1.Balanced ∧ (op.close memory).1.held = 0 ∧
      (op.close memory).2.allocated = n := by
  induction depth generalizing memory with
  | zero => cases op <;> exact ⟨trivial, rfl, before⟩
  | succ depth ih =>
    obtain _ | _ | ⟨a, child⟩ := op
    obtain ⟨here, closed, below⟩ := balanced
    rw [held_aggregate] at before
    simp only [Operator.close]
    split
    next stopped =>
      have none : a.held = 0 := here.held_of_rows (here.stopped (by simp [stopped]))
      have nothing := closed stopped
      refine ⟨⟨here, closed, below⟩, ?_, ?_⟩
      · rw [held_aggregate, none, nothing]
      · change memory.allocated = n
        omega
    · have given : (Working.release { a with memory }).memory.allocated = n + child.held :=
        Working.release_spares { a with memory } (n + child.held) (by simp only; omega)
      obtain ⟨balanced, nothing, rest⟩ := ih below given
      refine ⟨⟨⟨rfl, fun _ => rfl⟩, fun _ => nothing, balanced⟩, ?_, rest⟩
      rw [held_aggregate, nothing]
      rfl

theorem balanced_build {p : Plan} {settings : Settings} {op : Operator p.depth}
    (built : p.build settings = .ok op) : op.Balanced ∧ op.held = 0 := by
  induction p with
  | replay | unnest => cases op <;> exact ⟨trivial, rfl⟩
  | aggregate child spec direct ih =>
    obtain ⟨a, child, rfl, below, fresh, -⟩ := Plan.build_aggregate built
    have unpaid := Pipeline.held_build built
    obtain ⟨balanced, nothing⟩ := ih below
    refine ⟨⟨⟨?_, fun _ => fresh.rows⟩, fun _ => nothing, balanced⟩, ?_⟩
    · rw [unpaid, fresh.rows]
      rfl
    · exact (held_aggregate a child).trans (by rw [unpaid, nothing])

end Operator

/-- What befalls a budget that a pipeline shares: a turn of the pipeline, its closing, a move of the
cursor, or others that charge the budget or give back what they hold. -/
inductive Use where
  | turn
  | close
  | move (m : OuterCursor → OuterCursor)
  | charge (bytes : Nat)
  | release (bytes : Nat)

/-- A pipeline, and the bytes that others hold of its budget. -/
structure Shared where
  pipeline : Pipeline
  others : Nat

namespace Shared

variable {s : Shared}

def settled (s : Shared) (memory : Budget) (others : Nat) : Shared :=
  ⟨{ s.pipeline with fragment := { s.pipeline.fragment with memory } }, others⟩

def use : Use → Shared → Shared
  | .turn, s => { s with pipeline := s.pipeline.advance.2 }
  | .close, s => { s with pipeline := s.pipeline.close }
  | .move m, s => { s with pipeline := s.pipeline.withCursor m }
  | .charge bytes, s =>
    match s.pipeline.fragment.memory.charge bytes with
    | (.ok (), memory) => s.settled memory (s.others + bytes)
    | (.error _, memory) => s.settled memory s.others
  | .release bytes, s =>
    let given := min bytes s.others
    s.settled (s.pipeline.fragment.memory.release given) (s.others - given)

def after : List Use → Shared → Shared
  | [], s => s
  | u :: rest, s => after rest (s.use u)

structure Kept (s : Shared) : Prop where
  total : s.pipeline.fragment.memory.allocated = s.others + s.pipeline.root.held
  balanced : s.pipeline.root.Balanced

theorem Kept.use_kept (kept : s.Kept) (u : Use) : (s.use u).Kept := by
  obtain ⟨total, balanced⟩ := kept
  cases u with
  | turn =>
    exact ⟨Operator.advance_accounts s.pipeline.fragment s.pipeline.depth _ _ _ total,
      (balanced.advance_balanced _ _).1⟩
  | close =>
    obtain ⟨balanced, nothing, given⟩ := balanced.close_frees total
    refine ⟨?_, balanced⟩
    change (s.pipeline.root.close s.pipeline.fragment.memory).2.allocated =
      s.others + (s.pipeline.root.close s.pipeline.fragment.memory).1.held
    rw [given, nothing, Nat.add_zero]
  | move m => exact ⟨total, balanced⟩
  | charge bytes =>
    simp only [Shared.use]
    rcases charged : s.pipeline.fragment.memory.charge bytes with ⟨e | _, memory⟩
    · obtain ⟨-, -, rfl⟩ := Budget.charge_error charged
      exact ⟨total, balanced⟩
    · obtain ⟨-, rfl⟩ := Budget.charge_ok charged
      refine ⟨?_, balanced⟩
      simp only [settled]
      omega
  | release bytes =>
    refine ⟨?_, balanced⟩
    simp only [Shared.use, settled, Budget.release]
    omega

theorem Kept.after_kept (kept : s.Kept) (uses : List Use) : (s.after uses).Kept := by
  induction uses generalizing s with
  | nil => exact kept
  | cons u rest ih => exact ih (kept.use_kept u)

structure Exact (s : Shared) : Prop where
  total : s.pipeline.fragment.memory.allocated = s.others + s.pipeline.root.held
  each : ∀ a ∈ s.pipeline.root.aggregations, a.held = Row.footprints a.rows
  stopped : ∀ a ∈ s.pipeline.root.aggregations, a.phase ≠ .running → a.held = 0
  -- A turn that comes to data, to the end of a group or of the stream, or to a fault, leaves the
  -- root with nothing.
  cleared : clearing s.pipeline.advance.1 = true →
    ∀ a ∈ s.pipeline.advance.2.root.aggregations.head?, a.held = 0
  -- Closing gives back all that is held, and nothing of others.
  closed : s.pipeline.close.root.held = 0 ∧ s.pipeline.close.fragment.memory.allocated = s.others

theorem Kept.kept_exact (kept : s.Kept) : s.Exact := by
  obtain ⟨total, balanced⟩ := kept
  obtain ⟨-, nothing, given⟩ := balanced.close_frees total
  refine ⟨total, fun a member => ?_, fun a member stopped => ?_, (balanced.advance_balanced _ _).2,
    nothing, given⟩
  · exact (balanced.each_balanced a member).weighed
  · have here := balanced.each_balanced a member
    exact here.held_of_rows (here.stopped stopped)

/-- Whatever befalls the budget of a pipeline, the account of it stays exact. -/
theorem after_exact {plan : Plan} {f : Fragment} {p : Pipeline}
    (built : Pipeline.ofPlan plan f = .ok p) (uses : List Use) :
    (after uses ⟨p, f.memory.allocated⟩).Exact := by
  obtain ⟨op, made, rfl⟩ := map_eq_ok.mp built
  obtain ⟨balanced, nothing⟩ := Operator.balanced_build made
  have total : f.memory.allocated = f.memory.allocated + op.held := by rw [nothing]; rfl
  have start : Kept ⟨⟨plan.depth, op, f⟩, f.memory.allocated⟩ := ⟨total, balanced⟩
  exact (start.after_kept uses).kept_exact

end Shared

/-- A row is kept over a wait while others hold a hundred bytes, and these are all that is left in
the end. -/
theorem after_exact_sample :
    let f : Fragment := ⟨.trial, .ofLimit 4096, .start⟩
    ∃ p, Pipeline.ofPlan (.aggregate (.replay sampleShapes none) sampleMaxima false) f = .ok p ∧
      let s := Shared.after [.turn, .charge 100, .turn] ⟨p, f.memory.allocated⟩
      s.others = 100 ∧ 0 < s.pipeline.root.held ∧
        s.pipeline.fragment.memory.allocated = 100 + s.pipeline.root.held ∧
        s.pipeline.close.fragment.memory.allocated = 100 := by
  intro f
  have keeps : (Pipeline.ofPlan (.aggregate (.replay sampleShapes none) sampleMaxima false)
      f).toOption.any (fun p =>
        let s := Shared.after [.turn, .charge 100, .turn] ⟨p, f.memory.allocated⟩
        s.others = 100 ∧ 0 < s.pipeline.root.held) = true := by decide +kernel
  obtain ⟨p, built, keeps⟩ := exists_ok_of_any keeps
  have account := Shared.after_exact built [.turn, .charge 100, .turn]
  refine ⟨p, built, ?_⟩
  simp only at keeps
  generalize Shared.after [.turn, .charge 100, .turn] ⟨p, f.memory.allocated⟩ = s at keeps account ⊢
  obtain ⟨others, some⟩ := of_decide_eq_true keeps
  exact ⟨others, some, others ▸ account.total, account.closed.2.trans others⟩

end BatchFlow

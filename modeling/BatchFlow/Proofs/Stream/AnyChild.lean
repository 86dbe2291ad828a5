import BatchFlow.Proofs.Stream.Signals

/-!
A turn of an aggregation over any child at all, one that never ends or that fails included. Whatever
the child does, all that it gives in the turn but the last is data, its fault is the fault of the
turn, and an outcome is come to by small steps.
-/
namespace BatchFlow

variable {σ : Type}

/-- What an aggregation in state `w` has to do with the turns of its child in a turn of its own that
comes to `t`. A turn that asks in vain comes to nothing but a wait. -/
structure Heard (next : Child σ) (s : σ) (asked : List Budget) (w : Working)
    (t : Except Fault Outcome × Working × σ) : Prop where
  after : (next.turns asked s).2 = t.2.2
  data : ∀ r ∈ (next.turns asked s).1.dropLast, ∃ b, r = .ok (.data b)
  fault : ∀ e, .error e ∈ (next.turns asked s).1 → t.1 = .error e
  failed : ∀ e, t.1 = .error e → ∃ v : Working, t.2.1 = v.failed
  yields : ∀ o, t.1 = .ok o → ∃ us es ds, (next.turns asked s).1 = us.map .ok ∧
    Working.Steps w us es ds t.2.1 ∧ (ds = [o] ∨ ds = [] ∧ o = .notYet)

/-- What every turn of the child keeps, all its turns keep. -/
theorem Child.turns_keep {next : Child σ} {P : σ → Prop}
    (kept : ∀ s memory, P s → P (next s memory).2.1) (asked : List Budget) {s : σ} (here : P s) :
    P (next.turns asked s).2 := by
  induction asked generalizing s with
  | nil => exact here
  | cons memory asked ih => exact ih (kept s memory here)

namespace Working

variable {next : Child σ} {s : σ} {w w' w₁ : Working} {us ds : List Outcome} {es : List Event}
  {t : Except Fault Outcome × Working × σ} {asked : List Budget}

theorem Steps.heard (steps : Steps w [] es [] w₁) (heard : Heard next s asked w₁ t) :
    Heard next s asked w t := by
  refine ⟨heard.after, heard.data, heard.fault, heard.failed, fun o yielded => ?_⟩
  obtain ⟨us, es', ds, given, more, handed⟩ := heard.yields o yielded
  exact ⟨us, es ++ es', ds, given, by simpa using steps.trans more, handed⟩

theorem Steps.heard_after {s₁ : σ} {memory left : Budget} {u : Outcome}
    (turn : next s memory = (.ok u, s₁, left)) (data : ∃ b, u = .data b)
    (steps : Steps w [u] es [] w₁) (heard : Heard next s₁ asked w₁ t) :
    Heard next s (memory :: asked) w t := by
  have results : (next.turns (memory :: asked) s).1 = .ok u :: (next.turns asked s₁).1 := by
    simp [Child.turns, turn]
  constructor
  · simpa [Child.turns, turn] using heard.after
  · intro r member
    rw [results] at member
    rcases others : (next.turns asked s₁).1 with _ | ⟨r', rs⟩ <;> rw [others] at member
    · simp at member
    · rw [List.dropLast_cons_cons, List.mem_cons] at member
      rcases member with rfl | later
      · obtain ⟨b, rfl⟩ := data
        exact ⟨b, rfl⟩
      · exact heard.data r (others ▸ later)
  · intro e member
    rw [results] at member
    exact heard.fault e (by simpa using member)
  · exact heard.failed
  · intro o yielded
    obtain ⟨us, es', ds, given, more, handed⟩ := heard.yields o yielded
    exact ⟨u :: us, es ++ es', ds, by simp [results, given], by simpa using steps.trans more,
      handed⟩

theorem pull_heard (next : Child σ) (patience : Nat) (s : σ) (running : w.phase = .running)
    (awaiting : w.intake = .awaiting) (log : List Budget) :
    ∃ asked, w.pull next.logged patience (s, log) =
        ((w.pull next patience s).1, (w.pull next patience s).2.1,
          ((w.pull next patience s).2.2, log ++ asked)) ∧
      Heard next s asked w (w.pull next patience s) := by
  induction patience generalizing w s log with
  | zero =>
    refine ⟨[], by simp [pull], rfl, by simp [Child.turns], by simp [Child.turns], by simp [pull],
      ?_⟩
    rintro o ⟨⟩
    exact ⟨[], [], [], rfl, (emitted_step w .notYet).steps, .inr ⟨rfl, rfl⟩⟩
  | succ patience ih =>
    rw [pull, pull]
    rcases asked : next s w.memory with ⟨e | u, s₁, memory⟩
    · simp only [Child.logged, asked]
      refine ⟨[w.memory], rfl, ?_, ?_, ?_, ?_, by simp⟩ <;> simp [Child.turns, asked]
    · have others : Step w [] [] [] { w with memory } := .other w.recordCount memory
      have reached := receive_reaches u (w := { w with memory }) running awaiting
      simp only [Child.logged, asked]
      rcases received : receive u { w with memory } with ⟨o | e | _, w₁⟩ <;>
        rw [received] at reached
      · refine ⟨[w.memory], rfl, ?_, ?_, ?_, by simp, ?_⟩
        · simp [Child.turns, asked]
        · simp [Child.turns, asked]
        · simp [Child.turns, asked]
        · rintro o' ⟨⟩
          obtain ⟨es, steps⟩ := reached
          refine ⟨[u], es, [o], by simp [Child.turns, asked], ?_, .inl rfl⟩
          simpa using (others.steps.trans steps).trans (emitted_step w₁ o).steps
      · refine ⟨[w.memory], rfl, ?_, ?_, ?_, ?_, by simp⟩ <;> simp [Child.turns, asked]
      · obtain ⟨⟨es, steps⟩, again⟩ := reached
        obtain ⟨budgets, same, heard⟩ :=
          ih s₁ (steps.phase_running running (by simp)) again (log ++ [w.memory])
        refine ⟨w.memory :: budgets, ?_, ?_⟩
        · refine same.trans ?_
          rw [List.append_assoc]
          rfl
        · exact Steps.heard_after asked (receive_pull received)
            (by simpa using others.steps.trans steps) heard

end Working

namespace Aggregation

variable {a : Aggregation} {next : Child σ} {s : σ} {memory : Budget} {patience : Nat}

theorem advance_heard (next : Child σ) (patience : Nat) (s : σ) (memory : Budget)
    (running : a.phase = .running) :
    Heard next s (a.asks next patience s memory) { a with memory }
      (a.advance next patience s memory) := by
  have reached := Working.poll_reaches { a with memory }
  simp only [advance, asks, running]
  rcases polled : Working.poll { a with memory } with ⟨o | e | _, w₁⟩ <;> rw [polled] at reached
  · obtain ⟨es, steps⟩ := reached
    refine ⟨rfl, by simp [Child.turns], by simp [Child.turns], by simp, ?_⟩
    rintro o' ⟨⟩
    refine ⟨[], es, [o], rfl, ?_, .inl rfl⟩
    simpa using steps.trans (Working.emitted_step w₁ o).steps
  · exact ⟨rfl, by simp [Child.turns], by simp [Child.turns], fun _ _ => ⟨_, rfl⟩, by simp⟩
  · obtain ⟨⟨es, steps⟩, awaiting⟩ := reached
    obtain ⟨asked, same, heard⟩ :=
      Working.pull_heard next patience s (steps.phase_running running (by simp)) awaiting []
    simp only [same, List.nil_append]
    exact steps.heard heard

end Aggregation

namespace Heard

variable {next : Child σ} {s : σ} {asked : List Budget} {w : Working}
  {t : Except Fault Outcome × Working × σ}

theorem phase_finished (heard : Heard next s asked w t) (ended : t.1 = .ok .endOfStream) :
    t.2.1.phase = .finished := by
  obtain ⟨us, es, ds, -, steps, rfl | ⟨-, wait⟩⟩ := heard.yields _ ended
  · exact steps.phase_finished (by simp)
  · cases wait

theorem phase_failed (heard : Heard next s asked w t) {e : Fault} (failed : t.1 = .error e) :
    t.2.1.phase = .failed := by
  obtain ⟨v, same⟩ := heard.failed e failed
  rw [same]
  rfl

theorem phase_ne_closed (heard : Heard next s asked w t) (running : w.phase = .running) :
    t.2.1.phase ≠ .closed := by
  rcases result : t.1 with e | o
  · rw [heard.phase_failed result]
    simp
  · obtain ⟨us, es, ds, -, steps, -⟩ := heard.yields o result
    by_cases ended : .endOfStream ∈ ds
    · rw [steps.phase_finished ended]
      simp
    · rw [steps.phase_running running ended]
      simp

end Heard

/-- Nothing more is to be asked of the child: it has ended, or the work is over. -/
def Aggregation.Spent (a : Aggregation) : Prop := a.phase ≠ .running ∨ a.intake = .ended

def endsRun : Except Fault Outcome → Bool
  | .ok .endOfStream | .error _ => true
  | .ok _ => false

namespace Working

variable {w w' : Working} {us ds : List Outcome} {es : List Event}

theorem Step.spent (step : Step w us es ds w') (spent : w.Spent) : w'.Spent := by
  by_cases handed : .endOfStream ∈ ds
  · refine .inl ?_
    rw [step.phase_finished handed]
    simp
  · rcases spent with stopped | ended
    · exact .inl (step.phase_kept handed ▸ stopped)
    · obtain ⟨-, ⟨-, still⟩ | ⟨finished, -⟩⟩ := step.after_ended ended
      · exact .inr still
      · refine .inl ?_
        rw [finished]
        simp

theorem Steps.spent (steps : Steps w us es ds w') (spent : w.Spent) : w'.Spent := by
  induction steps with
  | refl => exact spent
  | snoc _ step ih => exact step.spent ih

end Working

namespace Heard

variable {next : Child σ} {s : σ} {asked : List Budget} {w : Working}
  {t : Except Fault Outcome × Working × σ}

theorem spent_of_failed (heard : Heard next s asked w t) {e : Fault} (failed : t.1 = .error e) :
    t.2.1.Spent := by
  refine .inl ?_
  rw [heard.phase_failed failed]
  simp

/-- Once nothing more is to be asked for, that stays so. -/
theorem spent (heard : Heard next s asked w t) (spent : w.Spent) : t.2.1.Spent := by
  rcases result : t.1 with e | o
  · exact heard.spent_of_failed result
  · obtain ⟨us, es, ds, -, steps, -⟩ := heard.yields o result
    exact steps.spent spent

/-- When the child has ended or failed, nothing more is to be asked for. -/
theorem spent_of_ends (heard : Heard next s asked w t) (running : w.phase = .running)
    {r : Except Fault Outcome} (given : r ∈ (next.turns asked s).1) (ends : endsRun r = true) :
    t.2.1.Spent := by
  rcases result : t.1 with e | o
  · exact heard.spent_of_failed result
  · obtain ⟨us, es, ds, results, steps, -⟩ := heard.yields o result
    rw [results, List.mem_map] at given
    obtain ⟨u, member, rfl⟩ := given
    obtain rfl : u = .endOfStream := by
      cases u with
      | endOfStream => rfl
      | _ => cases ends
    by_cases ended : w.intake = .ended
    · exact steps.spent (.inr ended)
    · cases steps.ending running ended with
      | going _ _ given => exact absurd member given
      | ended _ ended => exact .inr ended
      | finished finished =>
        refine .inl ?_
        rw [finished]
        simp

end Heard

namespace Aggregation

variable {a : Aggregation}

/-- A turn when the work is over leaves the child alone. -/
theorem advance_over (next : Child σ) (patience : Nat) (s : σ) (memory : Budget)
    (stopped : a.phase ≠ .running) :
    a.asks next patience s memory = [] ∧
      (a.advance next patience s memory).2 = ({ a with memory }, s) := by
  unfold asks advance
  cases phase : a.phase with
  | running => exact absurd phase stopped
  | finished | failed | closed => exact ⟨rfl, rfl⟩

/-- What every turn of the child keeps of its state, a turn of the aggregation keeps. -/
theorem advance_keeps {next : Child σ} {P : σ → Prop} {s : σ} (a : Aggregation)
    (kept : ∀ s memory, P s → P (next s memory).2.1) (here : P s) (patience : Nat)
    (memory : Budget) : P (a.advance next patience s memory).2.2 := by
  by_cases running : a.phase = .running
  · have heard := advance_heard next patience s memory running
    rw [← heard.after]
    exact Child.turns_keep kept _ here
  · rw [(advance_over next patience s memory running).2]
    exact here

theorem Spent.asks_eq_nil (spent : a.Spent) (next : Child σ) (patience : Nat) (s : σ)
    (memory : Budget) : a.asks next patience s memory = [] := by
  by_cases running : a.phase = .running
  · have ended : a.intake = .ended := spent.resolve_left (not_not_intro running)
    have polled : Working.poll { a with memory } = Working.finish { a with memory } := by
      simp only [Working.poll, ended]
    simp only [asks, advance, running, polled]
    rcases turn : Working.finish { a with memory } with ⟨_ | _ | _, w⟩
    · rfl
    · rfl
    · exact absurd turn Working.finish_ne_pull
  · exact (advance_over next patience s memory running).1

end Aggregation
end BatchFlow

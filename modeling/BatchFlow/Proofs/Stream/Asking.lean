import BatchFlow.Proofs.Stream.Demand

/-!
A turn of an aggregation together with the turns of its child that it takes. The child can be any
state that gives outcomes, as long as a measure bounds how much data it has left.
-/
namespace BatchFlow

variable {σ : Type}

/-- A state that gives outcomes, and may charge a budget for it. -/
abbrev Child (σ : Type) := σ → Budget → Except Fault Outcome × σ × Budget

namespace Child

def turns (next : Child σ) : List Budget → σ → List (Except Fault Outcome) × σ
  | [], s => ([], s)
  | memory :: rest, s =>
    let (result, s, _) := next s memory
    let (results, s) := turns next rest s
    (result :: results, s)

def logged (next : Child σ) : Child (σ × List Budget) := fun (s, log) memory =>
  let (result, s, left) := next s memory
  (result, (s, log ++ [memory]), left)

/-- A measure of the data that a child has left, for states that are sound. -/
structure Measured (next : Child σ) (sound : σ → Prop) (μ : σ → Nat) : Prop where
  turn {s s' memory left o} :
    sound s → next s memory = (.ok o, s', left) → sound s' ∧ o.Within (μ s) (μ s')

theorem turns_cons {next : Child σ} {memory : Budget} {asked : List Budget} {s s' : σ}
    {us : List Outcome} (given : next.turns (memory :: asked) s = (us.map .ok, s')) :
    ∃ u rest s₁ left, us = u :: rest ∧ next s memory = (.ok u, s₁, left) ∧
      next.turns asked s₁ = (rest.map .ok, s') := by
  rcases first : next s memory with ⟨result, s₁, left⟩
  simp only [turns, first, Prod.mk.injEq] at given
  cases us with
  | nil => simp at given
  | cons u rest =>
    simp only [List.map_cons, List.cons.injEq] at given
    obtain ⟨⟨rfl, others⟩, rfl⟩ := given
    exact ⟨u, rest, s₁, left, rfl, rfl, Prod.ext others rfl⟩

theorem Measured.spends {next : Child σ} {sound : σ → Prop} {μ : σ → Nat}
    (measured : next.Measured sound μ) {asked : List Budget} {s s' : σ} {us : List Outcome}
    (here : sound s) (given : next.turns asked s = (us.map .ok, s')) :
    sound s' ∧ Spends us (μ s) (μ s') := by
  induction asked generalizing s us with
  | nil =>
    simp only [turns, Prod.mk.injEq] at given
    obtain ⟨none, rfl⟩ := given
    obtain rfl := List.map_eq_nil_iff.mp none.symm
    exact ⟨here, Nat.le_refl _⟩
  | cons memory asked ih =>
    obtain ⟨u, rest, s₁, left, rfl, first, others⟩ := turns_cons given
    obtain ⟨next, within⟩ := measured.turn here first
    obtain ⟨sound', spent⟩ := ih next others
    exact ⟨sound', _, within, spent⟩

end Child

/-- What one turn of an aggregation takes of its child: the budgets with which it asks, and the
outcomes given, of which only the last can be something else than data. -/
structure Asked (next : Child σ) (s : σ) (asked : List Budget) (us : List Outcome) (s' : σ) :
    Prop where
  given : next.turns asked s = (us.map .ok, s')
  data : ∀ u ∈ us.dropLast, ∃ b, u = .data b

namespace Asked

variable {next : Child σ} {s s₁ s' : σ} {memory left : Budget} {asked : List Budget}
  {u : Outcome} {us : List Outcome}

theorem of_no_turn (next : Child σ) (s : σ) : Asked next s [] [] s := ⟨rfl, by simp⟩

theorem of_turn (turn : next s memory = (.ok u, s', left)) : Asked next s [memory] [u] s' :=
  ⟨by simp [Child.turns, turn], by simp⟩

theorem cons_data {b : Batch} (turn : next s memory = (.ok (.data b), s₁, left))
    (others : Asked next s₁ asked us s') : Asked next s (memory :: asked) (.data b :: us) s' := by
  refine ⟨by simp [Child.turns, turn, others.given], ?_⟩
  intro u member
  cases us with
  | nil => simp at member
  | cons v vs =>
    rw [List.dropLast_cons_cons, List.mem_cons] at member
    rcases member with rfl | later
    · exact ⟨b, rfl⟩
    · exact others.data u later

end Asked

namespace Working

variable {w w' : Working} {o : Outcome} {next : Child σ} {sound : σ → Prop} {μ : σ → Nat} {s s' : σ}

theorem emitted_step (w : Working) (o : Outcome) : Step w [] [] [] (w.emitted o) :=
  .other o.recordCount w.memory

/-- Asking comes to an outcome by small steps before patience runs out, and is the same whether the
child writes the budgets down or not. -/
theorem pull_steps (measured : next.Measured sound μ) {patience : Nat} (enough : μ s < patience)
    (here : sound s) (running : w.phase = .running) (awaiting : w.intake = .awaiting)
    (turn : w.pull next patience s = (.ok o, w', s')) (log : List Budget) :
    ∃ asked us es, w.pull next.logged patience (s, log) = (.ok o, w', (s', log ++ asked)) ∧
      Asked next s asked us s' ∧ Steps w us es [o] w' := by
  induction patience generalizing w s log with
  | zero => cases enough
  | succ patience ih =>
    rw [pull] at turn ⊢
    rcases asked : next s w.memory with ⟨e | u, s₁, memory⟩
    · simp [asked] at turn
    · have others : Step w [] [] [] { w with memory } := .other w.recordCount memory
      have reached := others.steps.reaches
        (receive_reaches u (w := { w with memory }) running awaiting)
      simp only [asked, Child.logged] at turn ⊢
      rcases received : receive u { w with memory } with ⟨o' | e | _, w₁⟩
      · rw [received] at turn reached
        simp only [Prod.mk.injEq, Except.ok.injEq] at turn
        obtain ⟨rfl, rfl, rfl⟩ := turn
        obtain ⟨es, steps⟩ := reached
        refine ⟨[w.memory], [u], es, rfl, .of_turn asked, ?_⟩
        simpa using steps.trans (emitted_step w₁ o').steps
      · simp [received] at turn
      · obtain ⟨b, rfl⟩ := receive_pull received
        rw [received] at turn reached
        obtain ⟨⟨es, steps⟩, again⟩ := reached
        obtain ⟨here₁, -, less⟩ := measured.turn here asked
        obtain ⟨budgets, us, es', same, given, more⟩ :=
          ih (by omega) here₁ (steps.phase_running running (by simp)) again turn (log ++ [w.memory])
        refine ⟨w.memory :: budgets, .data b :: us, es ++ es', ?_, .cons_data asked given, ?_⟩
        · refine same.trans ?_
          rw [List.append_assoc]
          rfl
        · simpa using steps.trans more

end Working

namespace Aggregation

variable {a : Aggregation} {w' : Working} {o : Outcome} {next : Child σ} {sound : σ → Prop}
  {μ : σ → Nat} {s s' : σ} {memory : Budget} {patience : Nat}

def asks (next : Child σ) (patience : Nat) (a : Aggregation) (s : σ) (memory : Budget) :
    List Budget :=
  (a.advance next.logged patience (s, []) memory).2.2.2

/-- A turn is made of small steps over the outcomes for which it asks; it asks only when nothing is
left at hand and nothing has been handed on. -/
theorem advance_steps (measured : next.Measured sound μ) (enough : μ s < patience) (here : sound s)
    (running : a.phase = .running) (turn : a.advance next patience s memory = (.ok o, w', s')) :
    ∃ us es, Asked next s (a.asks next patience s memory) us s' ∧
      Working.Steps { a with memory } us es [o] w' ∧
      (us ≠ [] → ∃ es w, Working.Steps { a with memory } [] es [] w ∧ w.intake = .awaiting) := by
  simp only [advance, asks, running] at turn ⊢
  have reached := Working.poll_reaches { a with memory }
  rcases polled : Working.poll { a with memory } with ⟨o' | e | _, w₁⟩
  · rw [polled] at turn reached
    simp only [Prod.mk.injEq, Except.ok.injEq] at turn
    obtain ⟨rfl, rfl, rfl⟩ := turn
    obtain ⟨es, steps⟩ := reached
    refine ⟨[], es, .of_no_turn next s, ?_, by simp⟩
    simpa using steps.trans (Working.emitted_step w₁ o').steps
  · simp [polled] at turn
  · rw [polled] at turn reached
    obtain ⟨⟨es, steps⟩, awaiting⟩ := reached
    obtain ⟨asked, us, es', same, given, more⟩ :=
      Working.pull_steps measured enough here (steps.phase_running running (by simp)) awaiting turn []
    refine ⟨us, es ++ es', ?_, ?_, fun _ => ⟨es, w₁, steps, awaiting⟩⟩
    · simp only [same, List.nil_append]
      exact given
    · simpa using steps.trans more

theorem advance_ended (ended : a.phase ≠ .running)
    (turn : a.advance next patience s memory = (.ok o, w', s')) :
    a.phase = .finished ∧ o = .endOfStream ∧ w' = { a with memory } ∧ s' = s := by
  unfold advance at turn
  cases phase : a.phase with
  | running => exact absurd phase ended
  | finished =>
    simp only [phase, Prod.mk.injEq, Except.ok.injEq] at turn
    exact ⟨rfl, turn.1.symm, turn.2.1.symm, turn.2.2.symm⟩
  | failed | closed => simp [phase] at turn

end Aggregation
end BatchFlow

import BatchFlow.Proofs.Stream.AnyChild
import BatchFlow.Proofs.Stream.Pressure

/-!
What a turn of an aggregation does to a budget that it shares. It charges the rows that it keeps and
gives back what it held for the rows that it hands on or gives up; what others hold is left alone,
also where the turn fails halfway.
-/
namespace BatchFlow

/-- Outcomes after which no finished row is kept. -/
def Outcome.clears : Outcome → Bool
  | data _ | endOfGroup _ | endOfStream => true
  | newSchema _ | notYet => false

def clearing : Except Fault Outcome → Bool
  | .ok o => o.clears
  | .error _ => true

namespace Working

/-- Whatever others hold of the budget, they still hold. -/
def Spares (w w' : Working) : Prop :=
  ∀ n, w.memory.allocated = n + w.held → w'.memory.allocated = n + w'.held

variable {w w' w₁ : Working} {t : Turn × Working} {next : Working → Turn × Working}

theorem Spares.refl (w : Working) : w.Spares w := fun _ => id

theorem Spares.trans (first : w.Spares w₁) (then' : w₁.Spares w') : w.Spares w' :=
  fun n => then' n ∘ first n

theorem closeGroup_spares (w : Working) : w.Spares w.closeGroup.2 := by
  unfold closeGroup
  cases w.openKey with
  | none => exact .refl w
  | some key =>
    intro n before
    simp only
    rcases charged : w.memory.charge (w.fold.finish key).1.footprint with ⟨e | _, memory⟩
    · obtain ⟨-, -, rfl⟩ := Budget.charge_error charged
      exact before
    · obtain ⟨-, rfl⟩ := Budget.charge_ok charged
      simp only
      omega

theorem release_spares (w : Working) : w.Spares w.release := by
  intro n before
  simp only [release, Budget.release]
  omega

theorem failed_spares (w : Working) : w.Spares w.failed :=
  release_spares { w with phase := .failed, recordCount := 0 }

theorem openDefault_spares (w : Working) : w.Spares w.openDefault := by
  unfold openDefault
  split <;> exact .refl w

theorem takeRow_spares (row : Row) (w : Working) : w.Spares (w.takeRow row).2 := by
  have closes := closeGroup_spares w
  unfold takeRow
  split
  · exact .refl w
  · split
    · exact .refl w
    · split
      · exact .refl w
      · rcases closed : w.closeGroup with ⟨_ | _, w₁⟩ <;> rw [closed] at closes <;> exact closes

theorem read_spares (rows : List (Except Fault Row)) (w : Working) :
    w.Spares (read rows w).2 := by
  induction rows generalizing w with
  | nil => exact .refl w
  | cons r rest ih =>
    cases r with
    | error e => exact .refl w
    | ok row =>
      have takes := takeRow_spares row w
      rw [read]
      rcases taken : w.takeRow row with ⟨e | ⟨_ | _⟩, w₁⟩ <;> rw [taken] at takes
      · exact takes
      · exact takes
      · exact takes.trans (ih w₁)

/-- What a turn that begins in `w` comes to: others are left alone, and no rows are kept behind an
outcome that clears. -/
structure Settles (w : Working) (t : Turn × Working) : Prop where
  spares : w.Spares t.2
  cleared : ∀ o, t.1 = .emit o → o.clears = true → t.2.rows = []

theorem Settles.of_spares (settles : Settles w₁ t) (before : w.Spares w₁) : Settles w t :=
  ⟨before.trans settles.spares, settles.cleared⟩

theorem flush_settles (wrap : Batch → Outcome) (w : Working) : Settles w (w.flush wrap) := by
  unfold flush
  split
  · exact ⟨.refl w, nofun⟩
  · split
    · exact ⟨.refl w, nofun⟩
    · refine ⟨?_, fun _ _ _ => rfl⟩
      intro n before
      exact release_spares w n before

theorem closing_settles (w : Working) (others : ∀ w, Settles w (next w)) :
    Settles w (w.closing next) := by
  have closes := closeGroup_spares w
  unfold closing
  rcases closed : w.closeGroup with ⟨e | _, w₁⟩ <;> rw [closed] at closes
  · exact ⟨closes, nofun⟩
  · exact (others w₁).of_spares closes

theorem endGroup_settles (w : Working) : Settles w w.endGroup := by
  refine Settles.of_spares ?_ (openDefault_spares w)
  unfold endGroup
  simp only
  split
  · exact (flush_settles .data { w.openDefault with intake := .reading [] true }).of_spares
      (.refl w.openDefault)
  · refine closing_settles _ fun w => ?_
    exact (flush_settles .endOfGroup { w with
      fold := w.fold.restart
      groupEmitted := false
      boundarySeen := true }).of_spares (.refl w)

theorem readOn_settles (rows : List (Except Fault Row)) (closes : Bool) (w : Working) :
    Settles w (readOn rows closes w) := by
  have reads : w.Spares (read rows { w with intake := .awaiting }).2 :=
    read_spares rows { w with intake := .awaiting }
  unfold readOn
  rcases result : read rows { w with intake := .awaiting } with ⟨_ | rest | e, w₁⟩ <;>
    rw [result] at reads
  · cases closes with
    | false => exact ⟨reads, nofun⟩
    | true => exact (endGroup_settles w₁).of_spares reads
  · have flushed := flush_settles .data { w₁ with intake := .reading rest closes }
    exact flushed.of_spares reads
  · exact ⟨reads, nofun⟩

theorem finish_settles (w : Working) : Settles w w.finish := by
  have before : w.Spares w.lastDefault := by
    unfold lastDefault
    split
    · exact .refl w
    · exact openDefault_spares w
  refine Settles.of_spares ?_ before
  change Settles w.lastDefault
    (if w.lastDefault.isBlocked then flush .data w.lastDefault else w.lastDefault.closing _)
  split
  · exact flush_settles .data w.lastDefault
  · refine closing_settles _ fun w => ?_
    split
    · exact ⟨release_spares { w with phase := .finished }, fun _ _ _ => rfl⟩
    · exact flush_settles .data w

theorem layOut_settles (d : Delivery) (w : Working) : Settles w (layOut d w) := by
  unfold layOut
  split
  · exact ⟨.refl w, nofun⟩
  · refine ⟨.refl w, ?_⟩
    rintro o ⟨⟩ clears
    cases clears

theorem accept_settles (d : Delivery) (w : Working) : Settles w (accept d w) := by
  unfold accept
  simp only
  split
  · exact ⟨.refl w, nofun⟩
  · split
    · split
      · split
        · exact ⟨.refl w, nofun⟩
        · refine ⟨.refl w, ?_⟩
          rintro o ⟨⟩ clears
          cases clears
      · exact readOn_settles d.batch.readings false w
      · exact readOn_settles d.batch.readings true w
    · split
      · split
        · exact (flush_settles .data { w with intake := .holding d }).of_spares (.refl w)
        · exact (closing_settles { w with intake := .holding d } (flush_settles .data)).of_spares
            (.refl w)
      · exact layOut_settles d w

theorem poll_settles (w : Working) : Settles w w.poll := by
  unfold poll
  split
  · exact ⟨.refl w, nofun⟩
  · exact readOn_settles _ _ w
  next d _ => exact (accept_settles d { w with intake := .awaiting }).of_spares (.refl w)
  · exact finish_settles w

theorem receive_settles (u : Outcome) (w : Working) : Settles w (receive u w) := by
  cases u with
  | newSchema b => exact accept_settles ⟨.newSchema, b⟩ w
  | data b => exact accept_settles ⟨.data, b⟩ w
  | endOfGroup b => exact accept_settles ⟨.endOfGroup, b⟩ w
  | notYet =>
    refine ⟨.refl w, ?_⟩
    rintro o ⟨⟩ clears
    cases clears
  | endOfStream => exact (finish_settles { w with intake := .ended }).of_spares (.refl w)

end Working

variable {σ : Type} {next : Child σ} {own : σ → Nat}

/-- A child that holds bytes of the budget as well, as many as `own` says, and spares others. -/
def Child.Accounts (next : Child σ) (own : σ → Nat) : Prop :=
  ∀ n s memory, memory.allocated = n + own s →
    (next s memory).2.2.allocated = n + own (next s memory).2.1

structure TurnSettles (own : σ → Nat) (w : Working) (s : σ)
    (t : Except Fault Outcome × Working × σ) : Prop where
  spares : ∀ n, w.memory.allocated = n + w.held + own s →
    t.2.1.memory.allocated = n + t.2.1.held + own t.2.2
  cleared : clearing t.1 = true → t.2.1.rows = []

namespace Working

theorem Spares.allocated_eq {w w' : Working} (spares : w.Spares w') {n m : Nat}
    (before : w.memory.allocated = n + w.held + m) :
    w'.memory.allocated = n + w'.held + m := by
  have after := spares (n + m) (by omega)
  omega

theorem pull_settles (accounts : next.Accounts own) (patience : Nat) (w : Working) (s : σ) :
    TurnSettles own w s (w.pull next patience s) := by
  induction patience generalizing w s with
  | zero => exact ⟨fun _ => id, nofun⟩
  | succ patience ih =>
    -- To the child, the bytes of the aggregation are held by others.
    have paid (n : Nat) := accounts (n + w.held) s w.memory
    rw [pull]
    rcases asked : next s w.memory with ⟨e | u, s₁, memory⟩ <;> rw [asked] at paid
    · have spared := failed_spares { w with memory }
      exact ⟨fun n before => spared.allocated_eq (paid n before), fun _ => rfl⟩
    · have settles := receive_settles u { w with memory }
      simp only
      rcases received : receive u { w with memory } with ⟨o | e | _, w₁⟩ <;>
        rw [received] at settles
      · exact ⟨fun n before => settles.spares.allocated_eq (paid n before), settles.cleared o rfl⟩
      · exact ⟨fun n before => (settles.spares.trans (failed_spares w₁)).allocated_eq (paid n before),
          fun _ => rfl⟩
      · have others := ih w₁ s₁
        exact ⟨fun n before => others.spares n (settles.spares.allocated_eq (paid n before)),
          others.cleared⟩

end Working

namespace Aggregation

variable {a : Aggregation}

theorem advance_settles (accounts : next.Accounts own) (patience : Nat) (s : σ) (memory : Budget)
    (running : a.phase = .running) :
    TurnSettles own { a with memory } s (a.advance next patience s memory) := by
  have settles := Working.poll_settles { a with memory }
  unfold advance
  simp only [running]
  rcases polled : Working.poll { a with memory } with ⟨o | e | _, w₁⟩ <;> rw [polled] at settles
  · exact ⟨fun n before => settles.spares.allocated_eq before, settles.cleared o rfl⟩
  · exact ⟨fun n before => (settles.spares.trans (Working.failed_spares w₁)).allocated_eq before,
      fun _ => rfl⟩
  · have others := Working.pull_settles accounts patience w₁ s
    exact ⟨fun n before => others.spares n (settles.spares.allocated_eq before), others.cleared⟩

theorem advance_spares (accounts : next.Accounts own) (patience : Nat) (s : σ) (memory : Budget)
    {n : Nat} (before : memory.allocated = n + a.held + own s) :
    (a.advance next patience s memory).2.1.memory.allocated =
      n + (a.advance next patience s memory).2.1.held +
        own (a.advance next patience s memory).2.2 := by
  by_cases running : a.phase = .running
  · exact (advance_settles accounts patience s memory running).spares n before
  · rw [(advance_over next patience s memory running).2]
    exact before

/-- What holds of an aggregation between turns: the bytes held are those of the rows kept, and no
rows are kept when the work is over. -/
structure Balanced (a : Aggregation) : Prop where
  weighed : a.held = Row.footprints a.rows
  stopped : a.phase ≠ .running → a.rows = []

theorem Balanced.held_of_rows (balanced : a.Balanced) (none : a.rows = []) : a.held = 0 := by
  rw [balanced.weighed, none]
  rfl

/-- Turns keep the balance, and no rows are kept behind a result that clears. -/
theorem Balanced.advance_balanced (balanced : a.Balanced) (accounts : next.Accounts own)
    (patience : Nat) (s : σ) (memory : Budget) :
    (a.advance next patience s memory).2.1.Balanced ∧
      (clearing (a.advance next patience s memory).1 = true →
        (a.advance next patience s memory).2.1.rows = []) := by
  by_cases running : a.phase = .running
  · have heard := advance_heard next patience s memory running
    have settles := advance_settles accounts patience s memory running
    refine ⟨?_, settles.cleared⟩
    rcases result : (a.advance next patience s memory).1 with e | o
    · obtain ⟨v, same⟩ := heard.failed e result
      rw [same]
      exact ⟨rfl, fun _ => rfl⟩
    · obtain ⟨us, es, ds, -, steps, handed⟩ := heard.yields o result
      refine ⟨steps.weighed balanced.weighed, fun stopped => ?_⟩
      by_cases ended : .endOfStream ∈ ds
      · obtain rfl : o = .endOfStream := by
          rcases handed with rfl | ⟨rfl, -⟩
          · exact (List.mem_singleton.mp ended).symm
          · cases ended
        exact settles.cleared (by rw [result]; rfl)
      · exact absurd (steps.phase_running running ended) stopped
  · rw [(advance_over next patience s memory running).2]
    exact ⟨⟨balanced.weighed, balanced.stopped⟩, fun _ => balanced.stopped running⟩

end Aggregation

end BatchFlow

import BatchFlow.Proofs.Stream.Faults

/-!
A turn under two limits. What a turn of an aggregation comes to depends on the limit of its budget
in one way only: a charge may be refused. As long as none is, and the most that was ever charged is
below another limit, the turn is the same under that limit.
-/
namespace BatchFlow

def Budget.withLimit (b : Budget) (limit : Nat) : Budget := { b with limit }

theorem Budget.charge_withLimit {b b' : Budget} {bytes limit : Nat}
    (h : b.charge bytes = (.ok (), b')) (below : b'.peak ≤ limit) :
    (b.withLimit limit).charge bytes = (.ok (), b'.withLimit limit) := by
  obtain ⟨-, rfl⟩ := charge_ok h
  have most : b.allocated + bytes ≤ limit := Nat.le_trans (Nat.le_max_right ..) below
  have fits : ¬(b.withLimit limit).available < bytes := by
    simp only [available, withLimit]
    omega
  unfold charge
  rw [if_neg fits]
  rfl

namespace Working

def withLimit (w : Working) (limit : Nat) : Working :=
  { w with memory := w.memory.withLimit limit }

/-- What is charged is what the rows kept hold, and it was never more than the limit. -/
structure Solvent (w : Working) : Prop where
  bytes : w.memory.allocated = w.held
  below : w.memory.allocated ≤ w.memory.limit
  peak : w.memory.peak ≤ w.memory.limit

structure Pays (w w' : Working) : Prop where
  limit : w'.memory.limit = w.memory.limit
  peak : w.memory.peak ≤ w'.memory.peak
  solvent : w.Solvent → w'.Solvent

variable {w w' w₁ : Working} {limit : Nat} {ρ ρ' : Type} {fault : Fault → ρ} {fault' : Fault → ρ'}
  {r : ρ} {t t' : ρ × Working}

theorem Pays.refl (w : Working) : w.Pays w := ⟨rfl, Nat.le_refl _, id⟩

theorem Pays.trans (first : w.Pays w₁) (then' : w₁.Pays w') : w.Pays w' :=
  ⟨then'.limit.trans first.limit, Nat.le_trans first.peak then'.peak,
    then'.solvent ∘ first.solvent⟩

theorem Pays.of_memory (memory : w'.memory = w.memory) (held : w'.held = w.held) : w.Pays w' := by
  refine ⟨by rw [memory], Nat.le_of_eq (by rw [memory]), fun solvent => ⟨?_, ?_, ?_⟩⟩
  · rw [memory, held]
    exact solvent.bytes
  · rw [memory]
    exact solvent.below
  · rw [memory]
    exact solvent.peak

/-- The result `t` of an operation on a state, and its result `t'` on the same state under another
limit: unless a charge was refused, or more was charged than the other limit allows, they are the
same. -/
structure Withstands (fault : Fault → ρ) (limit : Nat) (w : Working) (t t' : ρ × Working) : Prop where
  pays : w.Pays t.2
  same : (∀ e, t.1 = fault e → e.code ≠ .allocationFailed) → t.2.memory.peak ≤ limit →
    t' = (t.1, t.2.withLimit limit)

theorem Withstands.of_memory_eq (memory : w'.memory = w.memory) (held : w'.held = w.held) :
    Withstands fault limit w (r, w') (r, w'.withLimit limit) :=
  ⟨.of_memory memory held, fun _ _ => rfl⟩

theorem Withstands.and_then {u u' v' : ρ' × Working}
    (first : Withstands fault limit w (r, w₁) t') (next : Withstands fault' limit w₁ u u')
    (passed : ∀ e, r = fault e → u.1 = fault' e) (other : t' = (r, w₁.withLimit limit) → v' = u') :
    Withstands fault' limit w u v' := by
  refine ⟨first.pays.trans next.pays, fun granted below => ?_⟩
  have unrefused : ∀ e, r = fault e → e.code ≠ .allocationFailed := by
    intro e refused
    exact granted e (passed e refused)
  rw [other (first.same unrefused (Nat.le_trans next.pays.peak below))]
  exact next.same granted below

theorem Withstands.of_pays (next : Withstands fault limit w₁ t t') (before : w.Pays w₁) :
    Withstands fault limit w t t' :=
  ⟨before.trans next.pays, next.same⟩

theorem Withstands.of_start_eq (next : Withstands fault limit w₁ t t') (memory : w₁.memory = w.memory)
    (held : w₁.held = w.held) : Withstands fault limit w t t' :=
  next.of_pays (.of_memory memory held)

theorem closeGroup_withstands (w : Working) (limit : Nat) :
    Withstands .error limit w w.closeGroup (w.withLimit limit).closeGroup := by
  unfold closeGroup
  have opened : (w.withLimit limit).openKey = w.openKey := rfl
  rw [opened]
  cases w.openKey with
  | none => exact .of_memory_eq rfl rfl
  | some key =>
    have finished : (w.withLimit limit).fold.finish key = w.fold.finish key := rfl
    simp only [finished]
    rcases charged : w.memory.charge (w.fold.finish key).1.footprint with ⟨e | _, memory⟩
    · obtain ⟨-, rfl, rfl⟩ := Budget.charge_error charged
      refine ⟨⟨rfl, Nat.le_refl _, fun ⟨bytes, below, peak⟩ => ⟨bytes, below, peak⟩⟩, ?_⟩
      intro granted
      exact absurd rfl (granted _ rfl)
    · refine ⟨?_, fun _ below => ?_⟩
      · obtain ⟨fits, rfl⟩ := Budget.charge_ok charged
        simp only [Budget.available] at fits
        refine ⟨rfl, Nat.le_max_left .., fun ⟨bytes, below, peak⟩ => ⟨?_, ?_, ?_⟩⟩
        · simp only [bytes]
        · simp only
          omega
        · simp only
          omega
      · simp only [withLimit, Budget.charge_withLimit charged below]

variable {row : Row} {rows : List (Except Fault Row)} {closes : Bool} {d : Delivery}

theorem takeRow_withstands (row : Row) (w : Working) (limit : Nat) :
    Withstands .error limit w (w.takeRow row) ((w.withLimit limit).takeRow row) := by
  have keyed : (w.withLimit limit).fold.key row = w.fold.key row := rfl
  have continued : (w.withLimit limit).continues = w.continues := rfl
  have blocked : (w.withLimit limit).isBlocked = w.isBlocked := rfl
  unfold takeRow
  rw [keyed, continued, blocked]
  cases w.fold.key row with
  | error e => exact .of_memory_eq rfl rfl
  | ok key =>
    simp only
    split
    · exact .of_memory_eq rfl rfl
    · split
      · exact .of_memory_eq rfl rfl
      · have first := closeGroup_withstands w limit
        rcases closed : w.closeGroup with ⟨_ | _, w₁⟩ <;> rw [closed] at first
        · refine first.and_then (.of_memory_eq rfl rfl) (fun e refused => refused ▸ rfl) fun h => ?_
          rw [h]
        · exact first.and_then (.of_memory_eq rfl rfl) (by simp) fun h => by rw [h]; rfl

theorem read_withstands (rows : List (Except Fault Row)) (w : Working) (limit : Nat) :
    Withstands .fault limit w (read rows w) (read rows (w.withLimit limit)) := by
  induction rows generalizing w with
  | nil => exact .of_memory_eq rfl rfl
  | cons r rest ih =>
    cases r with
    | error e => exact .of_memory_eq rfl rfl
    | ok row =>
      have first := takeRow_withstands row w limit
      rw [read, read]
      rcases taken : w.takeRow row with ⟨e | ⟨_ | _⟩, w₁⟩ <;> rw [taken] at first
      · exact first.and_then (.of_memory_eq rfl rfl) (by rintro e' ⟨⟩; rfl) fun h => by rw [h]
      · exact first.and_then (.of_memory_eq rfl rfl) (by simp) fun h => by rw [h]
      · exact first.and_then (ih w₁) (by simp) fun h => by rw [h]

theorem release_pays (w : Working) : w.Pays w.release := by
  refine ⟨rfl, Nat.le_refl _, fun ⟨bytes, below, peak⟩ => ⟨?_, ?_, peak⟩⟩
  · simp only [release, Budget.release]
    omega
  · simp only [release, Budget.release]
    omega

theorem flush_withstands (wrap : Batch → Outcome) (w : Working) (limit : Nat) :
    Withstands .fail limit w (w.flush wrap) ((w.withLimit limit).flush wrap) := by
  have output : (w.withLimit limit).outputSchema = w.outputSchema := rfl
  have rows : (w.withLimit limit).rows = w.rows := rfl
  unfold flush
  rw [output, rows]
  cases w.outputSchema with
  | none => exact .of_memory_eq rfl rfl
  | some schema =>
    simp only
    cases Batch.ofRows schema w.rows with
    | error e => exact .of_memory_eq rfl rfl
    | ok b =>
      obtain ⟨limit', peak, solvent⟩ := release_pays w
      exact ⟨⟨limit', peak, fun before => ⟨(solvent before).bytes, (solvent before).below,
        (solvent before).peak⟩⟩, fun _ _ => rfl⟩

theorem closing_withstands {next : Working → Turn × Working} (w : Working)
    (others : ∀ w, Withstands .fail limit w (next w) (next (w.withLimit limit))) :
    Withstands .fail limit w (w.closing next) ((w.withLimit limit).closing next) := by
  have first := closeGroup_withstands w limit
  unfold closing
  rcases closed : w.closeGroup with ⟨e | _, w₁⟩ <;> rw [closed] at first
  · refine first.and_then (.of_memory_eq rfl rfl) (fun e refused => by cases refused; rfl) fun h => ?_
    rw [h]
  · exact first.and_then (others w₁) (by simp) fun h => by rw [h]

theorem openDefault_withLimit (w : Working) (limit : Nat) :
    (w.withLimit limit).openDefault = w.openDefault.withLimit limit := by
  have cond : ((w.withLimit limit).fold.hasKeys || (w.withLimit limit).openKey.isSome ||
      (w.withLimit limit).groupEmitted || (w.withLimit limit).outputSchema.isNone) =
        (w.fold.hasKeys || w.openKey.isSome || w.groupEmitted || w.outputSchema.isNone) := rfl
  unfold openDefault
  rw [cond]
  split <;> rfl

theorem openDefault_pays (w : Working) : w.Pays w.openDefault := by
  unfold openDefault
  split <;> exact .of_memory rfl rfl

theorem endGroup_withstands (w : Working) (limit : Nat) :
    Withstands .fail limit w w.endGroup (w.withLimit limit).endGroup := by
  unfold endGroup
  simp only [openDefault_withLimit]
  apply Withstands.of_pays _ (openDefault_pays w)
  have blocked : (w.openDefault.withLimit limit).isBlocked = w.openDefault.isBlocked := rfl
  rw [blocked]
  split
  · have flushed := flush_withstands .data { w.openDefault with intake := .reading [] true } limit
    exact flushed.of_start_eq rfl rfl
  · apply closing_withstands
    intro w
    exact (flush_withstands .endOfGroup { w with
      fold := w.fold.restart
      groupEmitted := false
      boundarySeen := true } limit).of_start_eq rfl rfl

theorem readOn_withstands (rows : List (Except Fault Row)) (closes : Bool) (w : Working)
    (limit : Nat) :
    Withstands .fail limit w (readOn rows closes w) (readOn rows closes (w.withLimit limit)) := by
  have first : Withstands .fault limit w (read rows { w with intake := .awaiting })
      (read rows (withLimit { w with intake := .awaiting } limit)) :=
    (read_withstands rows { w with intake := .awaiting } limit).of_start_eq rfl rfl
  have other : { w.withLimit limit with intake := .awaiting } =
      withLimit { w with intake := .awaiting } limit := rfl
  unfold readOn
  rw [other]
  rcases result : read rows { w with intake := .awaiting } with ⟨_ | rest | e, w₁⟩ <;>
    rw [result] at first
  · cases closes with
    | false => exact first.and_then (.of_memory_eq rfl rfl) (by simp) fun h => by rw [h]; rfl
    | true => exact first.and_then (endGroup_withstands w₁ limit) (by simp) fun h => by rw [h]; rfl
  · have next := flush_withstands .data { w₁ with intake := .reading rest closes } limit
    exact first.and_then (next.of_start_eq rfl rfl) (by simp) fun h => by rw [h]; rfl
  · exact first.and_then (.of_memory_eq rfl rfl) (by rintro e' ⟨⟩; rfl) fun h => by rw [h]

theorem finish_withstands (w : Working) (limit : Nat) :
    Withstands .fail limit w w.finish (w.withLimit limit).finish := by
  have default : (w.withLimit limit).lastDefault = w.lastDefault.withLimit limit := by
    have seen : (w.withLimit limit).boundarySeen = w.boundarySeen := rfl
    unfold lastDefault
    rw [seen, openDefault_withLimit]
    split <;> rfl
  have before : w.Pays w.lastDefault := by
    unfold lastDefault
    split
    · exact .refl w
    · exact openDefault_pays w
  have other : (w.withLimit limit).finish =
      if (w.lastDefault.withLimit limit).isBlocked then flush .data (w.lastDefault.withLimit limit)
      else (w.lastDefault.withLimit limit).closing fun w =>
        if w.rows.isEmpty then (.emit .endOfStream, { w with phase := .finished }.release)
        else flush .data w := by
    rw [← default]
    rfl
  rw [other]
  apply Withstands.of_pays _ before
  change Withstands .fail limit _ (if w.lastDefault.isBlocked then flush .data w.lastDefault
    else w.lastDefault.closing _) (if w.lastDefault.isBlocked then _ else _)
  split
  · exact flush_withstands .data _ limit
  · refine closing_withstands _ fun w => ?_
    have rows : (w.withLimit limit).rows = w.rows := rfl
    rw [rows]
    split
    · obtain ⟨limit', peak, solvent⟩ := release_pays w
      exact ⟨⟨limit', peak, fun before => ⟨(solvent before).bytes, (solvent before).below,
        (solvent before).peak⟩⟩, fun _ _ => rfl⟩
    · exact flush_withstands .data w limit

theorem layOut_withstands (d : Delivery) (w : Working) (limit : Nat) :
    Withstands .fail limit w (layOut d w) (layOut d (w.withLimit limit)) := by
  have laid : (w.withLimit limit).fold.setUp d.batch.schema = w.fold.setUp d.batch.schema := rfl
  unfold layOut
  rw [laid]
  cases w.fold.setUp d.batch.schema <;> exact .of_memory_eq rfl rfl

/-- What was built under another schema is handed on alike. -/
theorem rest_withstands (w : Working) (limit : Nat) :
    Withstands .fail limit w (if w.isFull then flush .data w else w.closing (flush .data))
      (if w.isFull then flush .data (w.withLimit limit)
        else (w.withLimit limit).closing (flush .data)) := by
  split
  · exact flush_withstands .data w limit
  · exact closing_withstands w fun w => flush_withstands .data w limit

theorem accept_withstands (d : Delivery) (w : Working) (limit : Nat) :
    Withstands .fail limit w (accept d w) (accept d (w.withLimit limit)) := by
  have input : (w.withLimit limit).inputSchema = w.inputSchema := rfl
  have output : (w.withLimit limit).outputSchema = w.outputSchema := rfl
  have rest : ((w.withLimit limit).openKey.isSome || !(w.withLimit limit).rows.isEmpty) =
      (w.openKey.isSome || !w.rows.isEmpty) := rfl
  unfold accept
  simp only [input, output, rest]
  split
  · exact .of_memory_eq rfl rfl
  · split
    · cases d.kind with
      | newSchema =>
        simp only
        cases w.outputSchema <;> exact .of_memory_eq rfl rfl
      | data => exact readOn_withstands d.batch.readings false w limit
      | endOfGroup => exact readOn_withstands d.batch.readings true w limit
    · split
      · exact (rest_withstands { w with intake := .holding d } limit).of_start_eq rfl rfl
      · exact layOut_withstands d w limit

theorem poll_withstands (w : Working) (limit : Nat) :
    Withstands .fail limit w w.poll (w.withLimit limit).poll := by
  have intake : (w.withLimit limit).intake = w.intake := rfl
  unfold poll
  rw [intake]
  cases w.intake with
  | awaiting => exact .of_memory_eq rfl rfl
  | reading rows closes => exact readOn_withstands rows closes w limit
  | holding d =>
    exact (accept_withstands d { w with intake := .awaiting } limit).of_start_eq rfl rfl
  | ended => exact finish_withstands w limit

theorem receive_withstands (u : Outcome) (w : Working) (limit : Nat) :
    Withstands .fail limit w (receive u w) (receive u (w.withLimit limit)) := by
  cases u with
  | newSchema b => exact accept_withstands ⟨.newSchema, b⟩ w limit
  | data b => exact accept_withstands ⟨.data, b⟩ w limit
  | endOfGroup b => exact accept_withstands ⟨.endOfGroup, b⟩ w limit
  | notYet => exact .of_memory_eq rfl rfl
  | endOfStream =>
    exact (finish_withstands { w with intake := .ended } limit).of_start_eq rfl rfl

theorem emitted_pays (w : Working) (o : Outcome) : w.Pays (w.emitted o) := .of_memory rfl rfl

theorem failed_pays (w : Working) : w.Pays w.failed := by
  have before : w.Pays { w with phase := .failed, recordCount := 0 } := .of_memory rfl rfl
  exact before.trans (release_pays _)

end Working

structure TurnWithstands {σ : Type} (limit : Nat) (w : Working)
    (t t' : Except Fault Outcome × Working × σ) : Prop where
  pays : w.Pays t.2.1
  same : (∀ e, t.1 = .error e → e.code ≠ .allocationFailed) → t.2.1.memory.peak ≤ limit →
    t' = (t.1, t.2.1.withLimit limit, t.2.2)

section

variable {σ : Type} {next : Child σ}

theorem Working.pull_withstands (frugal : next.Frugal) (patience : Nat) (w : Working) (s : σ)
    (limit : Nat) :
    TurnWithstands limit w (w.pull next patience s) ((w.withLimit limit).pull next patience s) := by
  induction patience generalizing w s with
  | zero => exact ⟨.of_memory rfl rfl, fun _ _ => rfl⟩
  | succ patience ih =>
    have here := frugal s w.memory w.memory
    have there := frugal s w.memory (w.withLimit limit).memory
    rw [pull, pull, there]
    rcases asked : next s w.memory with ⟨e | u, s₁, memory⟩ <;> rw [asked] at here
    · obtain rfl : memory = w.memory := congrArg (fun t => t.2.2) here
      exact ⟨failed_pays w, fun _ _ => rfl⟩
    · obtain rfl : memory = w.memory := congrArg (fun t => t.2.2) here
      have received := receive_withstands u w limit
      simp only
      rcases result : receive u w with ⟨o | e | _, w₁⟩ <;> rw [result] at received
      · have first := received.pays.trans (emitted_pays w₁ o)
        refine ⟨first, fun _ below => ?_⟩
        rw [received.same (by simp) below]
        rfl
      · refine ⟨received.pays.trans (failed_pays w₁), fun granted below => ?_⟩
        rw [received.same (fun e' same => granted e' (by rw [Turn.fail.inj same])) below]
        rfl
      · have others := ih w₁ s₁
        refine ⟨received.pays.trans others.pays, fun granted below => ?_⟩
        rw [received.same (by simp) (Nat.le_trans others.pays.peak below)]
        exact others.same granted below

/-- A turn of an aggregation is the same under another limit, unless a charge was refused or more
was charged than the other limit allows. -/
theorem Aggregation.advance_withstands (frugal : next.Frugal) (patience : Nat) (a : Aggregation)
    (s : σ) (memory : Budget) (limit : Nat) :
    TurnWithstands limit { a with memory } (a.advance next patience s memory)
      (a.advance next patience s (memory.withLimit limit)) := by
  have other : ({ a with memory := memory.withLimit limit } : Working) =
      Working.withLimit { a with memory } limit := rfl
  unfold advance
  simp only [other]
  cases a.phase with
  | running =>
    have polled := Working.poll_withstands { a with memory } limit
    simp only
    rcases result : Working.poll { a with memory } with ⟨o | e | _, w₁⟩ <;> rw [result] at polled
    · have first := polled.pays.trans (Working.emitted_pays w₁ o)
      refine ⟨first, fun _ below => ?_⟩
      rw [polled.same (by simp) below]
      rfl
    · refine ⟨polled.pays.trans (Working.failed_pays w₁), fun granted below => ?_⟩
      rw [polled.same (fun e' same => granted e' (by rw [Turn.fail.inj same])) below]
      rfl
    · have others := Working.pull_withstands frugal patience w₁ s limit
      refine ⟨polled.pays.trans others.pays, fun granted below => ?_⟩
      rw [polled.same (by simp) (Nat.le_trans others.pays.peak below)]
      exact others.same granted below
  | finished | failed | closed => exact ⟨.refl _, fun _ _ => rfl⟩

end
end BatchFlow

import BatchFlow.Proofs.Batch.RowRoundTrip
import BatchFlow.Proofs.Stream.Turns

/-!
How much work an aggregation has left before it must hand something on. A measure of the work pays
for every outcome: for the rows of its batch, and for data at least one unit. After the end of a
group, or a wait, there may be any amount of work again. An aggregation whose child stays within a
measure stays within one of its own.
-/
namespace BatchFlow

/-- Whether an outcome is paid for when the work left goes from `m` to `m'`. -/
def Outcome.Within (o : Outcome) (m m' : Nat) : Prop :=
  match o with
  | data b => m' + b.numRows ≤ m ∧ m' < m
  | newSchema b => m' + b.numRows ≤ m
  | endOfGroup b => b.numRows ≤ m
  | notYet | endOfStream => True

def Spends : List Outcome → Nat → Nat → Prop
  | [], m, m' => m' ≤ m
  | o :: os, m, m' => ∃ k, o.Within m k ∧ Spends os k m'

theorem Outcome.Within.mono {o : Outcome} {m m' n n' : Nat} (h : o.Within m m') (more : m ≤ n)
    (less : n' ≤ m') : o.Within n n' := by
  cases o <;> simp only [Within] at * <;> omega

theorem spends_mono {os : List Outcome} {m m' n n' : Nat} (h : Spends os m m') (more : m ≤ n)
    (less : n' ≤ m') : Spends os n n' := by
  induction os generalizing m n with
  | nil => exact Nat.le_trans less (Nat.le_trans h more)
  | cons o os ih =>
    obtain ⟨k, first, others⟩ := h
    exact ⟨k, first.mono more (Nat.le_refl k), ih others (Nat.le_refl k)⟩

theorem spends_append {os os' : List Outcome} {m m' : Nat} :
    Spends (os ++ os') m m' ↔ ∃ k, Spends os m k ∧ Spends os' k m' := by
  induction os generalizing m with
  | nil =>
    constructor
    · intro h
      exact ⟨m, Nat.le_refl m, h⟩
    · rintro ⟨k, less, h⟩
      exact spends_mono h less (Nat.le_refl m')
  | cons o os ih =>
    constructor
    · rintro ⟨k, first, others⟩
      obtain ⟨j, here, later⟩ := ih.mp others
      exact ⟨j, ⟨k, first, here⟩, later⟩
    · rintro ⟨j, ⟨k, first, here⟩, later⟩
      exact ⟨k, first, ih.mpr ⟨j, here, later⟩⟩

theorem spends_singleton {o : Outcome} {m m' : Nat} : Spends [o] m m' ↔ o.Within m m' := by
  constructor
  · rintro ⟨k, first, less⟩
    exact first.mono (Nat.le_refl m) less
  · intro h
    exact ⟨m', h, Nat.le_refl m'⟩

namespace Intake

def pending : Intake → Nat
  | reading rows _ => rows.length
  | holding d => d.batch.numRows
  | awaiting | ended => 0

def asks : Intake → Bool
  | awaiting => true
  | reading _ closes => !closes
  | holding d => d.kind ≠ .endOfGroup
  | ended => false

end Intake

namespace Aggregation

/-- The rows that can still come of what is at hand. -/
def potential (a : Aggregation) : Nat :=
  a.rows.length + a.openKey.toList.length + a.intake.pending +
    (!a.groupEmitted && a.openKey.isNone).toNat

/-- The work left, if `c` is left to the child. -/
def measure (a : Aggregation) (c : Nat) : Nat := a.potential + if a.intake.asks then c else 0

theorem potential_le_backlog (a : Aggregation) : a.potential ≤ a.backlog + 1 := by
  have spare := Bool.toNat_le (!a.groupEmitted && a.openKey.isNone)
  cases h : a.intake <;> simp only [potential, backlog, Intake.pending, h] <;> omega

theorem measure_le {a a' : Aggregation} {c c' n : Nat} (less : a'.potential + n ≤ a.potential)
    (asks : a'.intake.asks = true → a.intake.asks = true) (child : c' ≤ c) :
    a'.measure c' + n ≤ a.measure c := by
  simp only [measure]
  cases h : a'.intake.asks
  · simp
    omega
  · simp [asks h]
    omega

end Aggregation

theorem Outcome.totalRecords_append (os os' : List Outcome) :
    totalRecords (os ++ os') = totalRecords os + totalRecords os' := by
  induction os with
  | nil => simp
  | cons o os ih => simp [ih, Nat.add_assoc]

namespace Working

variable {w w' : Working} {us ds : List Outcome} {es : List Event} {o : Outcome} {c c' : Nat}

theorem takeRow_potential {row : Row} (taken : w.takeRow row = (.ok true, w')) :
    w'.rows.length + w'.openKey.toList.length +
        (!w'.groupEmitted && w'.openKey.isNone).toNat ≤
      w.rows.length + w.openKey.toList.length +
        (!w.groupEmitted && w.openKey.isNone).toNat + 1 := by
  obtain ⟨-, -, -, ⟨-, -, -, -, rfl⟩ | ⟨-, -, w₁, closed, -, rfl⟩⟩ := takeRow_taken taken
  · exact Nat.le_succ _
  · obtain ⟨-, rfl⟩ := closeGroup_ok closed
    cases w.openKey <;> simp [GroupFold.openRow]

/-- A flush is paid for by the rows that it hands on. -/
theorem flush_numRows {wrap : Batch → Outcome} (flushed : w.flush wrap = (.emit o, w')) :
    ∃ b, o = wrap b ∧ b.numRows ≤ w.rows.length ∧ w'.potential + w.rows.length = w.potential := by
  obtain ⟨_, b, _, built, rfl, rfl⟩ := flush_emit flushed
  refine ⟨b, rfl, Batch.numRows_ofRows_le built, ?_⟩
  simp only [Aggregation.potential, List.length_nil]
  omega

theorem openDefault_potential (w : Working) : w.openDefault.potential = w.potential := by
  unfold openDefault
  split
  · rfl
  next due =>
    simp only [Bool.or_eq_true, not_or, Bool.not_eq_true, Option.isSome_eq_false_iff,
      Option.isNone_iff_eq_none] at due
    simp [Aggregation.potential, due.1.1.2, due.1.2]
    omega

theorem closeGroup_potential (closed : w.closeGroup = (.ok (), w')) :
    w'.potential = w.potential := by
  obtain ⟨-, rfl⟩ := closeGroup_ok closed
  cases h : w.openKey <;> simp [Aggregation.potential, GroupFold.openRow, h]

theorem closeGroup_length (closed : w.closeGroup = (.ok (), w')) :
    w'.rows.length ≤ w.potential := by
  have := closeGroup_potential closed
  have : w'.rows.length ≤ w'.potential := by
    simp only [Aggregation.potential]
    omega
  omega

theorem Step.spends (step : Step w us es ds w') (positive : 0 < w.rowCap)
    (spent : Spends us c c') : Spends ds (w.measure c) (w'.measure c') := by
  cases step with
  | take reading taken =>
    have potential := takeRow_potential taken
    refine Aggregation.measure_le (n := 0) ?_ ?_ spent
    · simp only [Aggregation.potential, reading, Intake.pending, List.length_cons]
      omega
    · simp [reading, Intake.asks]
  | drain reading =>
    refine Aggregation.measure_le (n := 0) ?_ ?_ spent
    · simp [Aggregation.potential, reading, Intake.pending]
    · simp [reading, Intake.asks]
  | spill full flushed =>
    obtain ⟨b, rfl, few, paid⟩ := flush_numRows flushed
    obtain ⟨-, -, -, -, -, rfl⟩ := flush_emit flushed
    have some : w.rowCap ≤ w.rows.length := of_decide_eq_true full
    have less := Aggregation.measure_le (Nat.le_of_eq paid) id spent
    rw [spends_singleton]
    exact ⟨by omega, by omega⟩
  | openDefault due =>
    refine Aggregation.measure_le (n := 0) (Nat.le_of_eq (openDefault_potential w)) ?_ spent
    rw [openDefault_keeps]
    exact id
  | bound reading tried room closed flushed =>
    obtain ⟨b, rfl, few, -⟩ := flush_numRows flushed
    have length := closeGroup_length closed
    rw [spends_singleton]
    simp only [Outcome.Within, Aggregation.measure]
    exact Nat.le_trans few (Nat.le_trans length (Nat.le_add_right ..))
  | hold _ awaiting d =>
    obtain ⟨k, within, less⟩ := spent
    change c' ≤ k at less
    rcases d with ⟨_ | _ | _, b⟩ <;>
      simp only [Delivery.outcome, Outcome.Within] at within <;>
      simp [Spends, Aggregation.measure, Aggregation.potential, awaiting, Intake.pending,
        Intake.asks] <;>
      omega
  | wait => exact ⟨_, trivial, Nat.le_refl _⟩
  | endInput _ awaiting =>
    simp [Spends, Aggregation.measure, Aggregation.potential, awaiting, Intake.pending,
      Intake.asks]
  | announce holding kind known laid =>
    rw [spends_singleton]
    refine Aggregation.measure_le (n := 0) ?_ ?_ spent
    · simp [Aggregation.potential, holding, Intake.pending, Batch.length_readings]
    · simp [holding, Intake.asks, kind]
  | startReading holding kind known =>
    refine Aggregation.measure_le (n := 0) ?_ ?_ spent
    · simp [Aggregation.potential, holding, Intake.pending, Batch.length_readings]
    · simp [holding, Intake.asks]
  | close last room closed =>
    refine Aggregation.measure_le (n := 0) (Nat.le_of_eq (closeGroup_potential closed)) ?_ spent
    rw [closeGroup_keeps closed]
    exact id
  | flushRest last closed some flushed =>
    obtain ⟨b, rfl, few, paid⟩ := flush_numRows flushed
    obtain ⟨-, -, -, -, -, rfl⟩ := flush_emit flushed
    have some : 0 < w.rows.length := List.length_pos_of_ne_nil some
    have less := Aggregation.measure_le (Nat.le_of_eq paid) id spent
    rw [spends_singleton]
    exact ⟨by omega, by omega⟩
  | @layOut _ output fold d waiting closed none laid =>
    rw [spends_singleton]
    rcases d with ⟨_ | _ | _, b⟩
    all_goals
      refine Aggregation.measure_le (n := 0) ?_ ?_ spent
      · simp [Aggregation.potential, waiting.1, Intake.pending, Batch.length_readings]
      · simp [waiting.1, Intake.asks]
  | finish => exact ⟨_, trivial, Nat.le_refl _⟩
  | other => exact Aggregation.measure_le (n := 0) (Nat.le_refl _) id spent

theorem Steps.spends (steps : Steps w us es ds w') (positive : 0 < w.rowCap)
    (spent : Spends us c c') : Spends ds (w.measure c) (w'.measure c') := by
  induction steps generalizing c' with
  | refl => exact Aggregation.measure_le (n := 0) (Nat.le_refl _) id spent
  | snoc before step ih =>
    obtain ⟨k, earlier, now⟩ := spends_append.mp spent
    have cap := before.rowCap_eq
    exact spends_append.mpr ⟨_, ih earlier, step.spends (by omega) now⟩

/-- Every outcome handed on is paid for: data by the rows that it takes away, other outcomes by the
signals that they are. -/
theorem Step.length_le (step : Step w us es ds w') (positive : 0 < w.rowCap) :
    ds.length + w'.potential ≤
      w.potential + Outcome.totalRecords us + 2 * (ds.filterMap Outcome.signal?).length := by
  cases step with
  | take reading taken =>
    have potential := takeRow_potential taken
    simp only [Aggregation.potential, reading, Intake.pending, List.length_cons, List.length_nil]
    omega
  | drain reading => simp [Aggregation.potential, reading, Intake.pending]
  | spill full flushed =>
    rcases flush_numRows flushed with ⟨b, rfl, few, paid⟩
    have some : w.rowCap ≤ w.rows.length := of_decide_eq_true full
    simp only [List.length_singleton]
    omega
  | openDefault due =>
    rw [openDefault_potential]
    simp
  | bound reading tried room closed flushed =>
    rcases closeGroup_ok closed with ⟨_, rfl⟩
    rcases flush_emit flushed with ⟨_, b, _, _, rfl, rfl⟩
    simp [Aggregation.potential, Intake.pending, Outcome.signal?]
  | hold _ awaiting d =>
    rcases d with ⟨_ | _ | _, b⟩ <;>
      simp [Aggregation.potential, awaiting, Intake.pending, Delivery.outcome, Outcome.recordCount,
        Outcome.batch?] <;>
      omega
  | wait => simp [Outcome.signal?, Outcome.recordCount, Outcome.batch?]; omega
  | endInput _ awaiting => simp [Aggregation.potential, awaiting, Intake.pending]
  | announce holding kind known laid =>
    simp [Aggregation.potential, holding, Intake.pending, Batch.length_readings, Outcome.signal?]
    omega
  | startReading holding kind known =>
    simp [Aggregation.potential, holding, Intake.pending, Batch.length_readings]
  | close last room closed =>
    rw [closeGroup_potential closed]
    simp
  | flushRest last closed some flushed =>
    rcases flush_numRows flushed with ⟨b, rfl, few, paid⟩
    have some : 0 < w.rows.length := List.length_pos_of_ne_nil some
    simp only [List.length_singleton]
    omega
  | @layOut _ output fold d waiting closed none laid =>
    rcases d with ⟨_ | _ | _, b⟩ <;>
      simp [Aggregation.potential, waiting.1, Intake.pending, Batch.length_readings,
        Outcome.signal?] <;>
      omega
  | finish =>
    have one := Bool.toNat_le (!w.groupEmitted)
    simp [Aggregation.potential, release, Intake.pending, Outcome.signal?]
    omega
  | other => simp [Aggregation.potential]

theorem Steps.length_le (steps : Steps w us es ds w') (positive : 0 < w.rowCap) :
    ds.length + w'.potential ≤
      w.potential + Outcome.totalRecords us + 2 * (ds.filterMap Outcome.signal?).length := by
  induction steps with
  | refl => simp
  | snoc before step ih =>
    have cap := before.rowCap_eq
    have last := step.length_le (by omega)
    simp only [List.length_append, Outcome.totalRecords_append, List.filterMap_append]
    omega

theorem closing_ne_pull {next : Working → Turn × Working} (answers : ∀ w, next w ≠ (.pull, w')) :
    w.closing next ≠ (.pull, w') := by
  unfold closing
  split
  · simp
  · exact answers _

theorem endGroup_ne_pull : w.endGroup ≠ (.pull, w') := by
  unfold endGroup
  simp only
  split
  · exact flush_ne_pull
  · exact closing_ne_pull fun _ => flush_ne_pull

theorem finish_ne_pull : w.finish ≠ (.pull, w') := by
  change (if w.lastDefault.isBlocked then flush .data w.lastDefault
    else w.lastDefault.closing _) ≠ _
  split
  · exact flush_ne_pull
  · apply closing_ne_pull
    intro w
    split
    · simp
    · exact flush_ne_pull

/-- More input is asked for only when a batch that does not end a group has been used up. -/
theorem accept_pull {d : Delivery} (h : accept d w = (.pull, w')) : d.kind = .data := by
  unfold accept at h
  simp only at h
  split at h
  · cases h
  · split at h
    · rcases d with ⟨_ | _ | _, b⟩ <;> simp only at h
      · split at h <;> cases h
      · rfl
      · unfold readOn at h
        split at h
        · cases h
        · exact absurd h flush_ne_pull
        · exact absurd h endGroup_ne_pull
    · split at h
      · split at h
        · exact absurd h flush_ne_pull
        · exact absurd h (closing_ne_pull fun _ => flush_ne_pull)
      · unfold layOut at h
        split at h <;> cases h

theorem receive_pull {u : Outcome} (h : receive u w = (.pull, w')) : ∃ b, u = .data b := by
  cases u with
  | newSchema b => cases accept_pull (d := ⟨.newSchema, b⟩) h
  | data b => exact ⟨b, rfl⟩
  | endOfGroup b => cases accept_pull (d := ⟨.endOfGroup, b⟩) h
  | notYet => cases h
  | endOfStream => exact absurd h finish_ne_pull

end Working
end BatchFlow

import BatchFlow.Proofs.Stream.Portions

/-!
Rows are handed on in full batches, and what is left of a section in one batch more: with the
boundary if a boundary ends the section, else before the announcement or the end that does. Small
steps keep the batches of the section at hand full until its last group has been finished.
-/
namespace BatchFlow

/-- Events worked off and outcomes handed on that close sections in batches of the sizes due. -/
structure Hands (cap : Nat) (current : List Batch) (es : List Event) (ds : List Outcome)
    (current' : List Batch) : Prop where
  cuts : ∃ cut : List Portion, (∀ p ∈ cut, p.Sized cap) ∧
    ∀ later closed, ds.foldl Portions.next ⟨freshness es ++ later, closed, current⟩ =
      ⟨later, closed ++ cut, current'⟩
  data : ∀ b, .data b ∈ ds → ∃ n, b.Holds n ∧ 0 < n ∧ n ≤ cap
  boundary : ∀ b, .endOfGroup b ∈ ds → ∃ n, b.Holds n ∧ n ≤ cap

namespace Hands

variable {cap : Nat} {current current₁ current₂ : List Batch} {es es' : List Event}
  {ds ds' : List Outcome}

theorem trans (first : Hands cap current es ds current₁)
    (others : Hands cap current₁ es' ds' current₂) :
    Hands cap current (es ++ es') (ds ++ ds') current₂ := by
  obtain ⟨⟨cut, sized, handed⟩, data, boundary⟩ := first
  obtain ⟨⟨cut', sized', handed'⟩, data', boundary'⟩ := others
  refine ⟨⟨cut ++ cut', ?_, ?_⟩, ?_, ?_⟩
  · exact fun p member => (List.mem_append.mp member).elim (sized p) (sized' p)
  · intro later closed
    rw [List.foldl_append, freshness_append, List.append_assoc, handed, handed', List.append_assoc]
  · exact fun b member => (List.mem_append.mp member).elim (data b) (data' b)
  · exact fun b member => (List.mem_append.mp member).elim (boundary b) (boundary' b)

theorem of_unchanged {current : List Batch} (quiet : ∀ b, .data b ∉ ds ∧ .endOfGroup b ∉ ds)
    (same : ∀ later closed, ds.foldl Portions.next ⟨freshness es ++ later, closed, current⟩ =
      ⟨later, closed, current⟩) : Hands cap current es ds current :=
  ⟨⟨[], by simp, by simpa using same⟩, fun b member => absurd member (quiet b).1,
    fun b member => absurd member (quiet b).2⟩

theorem of_no_step (cap : Nat) (current : List Batch) : Hands cap current [] [] current :=
  .of_unchanged (by simp) (by simp [freshness])

theorem of_cut {o : Outcome} {e : Event} {p : Portion} (sized : p.Sized cap)
    (cuts : ∀ later closed, Portions.next ⟨freshness [e] ++ later, closed, current⟩ o =
      ⟨later, closed ++ [p], []⟩) (other : ∀ b, o ≠ .data b)
    (within : ∀ b, o = .endOfGroup b → ∃ n, b.Holds n ∧ n ≤ cap) :
    Hands cap current [e] [o] [] :=
  ⟨⟨[p], by simpa using sized, cuts⟩,
    fun b member => absurd (List.mem_singleton.mp member).symm (other b),
    fun b member => within b (List.mem_singleton.mp member).symm⟩

theorem of_data {b : Batch} {n : Nat} (current : List Batch) (holds : b.Holds n) (some : 0 < n)
    (room : n ≤ cap) : Hands cap current [] [.data b] (current ++ [b]) := by
  refine ⟨⟨[], by simp, by simp [freshness, Portions.next]⟩, ?_, by simp⟩
  rintro b' member
  obtain rfl : b' = b := by simpa using member
  exact ⟨n, holds, some, room⟩

end Hands

namespace Working

structure GroupsClosed (w : Working) : Prop where
  closed : w.openKey = none
  emitted : w.groupEmitted = true
  last : (∃ d, w.mustWait d) ∨ w.intake = .ended

end Working

/-- How the batches handed on since the last cut stand to an aggregation. -/
inductive Batching : List Batch → Working → Prop
  -- More groups may come: all batches are full.
  | filling (full : ∀ b ∈ batches, b.Holds w.rowCap) (room : w.rows.length ≤ w.rowCap)
      (started : w.openKey = none → batches = [] ∧ w.rows = []) : Batching batches w
  -- What is kept is the rest.
  | rest (finished : w.GroupsClosed) (full : ∀ b ∈ batches, b.Holds w.rowCap) (some : w.rows ≠ [])
      (room : w.rows.length ≤ w.rowCap) : Batching batches w
  -- The rest has been handed on.
  | complete (finished : w.GroupsClosed) (full : ∀ b ∈ batches, b.Holds w.rowCap)
      (holds : last.Holds n) (some : 0 < n) (room : n ≤ w.rowCap) (rows : w.rows = []) :
      Batching (batches ++ [last]) w

/-- Where rows are kept or input is at hand, the output has columns. -/
theorem Tracks.width_pos {c : AggregateSpec} {s : Sections} {current : List Row} {w : Working}
    (tracks : Tracks c s current w) (busy : w.rows ≠ [] ∨ w.intake ≠ .awaiting) :
    ∀ output, w.outputSchema = some output → 0 < output.width := by
  intro output known
  cases tracks with
  | unlaid _ _ _ unknown =>
    rw [unknown] at known
    cases known
  | gathering laid | asked laid | done laid =>
    obtain rfl := Option.some.inj (laid.output.symm.trans known)
    exact laid.wide
  | past _ awaiting rows => exact absurd busy (by simp [awaiting, rows])

namespace Working

variable {w w' w₁ : Working} {o : Outcome} {us ds : List Outcome} {es : List Event}

/-- Where the output has columns, a flush hands on a batch of all the rows kept. -/
theorem flush_holds {wrap : Batch → Outcome}
    (wide : ∀ output, w.outputSchema = some output → 0 < output.width)
    (flushed : w.flush wrap = (.emit o, w')) :
    ∃ b memory, o = wrap b ∧ b.Holds w.rows.length ∧
      w' = { w with rows := [], held := 0, memory } := by
  obtain ⟨output, b, known, built, rfl, rfl⟩ := flush_emit flushed
  refine ⟨b, _, rfl, ⟨(Batch.ofRows_ok built (wide output known)).2.2.1, ?_⟩, rfl⟩
  rw [Batch.rows_ofRows built (wide output known), List.length_map]

/-- Where there is room for the row of the open group, closing keeps to the cap. -/
theorem closeGroup_room (room : w.isBlocked = false) (within : w.rows.length ≤ w.rowCap)
    (closed : w.closeGroup = (.ok (), w')) : w'.rows.length ≤ w.rowCap := by
  obtain ⟨memory, rfl⟩ := closeGroup_ok closed
  cases key : w.openKey with
  | none => simpa [GroupFold.openRow] using within
  | some key' =>
    simp only [isBlocked, key, Option.isSome_some, Bool.true_and, isFull, decide_eq_false_iff_not,
      Nat.not_le] at room
    simpa [GroupFold.openRow] using Nat.succ_le_of_lt room

end Working

namespace Batching

open Working

variable {batches : List Batch} {w w' w₁ : Working} {o : Outcome} {us ds : List Outcome}
  {es : List Event} {row : Row} {d : Delivery}

/-- Before the last group of a section is finished, all its batches are full. -/
theorem full_while_open (batching : Batching batches w) (more : w.intake ≠ .ended)
    (settled : ∀ d, ¬w.mustWait d) :
    (∀ b ∈ batches, b.Holds w.rowCap) ∧ w.rows.length ≤ w.rowCap ∧
      (w.openKey = none → batches = [] ∧ w.rows = []) := by
  cases batching with
  | filling full room started => exact ⟨full, room, started⟩
  | rest finished | complete finished =>
    rcases finished.last with ⟨d, waiting⟩ | ended
    · exact absurd waiting (settled d)
    · exact absurd ended more

theorem with_intake (batching : Batching batches w) (more : w.intake ≠ .ended)
    (settled : ∀ d, ¬w.mustWait d) (i : Intake) : Batching batches { w with intake := i } := by
  obtain ⟨full, room, started⟩ := batching.full_while_open more settled
  exact .filling full room started

theorem after_takeRow {rest : List (Except Fault Row)} {closes : Bool} (batching : Batching batches w)
    (reading : w.intake = .reading (.ok row :: rest) closes)
    (taken : w.takeRow row = (.ok true, w')) :
    Batching batches { w' with intake := .reading rest closes } := by
  obtain ⟨full, room, started⟩ :=
    batching.full_while_open (by simp [reading]) (by simp [mustWait, reading])
  obtain ⟨-, -, -, ⟨-, opened, -, -, rfl⟩ | ⟨-, free, w₁, closed, -, rfl⟩⟩ := takeRow_taken taken
  · exact .filling full room started
  · have same := (closeGroup_fixed closed).1
    have within := closeGroup_room free room closed
    refine .filling ?_ ?_ (by simp)
    · simpa only [same] using full
    · simpa only [same] using within

/-- A batch handed on inside a section is full or the rest. -/
theorem flush_hands (batching : Batching batches w) (kept : w.rows ≠ [])
    (due : w.isFull = true ∨ w.openKey = none)
    (wide : ∀ output, w.outputSchema = some output → 0 < output.width)
    (flushed : w.flush .data = (.emit o, w')) :
    ∃ b, o = .data b ∧ Hands w.rowCap batches [] [o] (batches ++ [b]) ∧
      Batching (batches ++ [b]) w' := by
  obtain ⟨b, memory, rfl, holds, rfl⟩ := flush_holds wide flushed
  have one : 0 < w.rows.length := List.length_pos_of_ne_nil kept
  cases batching with
  | filling full room started =>
    -- With a group still open rows are handed on only for want of room.
    have opened : w.openKey ≠ none := fun closed => kept (started closed).2
    have whole : w.rows.length = w.rowCap :=
      Nat.le_antisymm room (by simpa [isFull] using due.resolve_right opened)
    refine ⟨b, rfl, .of_data batches holds one room, .filling ?_ (Nat.zero_le _) (absurd · opened)⟩
    intro b' member
    rcases List.mem_append.mp member with before | now
    · exact full b' before
    · obtain rfl : b' = b := by simpa using now
      exact whole ▸ holds
  | rest finished full _ room =>
    refine ⟨b, rfl, .of_data batches holds one room, .complete ?_ full holds one room rfl⟩
    exact ⟨finished.closed, finished.emitted, finished.last⟩
  | complete _ _ _ _ _ rows => exact absurd rows kept

theorem after_openDefault (batching : Batching batches w) : Batching batches w.openDefault := by
  unfold Working.openDefault
  split
  · exact batching
  next opens =>
    cases batching with
    | filling full room => exact .filling full room (by simp)
    | rest finished | complete finished => simp [finished.emitted] at opens

/-- The batch of a boundary is the rest. -/
theorem endOfGroup_hands (batching : Batching batches w) (reading : w.intake = .reading [] true)
    (room : w.isBlocked = false) (closed : w.closeGroup = (.ok (), w₁))
    (wide : ∀ output, w.outputSchema = some output → 0 < output.width)
    (flushed : flush .endOfGroup { w₁ with
      fold := w₁.fold.restart
      groupEmitted := false
      boundarySeen := true
      intake := .awaiting } = (.emit o, w')) :
    Hands w.rowCap batches [.boundary] [o] [] ∧ Batching [] w' := by
  obtain ⟨full, within, started⟩ :=
    batching.full_while_open (by simp [reading]) (by simp [mustWait, reading])
  have within' := closeGroup_room room within closed
  have announced : w₁.outputSchema = w.outputSchema := (closeGroup_fixed closed).2.2.2
  obtain ⟨b, memory, rfl, holds, rfl⟩ := flush_holds (announced ▸ wide) flushed
  obtain ⟨memory', rfl⟩ := closeGroup_ok closed
  have sized : Portion.Sized w.rowCap ⟨true, batches ++ [b]⟩ := by
    cases key : w.openKey with
    | none =>
      obtain ⟨rfl, none⟩ := started key
      exact Portion.sized_boundary (by simpa [key, none, GroupFold.openRow] using holds)
    | some key' =>
      exact Portion.sized_full full holds (by simp [key, GroupFold.openRow]) within' true
  refine ⟨.of_cut sized ?_ (by simp) ?_, .filling (by simp) (Nat.zero_le _) (by simp)⟩
  · simp [freshness, Portions.next]
  · rintro b' same
    obtain rfl := Outcome.endOfGroup.inj same
    exact ⟨_, holds, within'⟩

theorem after_closeGroup (batching : Batching batches w) (last : w.mustWait d ∨ w.intake = .ended)
    (room : w.isBlocked = false) (closed : w.closeGroup = (.ok (), w')) : Batching batches w' := by
  cases key : w.openKey with
  | none =>
    rw [closeGroup_of_closed key] at closed
    rw [← (Prod.mk.inj closed).2]
    exact batching
  | some key' =>
    cases batching with
    | filling full within =>
      have within' := closeGroup_room room within closed
      obtain ⟨memory, rfl⟩ := closeGroup_ok closed
      refine .rest ⟨rfl, by simp [key], last.imp_left fun waiting => ⟨d, waiting⟩⟩ full ?_ within'
      simp [key, GroupFold.openRow]
    | rest finished | complete finished => simp [finished.closed] at key

theorem sized (batching : Batching batches w) (closed : w.openKey = none) (none : w.rows = []) :
    Portion.Sized w.rowCap ⟨false, batches⟩ := by
  cases batching with
  | filling _ _ started =>
    rw [(started closed).1]
    exact Portion.sized_none
  | rest _ _ some => exact absurd none some
  | complete _ full holds some room => exact Portion.sized_full full holds some room false

theorem step_hands {c : AggregateSpec} {s : Sections} {current : List Row}
    (batching : Batching batches w) (positive : 0 < w.rowCap) (tracks : Tracks c s current w)
    (step : Step w us es ds w') :
    ∃ batches', Hands w.rowCap batches es ds batches' ∧ Batching batches' w' := by
  cases step with
  | take reading taken =>
    exact ⟨batches, .of_unchanged (by simp) (by simp [freshness]), batching.after_takeRow reading taken⟩
  | drain reading =>
    refine ⟨batches, .of_no_step _ _, batching.with_intake (by simp [reading]) ?_ _⟩
    simp [mustWait, reading]
  | spill full flushed =>
    have kept : w.rows ≠ [] := by
      refine List.ne_nil_of_length_pos (Nat.lt_of_lt_of_le positive ?_)
      simpa [isFull] using full
    obtain ⟨b, rfl, hands, after⟩ :=
      batching.flush_hands kept (.inl full) (tracks.width_pos (.inl kept)) flushed
    exact ⟨_, hands, after⟩
  | openDefault => exact ⟨batches, .of_no_step _ _, batching.after_openDefault⟩
  | bound reading _ room closed flushed =>
    have wide := tracks.width_pos (.inr (by simp [reading]))
    exact ⟨[], batching.endOfGroup_hands reading room closed wide flushed⟩
  | hold _ awaiting | endInput _ awaiting =>
    refine ⟨batches, .of_no_step _ _, batching.with_intake (by simp [awaiting]) ?_ _⟩
    simp [mustWait, awaiting]
  | wait =>
    exact ⟨batches, .of_unchanged (by simp) (by simp [freshness, Portions.next]), batching⟩
  | @announce _ _ d holding kind known laid =>
    refine ⟨batches, .of_unchanged (by simp) (by simp [freshness, Portions.next]),
      batching.with_intake (by simp [holding]) ?_ _⟩
    simp [mustWait, holding, known]
  | startReading holding _ known =>
    refine ⟨batches, .of_no_step _ _, batching.with_intake (by simp [holding]) ?_ _⟩
    simp [mustWait, holding, known]
  | close last room closed =>
    exact ⟨batches, .of_no_step _ _, batching.after_closeGroup last room closed⟩
  | flushRest _ closed kept flushed =>
    obtain ⟨b, rfl, hands, after⟩ :=
      batching.flush_hands kept (.inr closed) (tracks.width_pos (.inl kept)) flushed
    exact ⟨_, hands, after⟩
  | layOut _ closed none =>
    refine ⟨[], .of_cut (batching.sized closed none) ?_ (by simp) (by simp), .filling ?_ ?_ ?_⟩
    · simp [freshness, Portions.next]
    · simp
    · simp [none]
    · exact fun _ => ⟨rfl, none⟩
  | finish _ _ closed none =>
    refine ⟨[], .of_cut (batching.sized closed none) ?_ (by simp) (by simp), .filling ?_ ?_ ?_⟩
    · simp [freshness, Portions.next]
    · simp
    · simp [release]
    · exact fun _ => ⟨rfl, rfl⟩
  | other recordCount memory =>
    refine ⟨batches, .of_no_step _ _, ?_⟩
    cases batching with
    | filling full room started => exact .filling full room started
    | rest finished full some room =>
      exact .rest ⟨finished.closed, finished.emitted, finished.last⟩ full some room
    | complete finished full holds some room rows =>
      exact .complete ⟨finished.closed, finished.emitted, finished.last⟩ full holds some room rows

theorem steps_hands {c : AggregateSpec} {s : Sections} {current : List Row}
    (batching : Batching batches w) (positive : 0 < w.rowCap) (tracks : Tracks c s current w)
    (valid : c.groupBy ≠ [] ∨ c.aggregates ≠ []) (steps : Steps w us es ds w') :
    ∃ batches', Hands w.rowCap batches es ds batches' ∧ Batching batches' w' := by
  induction steps with
  | refl => exact ⟨batches, .of_no_step _ _, batching⟩
  | snoc before step ih =>
    obtain ⟨batches₁, first, there⟩ := ih
    obtain ⟨s₁, current₁, -, tracks₁⟩ := tracks.steps_closes valid before
    have same := before.rowCap_eq
    obtain ⟨batches', last, here⟩ := there.step_hands (same ▸ positive) tracks₁ step
    exact ⟨batches', first.trans (same ▸ last), here⟩

end Batching

namespace Aggregation.Fresh

variable {a : Aggregation} {c : AggregateSpec} {us ds : List Outcome} {es : List Event}
  {w : Working} {memory : Budget}

theorem hands (fresh : a.Fresh c) (valid : c.groupBy ≠ [] ∨ c.aggregates ≠ [])
    (steps : Working.Steps { a with memory } us es ds w) :
    ∃ batches, Hands a.rowCap [] es ds batches := by
  have start : Batching [] { a with memory } :=
    .filling (by simp) (by simp [fresh.rows]) fun _ => ⟨rfl, fresh.rows⟩
  obtain ⟨batches, hands, -⟩ := start.steps_hands fresh.cap (Tracks.of_fresh fresh memory) valid steps
  exact ⟨batches, hands⟩

/-- From the start, small steps hand the closed sections on in batches of the sizes due. -/
theorem sized (fresh : a.Fresh c) (valid : c.groupBy ≠ [] ∨ c.aggregates ≠ [])
    (steps : Working.Steps { a with memory } us es ds w) :
    ∀ p ∈ portions us ds, p.Sized a.rowCap := by
  obtain ⟨batches, ⟨cut, sized, handed⟩, -, -⟩ := fresh.hands valid steps
  rw [portions, fresh.events_eq steps, freshness_append, handed, List.nil_append]
  exact sized

/-- No batch is beyond the cap, and inside a section none is empty. -/
theorem batches_within (fresh : a.Fresh c) (valid : c.groupBy ≠ [] ∨ c.aggregates ≠ [])
    (steps : Working.Steps { a with memory } us es ds w) :
    (∀ o ∈ ds, ∀ b, o.batch? = some b → b.rows.length = b.numRows ∧ b.numRows ≤ a.rowCap) ∧
      ∀ b, .data b ∈ ds → 0 < b.numRows := by
  obtain ⟨batches, -, data, boundary⟩ := fresh.hands valid steps
  constructor
  · intro o member b batch
    cases o with
    | newSchema b' =>
      obtain rfl := Option.some.inj batch
      have none := steps.announced_numRows b' member
      exact ⟨by simp [Batch.rows, none], none ▸ Nat.zero_le _⟩
    | data b' =>
      obtain rfl := Option.some.inj batch
      obtain ⟨n, ⟨rfl, readable⟩, -, room⟩ := data b' member
      exact ⟨readable, room⟩
    | endOfGroup b' =>
      obtain rfl := Option.some.inj batch
      obtain ⟨n, ⟨rfl, readable⟩, room⟩ := boundary b' member
      exact ⟨readable, room⟩
    | notYet | endOfStream => cases batch
  · intro b member
    obtain ⟨n, ⟨rfl, -⟩, some, -⟩ := data b member
    exact some

end Aggregation.Fresh

/-- What sections come to is handed on in batches of the sizes due. -/
theorem batched_of_sized {c : AggregateSpec} {cap : Nat} {first : List Section}
    {us ds : List Outcome} (references : first.mapM c.reference = .ok (delivered us ds))
    (sized : ∀ p ∈ portions us ds, p.Sized cap) :
    first.mapM (c.batched cap) = .ok ((portions us ds).map Portion.shown) := by
  have shown : (portions us ds).map Portion.shown =
      (delivered us ds).map (Piece.inBatches cap) := by
    rw [delivered_eq, List.map_map]
    exact List.map_congr_left fun p member => (sized p member).inBatches_eq_shown.symm
  rw [shown, mapM_eq_ok, List.forall₂_map_right_iff]
  exact (mapM_eq_ok.mp references).imp fun _ piece comes => map_eq_ok.mpr ⟨piece, comes, rfl⟩

namespace Operator

variable {depth : Nat} {settings : Settings} {fs : List Fragment} {ds : List Outcome}

/-- In a run without faults the rows that a section comes to are handed on in full batches and one
with the rest. The batch of a boundary is the last of its section, and is there even without rows;
no other batch is empty, and none is beyond the cap. What the sections are, and so how they are cut
into batches, follows from what the input says, however it is split over batches and whatever waits
and announcements of the known shape it has. -/
theorem aggregate_batches {p : Plan} {c : AggregateSpec} {direct : Bool}
    {op : Operator (p.depth + 1)} (valid : settings.validate = .ok ())
    (columns : direct = true → c.groupBy ≠ [] ∨ c.aggregates ≠ [])
    (built : (Plan.aggregate p c direct).build settings = .ok op)
    (shared : ∀ f ∈ fs, f.settings = settings) (run : (op.turns fs).1 = ds.map .ok) :
    let cap := AggregateSpec.rowCap c.fraction settings.batchRows
    1 ≤ cap ∧
    (∃ us first later, op.upstream fs = us.map .ok ∧ sections us = first ++ later ∧
      (.endOfStream ∈ ds → later = []) ∧
      first.mapM (c.batched cap) =
        .ok ((portions us (Outcome.throughEnd ds)).map Portion.shown) ∧
      ∀ us', said us' = said us → sections us' = sections us) ∧
    (∀ o ∈ ds, ∀ b, o.batch? = some b → b.rows.length = b.numRows ∧ b.numRows ≤ cap) ∧
    ∀ b, .data b ∈ ds → 1 ≤ b.numRows := by
  intro cap
  have positive := batchRows_shared valid shared
  obtain ⟨a, child, rfl, below, fresh, accepted⟩ := Plan.build_aggregate built
  have same : a.rowCap = cap := Plan.rowCap_aggregate built
  have wide : c.groupBy ≠ [] ∨ c.aggregates ≠ [] := by
    cases direct with
    | true => exact columns rfl
    | false => exact AggregateSpec.not_both_empty (accepted rfl)
  have sound : (aggregate a child).Sound := ⟨fresh.cap, built_sound below⟩
  obtain ⟨us, es, w, given, steps⟩ := fresh_run positive sound.2 fresh run (.ofLimit 0)
  obtain ⟨first, later, cut, references, complete⟩ := fresh.sections_delivered wide steps
  obtain ⟨within, some⟩ := fresh.batches_within wide steps
  have handed {o : Outcome} (member : o ∈ ds) (more : o ≠ .endOfStream) :
      o ∈ Outcome.throughEnd ds :=
    (mem_throughEnd_of_run positive sound fresh.running run member).resolve_right more
  refine ⟨same ▸ fresh.cap, ⟨us, first, later, given, cut, ?_, ?_, ?_⟩, ?_, ?_⟩
  · exact fun ended => complete (Outcome.mem_throughEnd.mpr ended)
  · exact batched_of_sized references (same ▸ fresh.sized wide steps)
  · intro us' alike
    rw [sections_eq, sections_eq, alike]
  · intro o member b batch
    have more : o ≠ .endOfStream := by
      rintro rfl
      cases batch
    exact same ▸ within o (handed member more) b batch
  · exact fun b member => some b (handed member (by simp))

end Operator

def samplePairs : Settings := ⟨2, Limits.trialMemory⟩

def sampleRuns : Plan :=
  .aggregate (.replay [.data (sampleBatch "x" [true, true, false]), .notYet,
    .endOfGroup (sampleBatch "x" [true]), .data (sampleBatch "x" [false, false])] none)
    ⟨[⟨.column "x" none, "k"⟩], [], AggregateSpec.fullFraction⟩ true

theorem aggregate_batches_sample :
    let fs := List.replicate 6 ⟨samplePairs, .ofLimit 4096, .start⟩
    ∃ (op : Operator 1) (ds us : List Outcome), sampleRuns.build samplePairs = .ok op ∧
      (op.turns fs).1 = (ds ++ [Outcome.endOfStream]).map .ok ∧ op.upstream fs = us.map .ok ∧
      (sections us).mapM (AggregateSpec.batched ⟨[⟨.column "x" none, "k"⟩], [],
        AggregateSpec.fullFraction⟩ 2) =
        .ok ((portions us (ds ++ [Outcome.endOfStream])).map Portion.shown) ∧
      (portions us (ds ++ [Outcome.endOfStream])).map
          (fun p => (p.boundary, p.batches.map Batch.numRows)) =
        [(false, []), (true, [2, 1]), (false, [1])] := by
  intro fs
  have checked : (sampleRuns.build samplePairs).toOption.any (fun op : Operator 1 =>
      reachesEnd (op.turns fs).1 &&
      decide ((portions (received (op.upstream fs)) (received (op.turns fs).1)).map
          (fun p => (p.boundary, p.batches.map Batch.numRows)) =
        [(false, []), (true, [2, 1]), (false, [1])])) = true := by
    decide +kernel
  obtain ⟨op, built, checked⟩ := exists_ok_of_any checked
  obtain ⟨ends, sizes⟩ := Bool.and_eq_true_iff.mp checked
  obtain ⟨ds, run, once⟩ := reachesEnd_iff.mp ends
  have valid : Settings.validate samplePairs = .ok () := rfl
  have cap : AggregateSpec.rowCap AggregateSpec.fullFraction samplePairs.batchRows = 2 := by
    decide +kernel
  obtain ⟨-, ⟨us, first, later, given, cut, complete, batched, -⟩, -⟩ :=
    Operator.aggregate_batches valid (fun _ => .inl (by simp)) built (by simp [fs]) run
  rw [complete (by simp), List.append_nil] at cut
  rw [Outcome.throughEnd_ending once, ← cut, cap] at batched
  refine ⟨op, ds, us, built, run, given, batched, ?_⟩
  rw [← received_eq given, ← received_eq run]
  exact of_decide_eq_true sizes

def sampleColumnless : AggregateSpec := ⟨[], [], AggregateSpec.fullFraction⟩

/-- Where the output has no columns, a batch counts no rows: the row of such an aggregation comes in
a batch that is empty. -/
theorem columnless_row_uncounted :
    let fs := List.replicate 3 ⟨.trial, .ofLimit 4096, .start⟩
    ∃ (op : Operator 1) (ds us : List Outcome),
      (Plan.aggregate (.replay [.data (sampleBatch "x" [true])] none) sampleColumnless true).build
        .trial = .ok op ∧
      (op.turns fs).1 = (ds ++ [Outcome.endOfStream]).map .ok ∧
      op.upstream fs = (us ++ [Outcome.endOfStream]).map .ok ∧
      (sections (us ++ [Outcome.endOfStream])).map (sampleColumnless.batched
        (AggregateSpec.rowCap sampleColumnless.fraction Settings.trial.batchRows)) =
        [.ok (false, []), .ok (false, [[[]]])] ∧
      ∃ b, .data b ∈ ds ∧ b.numRows = 0 := by
  intro fs
  have checked : ((Plan.aggregate (.replay [.data (sampleBatch "x" [true])] none) sampleColumnless
      true).build .trial).toOption.any (fun op : Operator 1 =>
        reachesEnd (op.turns fs).1 && (reachesEnd (op.upstream fs) &&
          (decide ((sections (received (op.upstream fs))).map (sampleColumnless.batched
              (AggregateSpec.rowCap sampleColumnless.fraction Settings.trial.batchRows)) =
              [.ok (false, []), .ok (false, [[[]]])]) &&
            (received (op.turns fs).1).any fun
              | .data b => b.numRows == 0
              | _ => false))) = true := by
    decide +kernel
  obtain ⟨op, built, checked⟩ := exists_ok_of_any checked
  obtain ⟨ends, checked⟩ := Bool.and_eq_true_iff.mp checked
  obtain ⟨comes, checked⟩ := Bool.and_eq_true_iff.mp checked
  obtain ⟨due, empty⟩ := Bool.and_eq_true_iff.mp checked
  obtain ⟨ds, run, -⟩ := reachesEnd_iff.mp ends
  obtain ⟨us, given, -⟩ := reachesEnd_iff.mp comes
  rw [received_eq given] at due
  rw [received_eq run] at empty
  refine ⟨op, ds, us, built, run, given, of_decide_eq_true due, ?_⟩
  obtain ⟨o, member, shown⟩ := List.any_eq_true.mp empty
  cases o with
  | data b => exact ⟨b, by simpa using member, by simpa using shown⟩
  | _ => cases shown

end BatchFlow

import BatchFlow.Proofs.Stream.Sections

/-!
Streaming aggregation refines the aggregation of whole sections. The state of an aggregation is
tied to the input worked off and the rows delivered in the section at hand; every small step keeps
the tie, and closes a section on both sides or on none.
-/
namespace BatchFlow

/-- An aggregation laid out by `l` for the schema of the section at hand. -/
structure Laid (c : AggregateSpec) (s : Sections) (w : Working) (l : Layout) : Prop where
  serves : w.fold.Serves c
  layout : ∃ schema, c.layout schema = .ok l ∧ w.inputSchema = some schema ∧ s.schema = some schema
  output : w.outputSchema = some l.output
  wide : 0 < l.output.width
  bounded : w.boundarySeen = s.bounded

/-- How an aggregation stands to the input worked off and to the rows delivered since the last
cut. -/
inductive Tracks (c : AggregateSpec) (s : Sections) : List Row → Working → Prop
  -- No batch has been worked off.
  | unlaid (serves : w.fold.Serves c) (unbound : w.fold.binding = none)
      (input : w.inputSchema = none) (output : w.outputSchema = none) (closed : w.openKey = none)
      (rows : w.rows = []) (schema : s.schema = none) (taken : s.rows = [])
      (quiet : s.quiet = (!w.groupEmitted && w.openKey.isNone))
      (bounded : w.boundarySeen = s.bounded) : Tracks c s [] w
  -- Rows are folded into groups; those of finished groups are delivered or kept.
  | gathering (laid : Laid c s w l) (taken : s.rows = rows.map .ok)
      (gathers : l.Gathers rows (given ++ w.rows) w.openKey w.fold)
      (quiet : s.quiet = (!w.groupEmitted && w.openKey.isNone)) :
      Tracks c s (given.map l.output.readBack) w
  -- A group without rows has been opened because one is asked for.
  | asked (laid : Laid c s w l) (taken : s.rows = []) (rows : w.rows = [])
      (opened : w.openKey = some []) (carries : l.Carries [] w.fold) (keyless : c.groupBy = [])
      (quiet : s.quiet = true)
      (due : w.intake = .reading [] true ∨ w.intake = .ended ∧ w.boundarySeen = false) :
      Tracks c s [] w
  -- The last group before a cut has been finished.
  | done (laid : Laid c s w l) (taken : s.rows = rows.map .ok)
      (results : l.results rows asked = .ok (given ++ w.rows)) (closed : w.openKey = none)
      (emitted : w.groupEmitted = true) (carries : l.Carries [] w.fold)
      (last : (∃ d, w.mustWait d) ∧ asked = false ∧ s.quiet = false ∨
        w.intake = .ended ∧ asked = (s.quiet && !s.bounded && c.groupBy.isEmpty)) :
      Tracks c s (given.map l.output.readBack) w
  -- The end has been handed on.
  | past (finished : w.phase = .finished) (awaiting : w.intake = .awaiting) (rows : w.rows = []) :
      Tracks c s [] w

/-- Events worked off and outcomes handed on that close the same sections on both sides. -/
structure Closes (c : AggregateSpec) (s : Sections) (current : List Row) (es : List Event)
    (ds : List Outcome) (s' : Sections) (current' : List Row) : Prop where
  worked : es.foldl Sections.next s = s'
  closes : ∃ cut pieces, s'.closed = s.closed ++ cut ∧ cut.mapM c.reference = .ok pieces ∧
    ∀ later closed, ds.foldl Pieces.next ⟨freshness es ++ later, closed, current⟩ =
      ⟨later, closed ++ pieces, current'⟩

theorem Closes.trans {c : AggregateSpec} {s s₁ s₂ : Sections} {current current₁ current₂ : List Row}
    {es es' : List Event} {ds ds' : List Outcome} (first : Closes c s current es ds s₁ current₁)
    (others : Closes c s₁ current₁ es' ds' s₂ current₂) :
    Closes c s current (es ++ es') (ds ++ ds') s₂ current₂ := by
  obtain ⟨worked, cut, pieces, closed, references, delivered⟩ := first
  obtain ⟨worked', cut', pieces', closed', references', delivered'⟩ := others
  refine ⟨by rw [List.foldl_append, worked, worked'], cut ++ cut', pieces ++ pieces', ?_, ?_, ?_⟩
  · rw [closed', closed, List.append_assoc]
  · exact mapM_append_eq_ok.mpr ⟨pieces, pieces', references, references', rfl⟩
  · intro later old
    rw [List.foldl_append, freshness_append, List.append_assoc, delivered, delivered',
      List.append_assoc]

theorem Closes.of_no_step {c : AggregateSpec} (s : Sections) (current : List Row) :
    Closes c s current [] [] s current :=
  ⟨rfl, [], [], by simp, rfl, by simp [freshness]⟩

theorem Closes.of_data {c : AggregateSpec} (s : Sections) (current : List Row) (b : Batch) :
    Closes c s current [] [.data b] s (current ++ b.rows) :=
  ⟨rfl, [], [], by simp, rfl, by simp [freshness, Pieces.next]⟩

namespace Laid

variable {c : AggregateSpec} {s : Sections} {w w' : Working} {l : Layout} {o : Outcome}

/-- A flush delivers the rows kept, as the output schema gives them back. -/
theorem flush_rows (laid : Laid c s w l) {wrap : Batch → Outcome}
    (flushed : w.flush wrap = (.emit o, w')) :
    ∃ b, o = wrap b ∧ b.rows = w.rows.map l.output.readBack := by
  obtain ⟨output, b, there, built, rfl, -⟩ := Working.flush_emit flushed
  obtain rfl : l.output = output := Option.some.inj (laid.output.symm.trans there)
  exact ⟨b, rfl, Batch.rows_ofRows built laid.wide⟩

theorem reference_eq (laid : Laid c s w l) {rows results : List Row} {asked : Bool}
    (boundary : Bool)
    (taken : s.rows = rows.map .ok)
    (comes : l.results rows (asked && c.groupBy.isEmpty) = .ok results) :
    c.reference ⟨s.schema, s.rows, asked, boundary⟩ =
      .ok ⟨boundary, results.map l.output.readBack⟩ := by
  obtain ⟨schema, laidOut, -, there⟩ := laid.layout
  rw [there, taken]
  exact AggregateSpec.reference_ok laidOut comes

end Laid

namespace Tracks

open Working

variable {c : AggregateSpec} {s : Sections} {current : List Row} {w w' w₁ : Working} {row : Row}
  {o : Outcome} {d : Delivery}

theorem serves_accumulate {g fold : GroupFold} (serves : g.Serves c)
    (fed : g.accumulate row = (.ok (), fold)) : fold.Serves c := by
  have := serves.accumulate_serves row
  rwa [fed] at this

/-- What is at hand of the input matters only to a group that is due and before a cut. -/
theorem with_intake (tracks : Tracks c s current w) (free : w.intake ≠ .reading [] true)
    (more : w.intake ≠ .ended) (settled : ∀ d, ¬w.mustWait d)
    (running : w.phase = .running ∨ w.intake ≠ .awaiting) (i : Intake) :
    Tracks c s current { w with intake := i } := by
  cases tracks with
  | unlaid serves unbound input output closed rows schema taken quiet bounded =>
    exact .unlaid serves unbound input output closed rows schema taken quiet bounded
  | gathering laid taken gathers quiet =>
    exact .gathering ⟨laid.serves, laid.layout, laid.output, laid.wide, laid.bounded⟩ taken gathers
      quiet
  | asked _ _ _ _ _ _ _ due =>
    rcases due with reading | ⟨ended, -⟩
    · exact absurd reading free
    · exact absurd ended more
  | done _ _ _ _ _ _ last =>
    rcases last with ⟨⟨d, waiting⟩, -⟩ | ⟨ended, -⟩
    · exact absurd waiting (settled d)
    · exact absurd ended more
  | past finished awaiting =>
    rcases running with running | busy
    · rw [running] at finished
      cases finished
    · exact absurd awaiting busy

theorem after_takeRow {rest : List (Except Fault Row)} {closes : Bool} (tracks : Tracks c s current w)
    (reading : w.intake = .reading (.ok row :: rest) closes)
    (taken : w.takeRow row = (.ok true, w')) :
    Tracks c (s.next (.row (.ok row))) current { w' with intake := .reading rest closes } := by
  obtain ⟨key, fold, keyed, took⟩ := takeRow_taken taken
  cases tracks with
  | unlaid _ unbound =>
    simp [GroupFold.key, GroupFold.bound, unbound, bind, Except.bind] at keyed
  | asked _ _ _ _ _ _ _ due => simp [reading] at due
  | done _ _ _ _ _ _ last => simp [reading, mustWait] at last
  | past _ awaiting => simp [reading] at awaiting
  | @gathering _ l rows given laid before gathers quiet =>
    rw [gathers.key_eq] at keyed
    have after : s.rows ++ [.ok row] = (rows ++ [row]).map Except.ok := by simp [before]
    rcases took with ⟨openKey, opened, same, fed, rfl⟩ | ⟨other, room, w₁, closed, fed, rfl⟩
    · rw [opened] at gathers
      have serves := serves_accumulate laid.serves fed
      have gathers' := gathers.row_of_key keyed same fed
      rw [← opened] at gathers'
      exact .gathering ⟨serves, laid.layout, laid.output, laid.wide, laid.bounded⟩ after gathers'
        (by simp [Sections.next, opened])
    · obtain ⟨memory, rfl⟩ := closeGroup_ok closed
      simp only at fed
      cases opened : w.openKey with
      | none =>
        rw [opened] at gathers
        simp only [opened, Option.isSome_none, Bool.false_eq_true, if_false] at fed
        have serves := serves_accumulate laid.serves fed
        refine .gathering ⟨serves, laid.layout, laid.output, laid.wide, laid.bounded⟩ after ?_
          (by simp [Sections.next])
        simpa [opened, GroupFold.openRow] using gathers.first_row keyed fed
      | some openKey =>
        rw [opened] at gathers
        simp only [opened, Option.isSome_some, if_true] at fed
        have serves := serves_accumulate laid.serves.restart_serves fed
        have different : Value.allEqual openKey key = false := by
          simpa [continues, opened] using other
        refine .gathering ⟨serves, laid.layout, laid.output, laid.wide, laid.bounded⟩ after ?_
          (by simp [Sections.next])
        simpa [opened, GroupFold.openRow] using gathers.row_of_next_key keyed different fed

theorem after_flush (tracks : Tracks c s current w) (flushed : w.flush .data = (.emit o, w')) :
    ∃ b, o = .data b ∧ Tracks c s (current ++ b.rows) w' := by
  cases tracks with
  | unlaid _ _ _ output =>
    obtain ⟨schema, _, there, _⟩ := flush_emit flushed
    simp [output] at there
  | @gathering _ l rows given laid taken gathers quiet =>
    obtain ⟨b, rfl, delivered⟩ := laid.flush_rows flushed
    obtain ⟨_, _, _, _, _, rfl⟩ := flush_emit flushed
    refine ⟨b, rfl, ?_⟩
    rw [delivered, ← List.map_append]
    exact .gathering ⟨laid.serves, laid.layout, laid.output, laid.wide, laid.bounded⟩ taken
      (by simpa using gathers) quiet
  | asked laid taken rows opened carries keyless quiet due =>
    obtain ⟨b, rfl, delivered⟩ := laid.flush_rows flushed
    obtain ⟨_, _, _, _, _, rfl⟩ := flush_emit flushed
    refine ⟨b, rfl, ?_⟩
    rw [delivered, rows]
    exact .asked ⟨laid.serves, laid.layout, laid.output, laid.wide, laid.bounded⟩ taken rfl opened
      carries keyless quiet due
  | @done _ l rows asked given laid taken results closed emitted carries last =>
    obtain ⟨b, rfl, delivered⟩ := laid.flush_rows flushed
    obtain ⟨_, _, _, _, _, rfl⟩ := flush_emit flushed
    refine ⟨b, rfl, ?_⟩
    rw [delivered, ← List.map_append]
    exact .done ⟨laid.serves, laid.layout, laid.output, laid.wide, laid.bounded⟩ taken
      (by simpa using results) closed emitted carries last
  | past finished awaiting rows =>
    obtain ⟨_, b, _, built, rfl, rfl⟩ := flush_emit flushed
    refine ⟨b, rfl, ?_⟩
    have none : b.numRows = 0 := by
      have := Batch.numRows_ofRows_le built
      rw [rows] at this
      exact Nat.le_zero.mp this
    have empty : b.rows = [] := by simp [Batch.rows, none]
    rw [empty]
    exact .past finished awaiting rfl

theorem after_openDefault (tracks : Tracks c s current w)
    (due : w.intake = .reading [] true ∨ w.intake = .ended ∧ w.boundarySeen = false) :
    Tracks c s current w.openDefault := by
  unfold Working.openDefault
  split
  · exact tracks
  next opens =>
    simp only [Bool.or_eq_true, not_or, Bool.not_eq_true, Option.isSome_eq_false_iff,
      Option.isNone_iff_eq_none] at opens
    obtain ⟨⟨⟨keyless, closed⟩, silent⟩, announced⟩ := opens
    cases tracks with
    | unlaid _ _ _ output => exact absurd output announced
    | @gathering _ l rows given laid taken gathers quiet =>
      have carries : l.Carries [] w.fold := by
        rw [closed] at gathers
        obtain ⟨_, -, -, -, carries⟩ := gathers
        exact carries
      rw [closed] at gathers
      obtain ⟨rfl, none⟩ := gathers.rows_eq_nil
      obtain ⟨rfl, kept⟩ := List.append_eq_nil_iff.mp none
      rw [laid.serves.hasKeys_eq] at keyless
      exact .asked ⟨laid.serves, laid.layout, laid.output, laid.wide, laid.bounded⟩ taken kept rfl
        carries (by simpa using keyless) (by simp [quiet, closed, silent]) due
    | asked _ _ _ opened => simp [opened] at closed
    | done _ _ _ _ emitted => simp [emitted] at silent
    | past _ awaiting => simp [awaiting] at due

theorem after_closeGroup (tracks : Tracks c s current w) (last : w.mustWait d ∨ w.intake = .ended)
    (closed : w.closeGroup = (.ok (), w')) : Tracks c s current w' := by
  cases key : w.openKey with
  | none =>
    rw [closeGroup_of_closed key] at closed
    rw [← (Prod.mk.inj closed).2]
    exact tracks
  | some openKey =>
    obtain ⟨memory, rfl⟩ := closeGroup_ok closed
    cases tracks with
    | unlaid _ _ _ _ none => simp [none] at key
    | @gathering _ l rows given laid taken gathers quiet =>
      have results := gathers.results_eq
      rw [List.append_assoc] at results
      have loud : s.quiet = false := by simp [quiet, key]
      have carries : l.Carries [] w.fold.restart := gathers.carries_restart
      refine .done ⟨?_, laid.layout, laid.output, laid.wide, laid.bounded⟩ taken results rfl
        (by simp [key]) (by simpa [key] using carries) ?_
      · simpa [key] using laid.serves.restart_serves
      · rcases last with waiting | ended
        · exact .inl ⟨⟨d, waiting⟩, rfl, loud⟩
        · exact .inr ⟨ended, by simp [loud]⟩
    | @asked _ l laid taken rows opened carries keyless quiet due =>
      have unbounded : w.intake = .ended ∧ w.boundarySeen = false := by
        rcases due with reading | ended
        · simp [mustWait, reading] at last
        · exact ended
      have results := carries.results_asked
      refine @Tracks.done _ _ _ _ [] true []
        ⟨?_, laid.layout, laid.output, laid.wide, laid.bounded⟩ taken ?_ rfl
        (by simp [key]) (by simpa [key] using carries.restart_carries) ?_
      · simpa [key] using laid.serves.restart_serves
      · simpa [rows, opened, GroupFold.openRow] using results
      · exact .inr ⟨unbounded.1, by simp [quiet, keyless, ← laid.bounded, unbounded.2]⟩
    | done _ _ _ none => simp [none] at key
    | past _ awaiting => simp [mustWait, awaiting] at last

/-- Where a default group has been tried for and none is open, none is asked for. -/
theorem not_asked_of_tried {l : Layout} (laid : Laid c s w l)
    (quiet : s.quiet = (!w.groupEmitted && w.openKey.isNone)) (tried : w.openDefault = w) :
    (s.quiet && c.groupBy.isEmpty) = false := by
  by_contra asked
  simp only [Bool.not_eq_false, Bool.and_eq_true, quiet, Bool.not_eq_true',
    Option.isNone_iff_eq_none] at asked
  obtain ⟨⟨silent, closed⟩, keyless⟩ := asked
  have opens : w.openDefault = { w with openKey := some [] } := by
    simp [Working.openDefault, laid.serves.hasKeys_eq, keyless, closed, silent, laid.output]
  rw [opens] at tried
  have key := congrArg (fun w : Working => w.openKey) tried
  simp [closed] at key

theorem after_boundary (tracks : Tracks c s current w) (reading : w.intake = .reading [] true)
    (tried : w.openDefault = w) (closed : w.closeGroup = (.ok (), w₁))
    (flushed : flush .endOfGroup { w₁ with
      fold := w₁.fold.restart
      groupEmitted := false
      boundarySeen := true
      intake := .awaiting } = (.emit o, w')) :
    Closes c s current [.boundary] [o] (s.next .boundary) [] ∧ Tracks c (s.next .boundary) [] w' := by
  have announced : w₁.outputSchema = w.outputSchema := (closeGroup_fixed closed).2.2.2
  have kept : w₁.inputSchema = w.inputSchema := (closeGroup_fixed closed).2.2.1
  obtain ⟨output, b, there, built, rfl, rfl⟩ := flush_emit flushed
  -- The rows of the section are all delivered, and the fold starts over.
  suffices section' : ∃ l rows given, Laid c s w l ∧ s.rows = rows.map .ok ∧
      current = given.map l.output.readBack ∧
      l.results rows (s.quiet && c.groupBy.isEmpty) = .ok (given ++ w₁.rows) ∧
      w₁.fold.Serves c ∧ l.Carries [] w₁.fold.restart ∧ w₁.openKey = none by
    obtain ⟨l, rows, given, laid, taken, rfl, results, serves, carries, none⟩ := section'
    obtain rfl : l.output = output :=
      Option.some.inj (laid.output.symm.trans (announced.symm.trans there))
    have delivered := Batch.rows_ofRows built laid.wide
    constructor
    · refine ⟨rfl, [⟨s.schema, s.rows, s.quiet, true⟩],
        [⟨true, (given ++ w₁.rows).map l.output.readBack⟩], rfl, ?_, ?_⟩
      · exact mapM_eq_ok.mpr (.cons (laid.reference_eq true taken results) .nil)
      · intro later old
        simp [freshness, Pieces.next, delivered]
    · refine @Tracks.gathering _ _ _ _ [] []
        ⟨serves.restart_serves, ?_, there, laid.wide, rfl⟩ rfl ?_ ?_
      · obtain ⟨schema, laidOut, input, same⟩ := laid.layout
        exact ⟨schema, laidOut, kept.trans input, same⟩
      · simp only [none, List.append_nil]
        exact .start_gathers carries
      · simp [Sections.next, none]
  obtain ⟨memory, rfl⟩ := closeGroup_ok closed
  cases tracks with
  | unlaid _ _ _ none => simp [announced.symm.trans there] at none
  | @gathering _ l rows given laid taken gathers quiet =>
    have results := gathers.results_eq
    rw [List.append_assoc, ← not_asked_of_tried laid quiet tried] at results
    refine ⟨l, rows, given, laid, taken, rfl, results, ?_, ?_, rfl⟩
    · simp only
      split
      · exact laid.serves.restart_serves
      · exact laid.serves
    · simp only
      split
      · exact gathers.carries_restart.restart_carries
      · exact gathers.carries_restart
  | @asked _ l laid taken rows opened carries keyless quiet due =>
    refine ⟨l, [], [], laid, taken, rfl, ?_, ?_, ?_, rfl⟩
    · simpa [quiet, keyless, rows, opened, GroupFold.openRow] using carries.results_asked
    · simpa [opened] using laid.serves.restart_serves
    · simpa [opened] using carries.restart_carries.restart_carries
  | done _ _ _ _ _ _ last => simp [mustWait, reading] at last
  | past _ awaiting => simp [reading] at awaiting

/-- What has been delivered before another shape is all that the section comes to. -/
theorem reference_before_cut (tracks : Tracks c s current w) (waiting : w.mustWait d)
    (closed : w.openKey = none) (none : w.rows = []) :
    c.reference ⟨s.schema, s.rows, false, false⟩ = .ok ⟨false, current⟩ ∧ w.fold.Serves c ∧
      s.quiet = (!w.groupEmitted && w.openKey.isNone) ∧ w.boundarySeen = s.bounded := by
  cases tracks with
  | unlaid serves _ _ _ _ _ schema _ quiet bounded =>
    refine ⟨?_, serves, quiet, bounded⟩
    rw [schema]
    rfl
  | @gathering _ l rows given laid taken gathers quiet =>
    have results := gathers.results_eq
    rw [none, closed] at results
    simp only [GroupFold.openRow, Option.toList_none, List.map_nil, List.append_nil] at results
    exact ⟨laid.reference_eq false taken results, laid.serves, quiet, laid.bounded⟩
  | asked _ _ _ opened => simp [opened] at closed
  | @done _ l rows asked given laid taken results _ emitted carries last =>
    rcases last with ⟨-, rfl, loud⟩ | ⟨ended, -⟩
    · rw [none, List.append_nil] at results
      exact ⟨laid.reference_eq false taken results, laid.serves, by simp [loud, emitted], laid.bounded⟩
    · simp [waiting.1] at ended
  | past _ awaiting => simp [waiting.1] at awaiting

/-- A new shape closes the section on both sides and lays the aggregation out. -/
theorem after_layOut {fold : GroupFold} {output : Schema} (tracks : Tracks c s current w)
    (valid : c.groupBy ≠ [] ∨ c.aggregates ≠ []) (waiting : w.mustWait d) (closed : w.openKey = none)
    (none : w.rows = []) (setUp : w.fold.setUp d.batch.schema = .ok (fold, output)) (i : Intake) :
    Closes c s current [.announce true d.batch.schema] [.newSchema (.empty output)]
        (s.next (.announce true d.batch.schema)) [] ∧
      Tracks c (s.next (.announce true d.batch.schema)) [] { w with
        fold
        intake := i
        inputSchema := some d.batch.schema
        outputSchema := some output } := by
  obtain ⟨complete, serves, quiet, bounded⟩ := tracks.reference_before_cut waiting closed none
  obtain ⟨serves', l, laidOut, rfl, carries⟩ := serves.setUp_carries setUp
  have wide : 0 < l.output.width := by
    rw [AggregateSpec.width_layout laidOut]
    rcases valid with keys | calls
    · exact Nat.add_pos_left (List.length_pos_of_ne_nil keys) _
    · exact Nat.add_pos_right _ (List.length_pos_of_ne_nil calls)
  constructor
  · refine ⟨rfl, [⟨s.schema, s.rows, false, false⟩], [⟨false, current⟩], rfl, ?_, ?_⟩
    · exact mapM_eq_ok.mpr (.cons complete .nil)
    · intro later old
      simp [freshness, Pieces.next]
  · refine @Tracks.gathering _ _ _ _ [] []
      ⟨serves', ⟨d.batch.schema, laidOut, rfl, rfl⟩, rfl, wide, bounded⟩ rfl ?_ quiet
    simp only [none, closed, List.append_nil]
    exact .start_gathers carries

theorem after_finish (tracks : Tracks c s current w) (ended : w.intake = .ended)
    (tried : w.lastDefault = w) (closed : w.openKey = none) (none : w.rows = []) :
    Closes c s current [.finish] [.endOfStream] (s.next .finish) [] ∧
      Tracks c (s.next .finish) [] (release { w with phase := .finished }) := by
  have complete : c.reference ⟨s.schema, s.rows, s.quiet && !s.bounded, false⟩ =
      .ok ⟨false, current⟩ := by
    cases tracks with
    | unlaid _ _ _ _ _ _ schema =>
      rw [schema]
      rfl
    | @gathering _ l rows given laid taken gathers quiet =>
      have results := gathers.results_eq
      rw [none, closed] at results
      simp only [GroupFold.openRow, Option.toList_none, List.map_nil, List.append_nil] at results
      have asked : (s.quiet && !s.bounded && c.groupBy.isEmpty) = false := by
        unfold lastDefault at tried
        split at tried
        next seen => simp [← laid.bounded, seen]
        next => rw [Bool.and_right_comm, not_asked_of_tried laid quiet tried, Bool.false_and]
      exact laid.reference_eq false taken (asked ▸ results)
    | asked _ _ _ opened => simp [opened] at closed
    | @done _ l rows asked given laid taken results _ _ _ last =>
      rcases last with ⟨⟨d, waiting⟩, -⟩ | ⟨-, rfl⟩
      · simp [waiting.1] at ended
      · rw [none, List.append_nil] at results
        exact laid.reference_eq false taken results
    | past _ awaiting => simp [ended] at awaiting
  refine ⟨⟨rfl, [⟨s.schema, s.rows, s.quiet && !s.bounded, false⟩], [⟨false, current⟩], rfl, ?_, ?_⟩,
    .past rfl rfl rfl⟩
  · exact mapM_eq_ok.mpr (.cons complete .nil)
  · intro later old
    simp [freshness, Pieces.next]

theorem with_memory (tracks : Tracks c s current w) (recordCount : Nat) (memory : Budget) :
    Tracks c s current { w with recordCount, memory } := by
  cases tracks with
  | unlaid serves unbound input output closed rows schema taken quiet bounded =>
    exact .unlaid serves unbound input output closed rows schema taken quiet bounded
  | gathering laid taken gathers quiet =>
    exact .gathering ⟨laid.serves, laid.layout, laid.output, laid.wide, laid.bounded⟩ taken gathers
      quiet
  | asked laid taken rows opened carries keyless quiet due =>
    exact .asked ⟨laid.serves, laid.layout, laid.output, laid.wide, laid.bounded⟩ taken rows opened
      carries keyless quiet due
  | done laid taken results closed emitted carries last =>
    exact .done ⟨laid.serves, laid.layout, laid.output, laid.wide, laid.bounded⟩ taken results closed
      emitted carries last
  | past finished awaiting rows => exact .past finished awaiting rows

/-- Every small step keeps the tie between input and output. -/
theorem step_closes {us ds : List Outcome} {es : List Event} (tracks : Tracks c s current w)
    (valid : c.groupBy ≠ [] ∨ c.aggregates ≠ []) (step : Step w us es ds w') :
    ∃ s' current', Closes c s current es ds s' current' ∧ Tracks c s' current' w' := by
  cases step with
  | take reading taken =>
    refine ⟨_, current, ⟨rfl, [], [], ?_, rfl, ?_⟩, tracks.after_takeRow reading taken⟩
    · simp [Sections.next]
    · simp [freshness]
  | drain reading =>
    refine ⟨s, current, .of_no_step s current, tracks.with_intake ?_ ?_ ?_ ?_ .awaiting⟩ <;>
      simp [reading, mustWait]
  | spill _ flushed | flushRest _ _ _ flushed =>
    obtain ⟨b, rfl, delivered⟩ := tracks.after_flush flushed
    exact ⟨s, _, .of_data s current b, delivered⟩
  | openDefault due => exact ⟨s, current, .of_no_step s current, tracks.after_openDefault due⟩
  | bound reading tried _ closed flushed =>
    exact ⟨_, _, tracks.after_boundary reading tried closed flushed⟩
  | hold running awaiting d =>
    refine ⟨s, current, .of_no_step s current, ?_⟩
    refine tracks.with_intake ?_ ?_ ?_ (.inl running) (.holding d) <;> simp [awaiting, mustWait]
  | wait running awaiting =>
    refine ⟨s, current, ⟨rfl, [], [], ?_, rfl, ?_⟩, tracks⟩
    · simp
    · simp [freshness, Pieces.next]
  | endInput running awaiting =>
    refine ⟨s, current, .of_no_step s current, tracks.with_intake ?_ ?_ ?_ (.inl running) .ended⟩ <;>
      simp [awaiting, mustWait]
  | @announce _ _ d holding kind known laid =>
    refine ⟨s, current, ⟨rfl, [], [], ?_, rfl, ?_⟩, tracks.with_intake ?_ ?_ ?_ ?_ _⟩
    · simp
    · simp [freshness, Pieces.next]
    all_goals simp [holding, mustWait]
    exact known
  | @startReading _ d holding kind known =>
    refine ⟨s, current, .of_no_step s current, tracks.with_intake ?_ ?_ ?_ ?_ _⟩
    all_goals simp [holding, mustWait]
    exact known
  | close last _ closed =>
    exact ⟨s, current, .of_no_step s current, tracks.after_closeGroup last closed⟩
  | layOut waiting closed none laid =>
    exact ⟨_, _, tracks.after_layOut valid waiting closed none laid _⟩
  | finish ended tried closed none => exact ⟨_, _, tracks.after_finish ended tried closed none⟩
  | other recordCount memory =>
    exact ⟨s, current, .of_no_step s current, tracks.with_memory recordCount memory⟩

theorem steps_closes {us ds : List Outcome} {es : List Event} (tracks : Tracks c s current w)
    (valid : c.groupBy ≠ [] ∨ c.aggregates ≠ []) (steps : Steps w us es ds w') :
    ∃ s' current', Closes c s current es ds s' current' ∧ Tracks c s' current' w' := by
  induction steps with
  | refl => exact ⟨s, current, .of_no_step s current, tracks⟩
  | snoc _ step ih =>
    obtain ⟨s₁, current₁, first, there⟩ := ih
    obtain ⟨s', current', last, here⟩ := there.step_closes valid step
    exact ⟨s', current', first.trans last, here⟩

theorem of_fresh {a : Aggregation} (fresh : a.Fresh c) (memory : Budget) :
    Tracks c .start [] { a with memory } := by
  refine .unlaid ?_ ?_ fresh.input fresh.output fresh.closed fresh.rows rfl rfl ?_ fresh.unbounded
  · change a.fold.Serves c
    rw [fresh.fold]
    exact .ofCalls_serves c
  · change a.fold.binding = none
    rw [fresh.fold]
    rfl
  · simp [Sections.start, fresh.quiet, fresh.closed]

end Tracks

theorem Sections.closed_foldl (es : List Event) (s : Sections) :
    ∃ later, (es.foldl next s).closed = s.closed ++ later := by
  induction es generalizing s with
  | nil => exact ⟨[], by simp⟩
  | cons e es ih =>
    obtain ⟨later, closed⟩ := ih (s.next e)
    obtain ⟨now, grown⟩ : ∃ now, (s.next e).closed = s.closed ++ now := by
      rcases e with ⟨_ | _, _⟩ | _ | _ | _ | _ <;> first
        | exact ⟨[_], rfl⟩
        | exact ⟨[], (List.append_nil _).symm⟩
    exact ⟨now ++ later, by rw [List.foldl_cons, closed, grown, List.append_assoc]⟩

/-- From the start, small steps deliver section by section what the sections taken in come to. -/
theorem Aggregation.Fresh.sections_delivered {a : Aggregation} {c : AggregateSpec} {us ds : List Outcome}
    {es : List Event} {w : Working} {memory : Budget} (fresh : a.Fresh c)
    (valid : c.groupBy ≠ [] ∨ c.aggregates ≠ [])
    (steps : Working.Steps { a with memory } us es ds w) :
    ∃ first later, sections us = first ++ later ∧
      first.mapM c.reference = .ok (delivered us ds) ∧ (.endOfStream ∈ ds → later = []) := by
  obtain ⟨s, current, ⟨rfl, first, pieces, closed, references, cut⟩, -⟩ :=
    (Tracks.of_fresh fresh _).steps_closes valid steps
  obtain ⟨later, grown⟩ := Sections.closed_foldl w.atHand (es.foldl Sections.next .start)
  refine ⟨first, later, ?_, ?_, fun ended => ?_⟩
  · rw [sections, fresh.events_eq steps, List.foldl_append, grown, closed]
    rfl
  · rw [references, delivered, fresh.events_eq steps, freshness_append, cut, List.nil_append]
  · cases fresh.ending steps with
    | going _ _ _ handed | ended _ _ _ handed => exact absurd ended handed
    | finished _ awaiting =>
      rw [Working.atHand, awaiting] at grown
      simpa [Intake.events] using grown

theorem Aggregation.Fresh.run_refines {a : Aggregation} {c : AggregateSpec} {us ds : List Outcome}
    {es : List Event} {w : Working} {memory : Budget} (fresh : a.Fresh c)
    (accepted : c.validate = .ok ()) (steps : Working.Steps { a with memory } us es ds w) :
    ∃ first later, sections us = first ++ later ∧
      first.mapM c.reference = .ok (delivered us ds) ∧ (.endOfStream ∈ ds → later = []) :=
  fresh.sections_delivered (AggregateSpec.not_both_empty accepted) steps

namespace Operator

variable {depth : Nat} {settings : Settings} {fs : List Fragment} {ds : List Outcome}

/-- In a run without faults an aggregation delivers, section by section, what the rows of its input
come to; when the end has been handed on, in all sections. Whoever goes on asking after the end gets
the end again, which delivers nothing. -/
theorem aggregate_refines {p : Plan} {c : AggregateSpec} {op : Operator (p.depth + 1)}
    (valid : settings.validate = .ok ())
    (built : (Plan.aggregate p c false).build settings = .ok op)
    (shared : ∀ f ∈ fs, f.settings = settings)
    (run : (op.turns fs).1 = ds.map .ok) :
    ∃ us first later, op.upstream fs = us.map .ok ∧ sections us = first ++ later ∧
      first.mapM c.reference = .ok (delivered us (Outcome.throughEnd ds)) ∧
      (.endOfStream ∈ ds → later = []) := by
  have positive := batchRows_shared valid shared
  obtain ⟨a, child, rfl, below, fresh, accepted⟩ := Plan.build_aggregate built
  obtain ⟨us, es, w, given, steps⟩ :=
    fresh_run positive (built_sound below) fresh run (.ofLimit 0)
  obtain ⟨first, later, cut, references, complete⟩ := fresh.run_refines (accepted rfl) steps
  exact ⟨us, first, later, given, cut, references,
    fun ended => complete (Outcome.mem_throughEnd.mpr ended)⟩

end Operator

def sampleCount : Plan :=
  .aggregate (.replay [.data (sampleBatch "x" [true, true]), .data (sampleBatch "x" [true, false]),
    .endOfGroup (sampleBatch "x" [false])] none)
    ⟨[⟨.column "x" none, "k"⟩], [⟨.countAll, [], "n"⟩], AggregateSpec.fullFraction⟩ false

theorem aggregate_refines_sample :
    let fs := List.replicate 3 ⟨.trial, .ofLimit 4096, .start⟩
    ∃ op : Operator 1, ∃ ds us, sampleCount.build .trial = .ok op ∧
      (op.turns fs).1 = (ds ++ [Outcome.endOfStream]).map .ok ∧ op.upstream fs = us.map .ok ∧
      (sections us).mapM (AggregateSpec.reference ⟨[⟨.column "x" none, "k"⟩],
        [⟨.countAll, [], "n"⟩], AggregateSpec.fullFraction⟩) =
        .ok (delivered us (ds ++ [Outcome.endOfStream])) := by
  intro fs
  have ends : (sampleCount.build .trial).toOption.any
      (fun op : Operator 1 => reachesEnd (op.turns fs).1) = true := by decide +kernel
  rcases built : sampleCount.build .trial with e | op
  · rw [built] at ends
    cases ends
  · rw [built] at ends
    obtain ⟨ds, run, once⟩ := reachesEnd_iff.mp ends
    have valid : Settings.validate .trial = .ok () := rfl
    obtain ⟨us, first, later, given, cut, references, complete⟩ :=
      Operator.aggregate_refines valid built (by simp [fs]) run
    rw [complete (by simp), List.append_nil] at cut
    rw [Outcome.throughEnd_ending once] at references
    exact ⟨op, ds, us, rfl, run, given, cut ▸ references⟩

end BatchFlow

import BatchFlow.Proofs.Aggregate.Typing
import BatchFlow.Proofs.Stream.Faults
import BatchFlow.Proofs.Stream.Refinement
import BatchFlow.Proofs.Stream.TypedSections

/-!
A flush never fails on batches made of rows: the finished rows, and that of the open group, always
fit the schema that was announced last.
-/
namespace BatchFlow

/-- What the rows kept come to when they are handed on. -/
structure Aggregation.Flushable (a : Aggregation) : Prop where
  unannounced : a.outputSchema = none → a.rows = []
  admitted : ∀ output ∈ a.outputSchema, ∀ r ∈ a.rows, output.Admits r
  flushes : ∀ output ∈ a.outputSchema, ∃ b, Batch.ofRows output a.rows = .ok b

theorem Aggregation.Flushable.of_admitted {a : Aggregation}
    (unannounced : a.outputSchema = none → a.rows = [])
    (admitted : ∀ output ∈ a.outputSchema, ∀ r ∈ a.rows, output.Admits r) : a.Flushable :=
  ⟨unannounced, admitted, fun output there => Batch.ofRows_iff.mpr (admitted output there)⟩

theorem Aggregation.Flushable.of_empty {a : Aggregation} (none : a.rows = []) : a.Flushable :=
  .of_admitted (fun _ => none) (by simp [none])

/-- Until the end, the rows kept and that of the open group are admitted by the schema announced. -/
inductive Working.Fitting (w : Working) : Prop
  | ended (finished : w.phase = .finished) (none : w.rows = [])
  | going (unannounced : w.outputSchema = none → w.rows = [])
      (admitted : ∀ output ∈ w.outputSchema, ∀ r ∈ w.rows ++ w.fold.openRow w.openKey,
        output.Admits r)

theorem Working.Fitting.flushable {w : Working} (fitting : w.Fitting) : w.Flushable := by
  cases fitting with
  | ended _ none => exact .of_empty none
  | going unannounced admitted =>
    exact .of_admitted unannounced fun output there r member =>
      admitted output there r (List.mem_append_left _ member)

namespace Laid

variable {c : AggregateSpec} {s : Sections} {w : Working} {l : Layout} {rows results : List Row}
  {asked : Bool}

/-- The rows taken in since the last cut are admitted by the schema for which the aggregation is
laid out. -/
theorem admitted_rows (laid : Laid c s w l) (typed : s.Typed) (taken : s.rows = rows.map .ok) :
    ∃ schema, c.layout schema = .ok l ∧ ∀ row ∈ rows, schema.Admits row := by
  obtain ⟨schema, laidOut, -, there⟩ := laid.layout
  have types : Schema.Types s.schema s.rows := typed.rows
  rw [there, taken] at types
  exact ⟨schema, laidOut, fun row member => (types.gives row member).admitted⟩

/-- Rows that are among the results of the rows taken in are admitted by the output schema. -/
theorem fitting (laid : Laid c s w l) (typed : s.Typed) (flat : c.ListFree)
    (taken : s.rows = rows.map .ok) (keyless : asked = true → c.groupBy = [])
    (comes : l.results rows asked = .ok results)
    (within : ∀ r ∈ w.rows ++ w.fold.openRow w.openKey, r ∈ results) : w.Fitting := by
  obtain ⟨schema, laidOut, admitted⟩ := laid.admitted_rows typed taken
  refine .going (fun none => by simp [laid.output] at none) fun output there r member => ?_
  obtain rfl : l.output = output := Option.some.inj (laid.output.symm.trans there)
  exact Layout.results_fit laidOut flat keyless admitted comes r (within r member)

end Laid

theorem Tracks.fitting {c : AggregateSpec} {s : Sections} {current : List Row} {w : Working}
    (tracks : Tracks c s current w) (typed : s.Typed) (flat : c.ListFree) : w.Fitting := by
  cases tracks with
  | unlaid _ _ _ output closed rows => exact .going (fun _ => rows) (by simp [output])
  | gathering laid taken gathers =>
    refine laid.fitting typed flat taken (by simp) gathers.results_eq fun r member => ?_
    rw [List.append_assoc]
    exact List.mem_append_right _ member
  | asked laid taken rows opened carries keyless =>
    have none : s.rows = ([] : List Row).map .ok := taken
    refine laid.fitting typed flat none (fun _ => keyless) carries.results_asked ?_
    simp [rows, opened, GroupFold.openRow]
  | done laid taken results closed _ _ last =>
    refine laid.fitting typed flat taken ?_ results ?_
    · rintro rfl
      rcases last with ⟨-, none, -⟩ | ⟨-, asked⟩
      · cases none
      · simpa using (Bool.and_eq_true_iff.mp asked.symm).2
    · intro r member
      simp only [closed, GroupFold.openRow, Option.toList_none, List.map_nil,
        List.append_nil] at member
      exact List.mem_append_right _ member
  | past finished _ rows => exact .ended finished rows

namespace Working.Broken

variable {c : AggregateSpec} {s : Sections} {current : List Row} {w : Working} {e : Fault}

/-- Rows that fit are handed on, so nothing broken is of their making. -/
theorem code_of_admitted (broken : w.Broken e) (reported : w.Reported)
    (admitted : ∀ output ∈ w.outputSchema, ∀ r ∈ w.rows ++ w.fold.openRow w.openKey,
      output.Admits r) :
    e.code ≠ .typeMismatch ∧ e.code ≠ .invalidArgument := by
  rcases broken.exists_cause with ⟨rest, closes, reading⟩ | ⟨key, -, refused⟩ |
    ⟨output, rows, laid, kept, unfit⟩ | others
  · simp [reported _ _ e reading List.mem_cons_self]
  · rcases charged : w.memory.charge (w.fold.finish key).1.footprint with ⟨e' | _, memory⟩ <;>
      rw [charged] at refused <;> cases refused
    obtain ⟨-, rfl, -⟩ := Budget.charge_error charged
    simp [Fault.code]
  · have fits : ∀ r ∈ rows, output.Admits r := by
      intro r member
      refine admitted output laid r ?_
      rcases kept with rfl | rfl
      · exact List.mem_append_left _ member
      · exact member
    obtain ⟨b, built⟩ := Batch.ofRows_iff.mpr fits
    rw [built] at unfit
    cases unfit
  · constructor <;> rintro code <;> simp [code, internalCodes] at others

end Working.Broken

namespace Aggregation.Fresh

variable {a : Aggregation} {c : AggregateSpec} {us ds : List Outcome} {es : List Event}
  {w : Working} {memory : Budget}

theorem reported (fresh : a.Fresh c) (steps : Working.Steps { a with memory } us es ds w) :
    w.Reported := by
  refine steps.reported ?_
  intro rows closes e reading
  simp [fresh.intake] at reading

theorem fitting (fresh : a.Fresh c) (accepted : c.validate = .ok ()) (flat : c.ListFree)
    (steps : Working.Steps { a with memory } us es ds w) (made : ∀ u ∈ us, u.MadeOfRows) :
    w.Fitting := by
  obtain ⟨s, current, ⟨rfl, -⟩, tracks⟩ :=
    (Tracks.of_fresh fresh _).steps_closes (AggregateSpec.not_both_empty accepted) steps
  exact tracks.fitting (Sections.typed_prefix made (fresh.events_eq steps)) flat

end Aggregation.Fresh

namespace Operator

variable {depth : Nat} {settings : Settings} {f : Fragment} {fs : List Fragment}
  {ds us : List Outcome} {c : AggregateSpec}

/-- The turn in which a run fails. The fault is the child's, or not one that a batch of rows is
refused for; either way nothing is kept. -/
theorem fault_blame {a : Aggregation} {w : Working} {child : Operator depth} {e : Fault}
    (fresh : a.Fresh c) (accepted : c.validate = .ok ()) (flat : c.ListFree)
    {es : List Event} {memory : Budget} (steps : Working.Steps { a with memory } us es ds w)
    (made : ∀ u ∈ us, u.MadeOfRows)
    (givenMade : ∀ u, .ok u ∈ (child.turns ((aggregate w.toAggregation child).childTurns f)).1 →
      u.MadeOfRows)
    (failed : (advance f (depth + 1) (aggregate w.toAggregation child) f.memory).1 = .error e) :
    (∃ v child', (advance f (depth + 1) (aggregate w.toAggregation child) f.memory).2.1 =
        aggregate (Working.failed v).toAggregation child') ∧
      (e.code = .typeMismatch ∨ e.code = .invalidArgument →
        .error e ∈ (child.turns ((aggregate w.toAggregation child).childTurns f)).1) := by
  rw [childTurns, turns_asked] at givenMade ⊢
  have whole : advance f (depth + 1) (aggregate w.toAggregation child) f.memory =
      (fun t : Except Fault Outcome × Working × Operator depth =>
        (t.1, aggregate t.2.1.toAggregation t.2.2, t.2.1.memory))
        (w.toAggregation.advance (advance f depth) (child.backlog f + 1) child f.memory) := rfl
  rw [whole] at failed ⊢
  rcases turn : w.toAggregation.advance (advance f depth) (child.backlog f + 1) child f.memory with
    ⟨result, w', child'⟩
  rw [turn] at failed
  obtain rfl : result = .error e := failed
  have running : w.phase = .running := by
    cases fresh.ending steps with
    | going running | ended running => exact running
    | finished finished => simp [Aggregation.advance, finished] at turn
  obtain ⟨us', ⟨v, rfl⟩, blame⟩ := Aggregation.advance_fails running turn
  refine ⟨⟨v, child', rfl⟩, fun code => ?_⟩
  rcases blame with given | ⟨given, es', w₁, steps', broken, -⟩
  · have given' : Child.turns (advance f depth) (asked f w.toAggregation child f.memory) child =
        (us'.map .ok ++ [.error e], child') := given
    simp [given']
  · have given' : Child.turns (advance f depth) (asked f w.toAggregation child f.memory) child =
        (us'.map .ok, child') := given
    -- The outcomes of this turn follow those taken in before.
    have other : Working.Step w [] [] [] { w with memory := f.memory } := .other w.recordCount f.memory
    have all := steps.trans (other.steps.trans steps')
    have allMade : ∀ u ∈ us ++ ([] ++ us'), u.MadeOfRows := by
      intro u member
      rcases List.mem_append.mp member with before | now
      · exact made u before
      · refine givenMade u ?_
        rw [given']
        exact List.mem_map.mpr ⟨u, now, rfl⟩
    have still : w₁.phase = .running := by
      have same := steps'.phase_running running (by simp)
      exact same
    cases fresh.fitting accepted flat all allMade with
    | ended finished => simp [still] at finished
    | going _ admitted =>
      obtain ⟨noType, noArgument⟩ := broken.code_of_admitted (fresh.reported all) admitted
      exact absurd code (by simp [noType, noArgument])

theorem flushes_from_fault {a : Aggregation} {w : Working} {child : Operator depth} {e : Fault}
    (fresh : a.Fresh c) (accepted : c.validate = .ok ()) (flat : c.ListFree)
    {es : List Event} {memory : Budget} (steps : Working.Steps { a with memory } us es ds w)
    (made : ∀ u ∈ us, u.MadeOfRows)
    (givenMade : ∀ u, .ok u ∈ (aggregate w.toAggregation child).upstream (f :: fs) → u.MadeOfRows)
    (failed : (advance f (depth + 1) (aggregate w.toAggregation child) f.memory).1 = .error e) :
    (∃ b child', ((aggregate w.toAggregation child).turns (f :: fs)).2 = aggregate b child' ∧
        b.Flushable) ∧
      ∀ e', .error e' ∈ ((aggregate w.toAggregation child).turns (f :: fs)).1 →
        e'.code = .typeMismatch ∨ e'.code = .invalidArgument →
        .error e' ∈ (aggregate w.toAggregation child).upstream (f :: fs) := by
  obtain ⟨later, upstream⟩ := upstream_cons f fs (aggregate w.toAggregation child)
  rw [upstream] at givenMade ⊢
  obtain ⟨⟨v, child', now⟩, blame⟩ := fault_blame fresh accepted flat steps made
    (fun u member => givenMade u (List.mem_append_left _ member)) failed
  rw [turns_failed failed now rfl fs]
  refine ⟨⟨_, _, rfl, .of_empty rfl⟩, fun e' member code => ?_⟩
  rcases List.mem_cons.mp member with here | refused
  · obtain rfl := Except.error.inj here
    exact List.mem_append_left _ (blame code)
  · obtain rfl := Except.error.inj (List.eq_of_mem_replicate refused)
    simp [Fault.code] at code

theorem turns_flushable {p : Plan} {op : Operator (p.depth + 1)}
    (valid : settings.validate = .ok ())
    (built : (Plan.aggregate p c false).build settings = .ok op)
    (shared : ∀ f ∈ fs, f.settings = settings) (flat : c.ListFree)
    (made : ∀ u, .ok u ∈ op.upstream fs → u.MadeOfRows) :
    (∃ a child, (op.turns fs).2 = .aggregate a child ∧ a.Flushable) ∧
      ∀ e, .error e ∈ (op.turns fs).1 → e.code = .typeMismatch ∨ e.code = .invalidArgument →
        .error e ∈ op.upstream fs := by
  obtain ⟨a, child, rfl, below, fresh, accepted⟩ := Plan.build_aggregate built
  have sound : (aggregate a child).Sound := ⟨fresh.cap, built_sound below⟩
  have positive := batchRows_shared valid shared
  rcases turns_upto_fault fs (aggregate a child) with
    ⟨ds, run⟩ | ⟨before, f, after, ds, e, rfl, run, failed⟩
  · obtain ⟨us, es, w, child', given, steps, same, -⟩ :=
      run_steps positive sound fresh.running (Prod.ext run rfl) (.ofLimit 0)
    have madeAll : ∀ u ∈ us, u.MadeOfRows := by
      intro u member
      refine made u ?_
      rw [show (aggregate a child).upstream fs = us.map .ok from congrArg Prod.fst given]
      exact List.mem_map.mpr ⟨u, member, rfl⟩
    exact ⟨⟨_, _, same, (fresh.fitting (accepted rfl) flat steps madeAll).flushable⟩, by simp [run]⟩
  · obtain ⟨us, es, w, child', given, steps, same, -⟩ :=
      run_steps (fun f member => positive f (List.mem_append_left _ member)) sound fresh.running
        (Prod.ext run rfl) (.ofLimit 0)
    have left : ((aggregate a child).turns before).2 = aggregate w.toAggregation child' := same
    rw [upstream_append given left] at made ⊢
    rw [left] at failed
    obtain ⟨keeps, blame⟩ := flushes_from_fault fresh (accepted rfl) flat steps
      (fun u member => made u (List.mem_append_left _ (List.mem_map.mpr ⟨u, member, rfl⟩)))
      (fun u member => made u (List.mem_append_right _ member)) failed
    rw [turns_append, run, left]
    refine ⟨keeps, fun e' member code => ?_⟩
    rcases List.mem_append.mp member with earlier | later
    · simp at earlier
    · exact List.mem_append_right _ (blame e' later code)

theorem close_flushable {a : Aggregation} (flushable : a.Flushable) (child : Operator depth)
    (memory : Budget) : ∃ b child', ((aggregate a child).close memory).1 = aggregate b child' ∧
      b.Flushable ∧ b.phase = .closed := by
  rw [close]
  split
  next closed => exact ⟨a, child, rfl, flushable, closed⟩
  · exact ⟨_, _, rfl, .of_empty rfl, rfl⟩

/-- Whatever an aggregation is asked for, if the batches of its child are made of rows and none of
its expressions is a list that is written out, the rows that it keeps make a batch of the schema
announced, and no turn fails for the type or the width of a row, unless the child has failed with
that fault. After it has been closed that still holds, and every turn is refused as a misuse. -/
theorem aggregate_flushes {p : Plan} {op : Operator (p.depth + 1)}
    (valid : settings.validate = .ok ())
    (built : (Plan.aggregate p c false).build settings = .ok op)
    (shared : ∀ f ∈ fs, f.settings = settings) (flat : c.ListFree)
    (made : ∀ u, .ok u ∈ op.upstream fs → u.MadeOfRows) :
    (∃ a child, (op.turns fs).2 = .aggregate a child ∧ a.Flushable) ∧
      (∀ e, .error e ∈ (op.turns fs).1 → e.code = .typeMismatch ∨ e.code = .invalidArgument →
        .error e ∈ op.upstream fs) ∧
      ∀ memory fs', (∃ a child, (((op.turns fs).2.close memory).1.turns fs').2 =
          .aggregate a child ∧ a.Flushable) ∧
        ∀ r ∈ (((op.turns fs).2.close memory).1.turns fs').1, ∃ e, r = .error e ∧
          e.code = .internal := by
  obtain ⟨⟨a, child, after, flushable⟩, blame⟩ := turns_flushable valid built shared flat made
  refine ⟨⟨a, child, after, flushable⟩, blame, fun memory fs' => ?_⟩
  obtain ⟨b, child', closed, keeps, phase⟩ := close_flushable flushable child memory
  rw [after, closed, (run_closed child' phase fs').1]
  refine ⟨⟨b, child', rfl, keeps⟩, fun r refused => ?_⟩
  exact ⟨_, List.eq_of_mem_replicate refused, rfl⟩

end Operator

def sampleShapes : List Outcome :=
  let column (t : DataType) (values : List Value) : Batch :=
    ⟨⟨[⟨"x", t, true⟩]⟩, [.flat (.ofList ⟨"x", t, true⟩ values none)], values.length, none, 0⟩
  [.data (column .boolean [.boolean true, .boolean false]), .notYet,
    .data (column .text [.text "a", .text "b"]), .notYet]

theorem sampleShapes_made : ∀ u ∈ sampleShapes, u.MadeOfRows := by
  intro u member b batch
  simp only [sampleShapes, List.mem_cons, List.not_mem_nil, or_false] at member
  rcases member with rfl | rfl | rfl | rfl <;> cases batch
  · exact ⟨⟨[⟨"x", .boolean, true⟩]⟩, [[.boolean true], [.boolean false]], rfl⟩
  · exact ⟨⟨[⟨"x", .text, true⟩]⟩, [[.text "a"], [.text "b"]], rfl⟩

def sampleMaxima : AggregateSpec :=
  ⟨[⟨.column "x" none, "k"⟩], [⟨.max, [.column "x" none], "m"⟩], AggregateSpec.fullFraction⟩

def Operator.rowsKept {depth : Nat} : Operator (depth + 1) → List Row
  | aggregate a _ => a.rows

theorem aggregate_flushes_sample :
    let fs := List.replicate 5 ⟨.trial, .ofLimit 4096, .start⟩
    ∃ (op : Operator 1) (a : Aggregation) (child : Operator 0),
      (Plan.aggregate (.replay sampleShapes none) sampleMaxima false).build .trial = .ok op ∧
      (op.turns fs).2 = .aggregate a child ∧ a.rows = [[.text "a", .text "a"]] ∧ a.Flushable := by
  intro fs
  have keeps : ((Plan.aggregate (.replay sampleShapes none) sampleMaxima false).build
      .trial).toOption.any (fun op : Operator 1 =>
        (op.turns fs).2.rowsKept = [[.text "a", .text "a"]]) = true := by decide +kernel
  rcases built : (Plan.aggregate (.replay sampleShapes none) sampleMaxima false).build .trial with
    e | op
  · rw [built] at keeps
    cases keeps
  · rw [built] at keeps
    have valid : Settings.validate .trial = .ok () := rfl
    have flat : sampleMaxima.ListFree := by simp [AggregateSpec.ListFree, sampleMaxima, Expr.IsList]
    obtain ⟨⟨a, child, after, flushable⟩, -⟩ :=
      Operator.aggregate_flushes valid built (by simp [fs]) flat
        fun u => Plan.madeOfRows_upstream built sampleShapes_made fs
    have kept : (op.turns fs).2.rowsKept = a.rows := congrArg Operator.rowsKept after
    exact ⟨op, a, child, rfl, after, kept.symm.trans (of_decide_eq_true keeps), flushable⟩

end BatchFlow

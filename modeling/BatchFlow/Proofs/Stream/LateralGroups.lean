import BatchFlow.Proofs.Stream.Lateral
import BatchFlow.Proofs.Stream.OuterRows
import BatchFlow.Proofs.Stream.Refinement

/-!
Aggregation over a lateral unnest: one group for each outer row, in order, that is what the inner
values of that row come to.
-/
namespace BatchFlow

/-- Rows handed on: those of each group that has been closed by a boundary, and those since. -/
structure Groups where
  closed : List (List Row)
  current : List Row
  deriving DecidableEq

namespace Groups

def next (g : Groups) : Outcome → Groups
  | .data b => { g with current := g.current ++ b.rows }
  | .endOfGroup b => ⟨g.closed ++ [g.current ++ b.rows], []⟩
  | .newSchema _ | .notYet | .endOfStream => g

/-- A piece that does not end at a boundary belongs to the group that goes on. -/
def join (g : Groups) (p : Piece) : Groups :=
  if p.boundary then ⟨g.closed ++ [g.current ++ p.rows], []⟩
  else { g with current := g.current ++ p.rows }

theorem join_silent {ps : List Piece} {g : Groups} (none : g.current = [])
    (silent : ∀ p ∈ ps, p.boundary = false → p.rows = []) :
    ps.foldl join g = ⟨g.closed ++ (ps.filter Piece.boundary).map Piece.rows, []⟩ := by
  induction ps generalizing g with
  | nil =>
    cases g
    simp_all
  | cons p ps ih =>
    have others := fun p' member => silent p' (List.mem_cons_of_mem p member)
    rw [List.foldl_cons]
    cases boundary : p.boundary with
    | true =>
      rw [ih (by simp [join, boundary]) others]
      simp [join, boundary, none]
    | false =>
      have rows := silent p List.mem_cons_self boundary
      rw [ih (by simp [join, boundary, none, rows]) others]
      simp [join, boundary]

end Groups

def groupsOf (ds : List Outcome) : Groups := ds.foldl Groups.next ⟨[], []⟩

def Pieces.groups (p : Pieces) : Groups :=
  let g := p.closed.foldl Groups.join ⟨[], []⟩
  { g with current := g.current ++ p.current }

theorem length_groupsOf (ds : List Outcome) :
    (groupsOf ds).closed.length = boundaries (ds.map .ok) := by
  have counted (g : Groups) :
      (ds.foldl Groups.next g).closed.length = g.closed.length + boundaries (ds.map .ok) := by
    induction ds generalizing g with
    | nil => rfl
    | cons o ds ih =>
      rw [List.foldl_cons, ih]
      cases o <;> simp [Groups.next, boundaries]
      omega
  rw [groupsOf, counted, List.length_nil, Nat.zero_add]

theorem Pieces.groups_next (p : Pieces) (o : Outcome) : (p.next o).groups = p.groups.next o := by
  cases o with
  | newSchema b =>
    rcases p with ⟨_ | ⟨_ | _, fresh⟩, closed, current⟩ <;>
      simp [Pieces.next, Pieces.groups, Groups.next, Groups.join]
  | _ => simp [Pieces.next, Pieces.groups, Groups.next, Groups.join]

theorem Pieces.groups_foldl (p : Pieces) (ds : List Outcome) :
    (ds.foldl Pieces.next p).groups = ds.foldl Groups.next p.groups := by
  induction ds generalizing p with
  | nil => rfl
  | cons o ds ih => rw [List.foldl_cons, List.foldl_cons, ih, groups_next]

/-- The groups of a run that has come to its end are its pieces that end at a boundary, if there is
nothing in the others. -/
theorem groupsOf_delivered {us ds : List Outcome}
    (silent : ∀ p ∈ delivered us (ds ++ [.endOfStream]), p.boundary = false → p.rows = []) :
    groupsOf (ds ++ [.endOfStream]) =
      ⟨((delivered us (ds ++ [.endOfStream])).filter Piece.boundary).map Piece.rows, []⟩ := by
  have cut := Pieces.groups_foldl ⟨freshness (events none us), [], []⟩ (ds ++ [.endOfStream])
  have start : Pieces.groups ⟨freshness (events none us), [], []⟩ = ⟨[], []⟩ := rfl
  have nothing : ((ds ++ [Outcome.endOfStream]).foldl Pieces.next
      ⟨freshness (events none us), [], []⟩).current = [] := by
    rw [List.foldl_append]
    rfl
  rw [groupsOf, ← start, ← cut, Pieces.groups, nothing]
  change Groups.mk _ _ = _
  rw [← delivered, Groups.join_silent rfl silent]
  rfl

namespace AggregateSpec

variable {c : AggregateSpec} {x : Section} {y : Piece}

/-- What the inner values of an outer row come to under a spec. Without grouping keys there is one
row even if there are no values. -/
def ofValues (c : AggregateSpec) (v : ListVector) (values : List Value) : Except Fault (List Row) := do
  let l ← c.layout (Unnest.madeSchema v)
  let results ← l.results (values.map fun v => [v]) (values.isEmpty && c.groupBy.isEmpty)
  pure (results.map l.output.readBack)

theorem ofValues_eq {v : ListVector} {values : List Value}
    (comes : c.reference (Unnest.rowSection (Unnest.madeSchema v) values) = .ok y) :
    c.ofValues v values = .ok y.rows := by
  simp only [reference, Unnest.rowSection] at comes
  rcases bind_eq_ok.mp comes with ⟨l, laid, comes⟩
  rcases bind_eq_ok.mp comes with ⟨rows, all, comes⟩
  rcases bind_eq_ok.mp comes with ⟨results, made, comes⟩
  obtain rfl := pure_eq_ok.mp comes
  have same : rows = values.map fun v => [v] := by
    have each : (values.map fun v => Except.ok [v]).mapM id =
        (.ok (values.map fun v => [v]) : Except Fault (List Row)) := by
      rw [mapM_id_eq_ok, List.map_map]
      rfl
    exact Except.ok.inj (all.symm.trans each)
  subst same
  rw [ofValues, bind_eq_ok]
  refine ⟨l, laid, ?_⟩
  rw [bind_eq_ok]
  exact ⟨results, made, rfl⟩

theorem reference_boundary (comes : c.reference x = .ok y) : y.boundary = x.boundary := by
  unfold reference at comes
  split at comes
  · rw [← Except.ok.inj comes]
  · rcases bind_eq_ok.mp comes with ⟨l, -, comes⟩
    rcases bind_eq_ok.mp comes with ⟨rows, -, comes⟩
    rcases bind_eq_ok.mp comes with ⟨results, -, comes⟩
    rw [← pure_eq_ok.mp comes]

/-- Nothing comes of a section without rows, unless a group is asked for. -/
theorem reference_silent (comes : c.reference x = .ok y) (empty : x.rows = [])
    (unasked : x.asked = false ∨ x.schema = none) : y.rows = [] := by
  unfold reference at comes
  split at comes
  · rw [← Except.ok.inj comes]
  next schema there =>
    rcases unasked with unasked | unlaid
    · rcases bind_eq_ok.mp comes with ⟨l, -, comes⟩
      rw [empty, unasked] at comes
      simp only [List.mapM_nil, Layout.results, Bool.false_and, bind_eq_ok, pure_eq_ok,
        exists_eq_left', runs_nil, Bool.false_eq_true, if_false, List.append_nil] at comes
      rw [← comes]
      rfl
    · rw [unlaid] at there
      cases there

end AggregateSpec

/-- The sections that end at a boundary come to the pieces that do. -/
theorem references_filter {c : AggregateSpec} {xs : List Section} {ys : List Piece}
    (come : List.Forall₂ (fun x y => c.reference x = .ok y) xs ys) :
    List.Forall₂ (fun x y => c.reference x = .ok y) (xs.filter Section.boundary)
      (ys.filter Piece.boundary) := by
  induction come with
  | nil => exact .nil
  | @cons x y xs ys first _ ih =>
    have same := AggregateSpec.reference_boundary first
    cases boundary : x.boundary with
    | true =>
      rw [List.filter_cons_of_pos boundary, List.filter_cons_of_pos (same.trans boundary)]
      exact .cons first ih
    | false =>
      rw [List.filter_cons_of_neg (by simp [boundary]),
        List.filter_cons_of_neg (by simp [same, boundary])]
      exact ih

/-- A run that came to its end handed on the groups to which the sections with a boundary come, if
there is nothing in the other sections. -/
theorem groupsOf_come {c : AggregateSpec} {us ds : List Outcome} {cut : List Section}
    (references : cut.mapM c.reference = .ok (delivered us (ds ++ [.endOfStream])))
    (silent : ∀ x ∈ cut, x.boundary = false →
      x.rows = [] ∧ (x.asked = false ∨ x.schema = none)) :
    ∃ ys, List.Forall₂ (fun x y => c.reference x = .ok y) (cut.filter Section.boundary) ys ∧
      groupsOf (ds ++ [.endOfStream]) = ⟨ys.map Piece.rows, []⟩ := by
  have pieces := mapM_eq_ok.mp references
  refine ⟨_, references_filter pieces, groupsOf_delivered ?_⟩
  intro y member unbounded
  rcases List.forall₂_iff_get.mp pieces with ⟨length, each⟩
  rcases List.get_of_mem member with ⟨i, rfl⟩
  have comes := each i (by omega) i.isLt
  have here := AggregateSpec.reference_boundary comes
  rcases silent _ (List.get_mem _ _) (here.symm.trans unbounded) with ⟨none, unasked⟩
  exact AggregateSpec.reference_silent comes none unasked

def bounding : List (Except Fault Shown) → Nat
  | [] => 0
  | .ok (.batch _ _ n _) :: rest => n + 4 + bounding rest
  | _ :: rest => 4 + bounding rest

theorem bounding_shown (u : Outcome) (rest : List (Except Fault Shown)) :
    bounding (.ok u.shown :: rest) = u.recordCount + 4 + bounding rest := by
  cases u with
  | newSchema | data | endOfGroup => rfl
  | notYet | endOfStream =>
    simp only [Outcome.shown, bounding, Outcome.recordCount, Outcome.batch?, Option.map_none,
      Option.getD_none, Nat.zero_add]

theorem bounding_given (us : List Outcome) (left : List (Except Fault Shown)) :
    Outcome.totalRecords us + 4 * us.length ≤ bounding ((us.map fun u => .ok u.shown) ++ left) := by
  induction us with
  | nil => simp
  | cons u us ih =>
    rw [List.map_cons, List.cons_append, bounding_shown, Outcome.totalRecords, List.length_cons]
    omega

theorem Aggregation.Fresh.length_le {a : Aggregation} {c : AggregateSpec} {memory : Budget}
    {us ds : List Outcome} {es : List Event} {w : Working} (fresh : a.Fresh c)
    (steps : Working.Steps { a with memory } us es ds w) :
    ds.length ≤ 1 + Outcome.totalRecords us + 4 * us.length := by
  have paid := steps.length_le fresh.cap
  have start : Aggregation.potential a = 1 := by
    simp [potential, fresh.rows, fresh.closed, fresh.intake, fresh.quiet, Intake.pending]
  have signals := (fresh.signals_isPrefix steps).length_le
  have few := length_answers none us
  simp only [start] at paid
  omega

theorem ends_last {ds : List Outcome} (ended : .endOfStream ∈ ds)
    (once : .endOfStream ∉ ds.dropLast) :
    ∃ before, ds = before ++ [.endOfStream] ∧ .endOfStream ∉ before := by
  have whole := List.dropLast_concat_getLast (List.ne_nil_of_mem ended)
  refine ⟨ds.dropLast, ?_, once⟩
  rw [← whole] at ended
  rcases List.mem_append.mp ended with early | last
  · exact absurd early once
  · rw [List.mem_singleton.mp last, whole]

namespace Coupled

variable {spec : UnnestSpec} {k : Nat} {total : List (Except Fault Shown)} {a₀ a : Aggregation}
  {c : AggregateSpec} {memory : Budget} {us ds : List Outcome} {u : Unnest} {f : Fragment}
  {rest : List Batch}

theorem length_le (fresh : a₀.Fresh c)
    (coupled : Coupled spec k total { a₀ with memory } us ds a u f rest) :
    ds.length ≤ 1 + bounding total := by
  rcases coupled.steps with ⟨es, steps⟩
  rcases coupled.abreast with ⟨left, given, -⟩
  have short := fresh.length_le steps
  have bound := bounding_given us left
  rw [← given] at bound
  omega

theorem shown_eq_total (fresh : a₀.Fresh c)
    (coupled : Coupled spec k total { a₀ with memory } us ds a u f rest)
    (ended : .endOfStream ∈ ds) : us.map (fun o => .ok o.shown) = total := by
  rcases coupled.steps with ⟨es, steps⟩
  rcases coupled.abreast with ⟨left, given, abreast⟩
  have taken : .endOfStream ∈ us := by
    cases fresh.ending steps with
    | going _ _ _ handed | ended _ _ _ handed => exact absurd ended handed
    | finished _ _ given =>
      rcases given with ⟨before, rfl, -⟩
      simp
  cases abreast with
  | level _ going | ahead _ _ going => exact absurd taken going
  | ended _ none => rw [given, none, List.append_nil]

end Coupled

namespace Pipeline

/-- Over outer batches that have rows an aggregation of an unnest stays in step with it: it never
asks between a boundary that it has been given and the one that it hands on. A run without faults
comes to an end, and until then hands on one group for each outer row, in order, which is what the
inner values of that row come to. -/
theorem aggregate_overOuter {settings : Settings} {memoryLimit : Option Nat} {fragment : Fragment}
    {spec : UnnestSpec} {c : AggregateSpec} {p : Pipeline} {outer : List Batch}
    (shared : Fragment.ofSettings settings memoryLimit = .ok fragment)
    (built : Pipeline.ofPlan (.aggregate (.unnest spec) c false) fragment = .ok p)
    (expandable : ∀ b ∈ outer, Unnest.Expandable spec.field b ∧ 0 < b.numRows) :
    ∃ enough, ∀ limit ds, p.overOuter limit outer = ds.map .ok →
      InStep 0 0 (p.standingsOver limit outer) ∧
      (enough ≤ limit → ∃ before groups, ds = before ++ [.endOfStream] ∧ .endOfStream ∉ before ∧
        groupsOf ds = ⟨groups, []⟩ ∧
        boundaries (ds.map .ok) = (Unnest.outerRows spec.field outer).length ∧
        (Unnest.outerRows spec.field outer).mapM (fun (v, values) => c.ofValues v values) =
          .ok groups) := by
  rcases Fragment.ofSettings_ok shared with ⟨valid, rfl, -⟩
  rcases map_eq_ok.mp built with ⟨root, made, rfl⟩
  rcases Plan.build_aggregate made with ⟨a, child, rfl, below, fresh, accepted⟩
  rcases map_eq_ok.mp below with ⟨u, unnest, rfl⟩
  rcases Unnest.ofSpec_ok unnest with ⟨least, shape⟩
  have positive : 0 < min spec.rowCap fragment.settings.batchRows :=
    Nat.lt_min.mpr ⟨least, Settings.batchRows_pos valid⟩
  have work : u.AtWork spec none := by
    rw [shape]
    exact ⟨rfl, rfl, rfl, rfl⟩
  have unbound : ∀ g ∈ u.generation, g ≤ fragment.cursor.generation := by simp [shape]
  have due := Unnest.due_install work unbound (min spec.rowCap fragment.settings.batchRows)
    fun b member => (expandable b member).1
  generalize total : Unnest.outerOutcomes spec.field (min spec.rowCap fragment.settings.batchRows)
    none outer = all at due
  let installed : Fragment := { fragment with cursor := (fragment.cursor.install outer).1 }
  have coupled : Coupled spec (min spec.rowCap fragment.settings.batchRows) all
      { a with memory := fragment.memory } [] [] a u installed (fragment.cursor.install outer).2 :=
    ⟨⟨[], .refl _⟩, ⟨fresh.cap, Operator.built_sound below⟩, all, rfl, .level rfl (by simp) due⟩
  refine ⟨bounding all + 2, fun limit ds run => ?_⟩
  have followed : followOuter limit (fragment.cursor.install outer).2
      ⟨1, .aggregate a (.unnest u), installed⟩ = ds.map .ok := run
  have size : min spec.rowCap fragment.settings.batchRows =
      min spec.rowCap installed.settings.batchRows := rfl
  rcases followOuter_coupled fresh positive size coupled List.not_mem_nil followed with
    ⟨inStep, us, a', u', f', rest', coupled', once, ends⟩
  refine ⟨inStep, fun enough => ?_⟩
  rw [List.nil_append, List.nil_append] at coupled'
  -- The run is too long to have been stopped.
  have ended : .endOfStream ∈ ds := by
    rcases ends with ended | stopped
    · exact ended
    · have short := coupled'.length_le fresh
      omega
  rcases ends_last ended once with ⟨before, rfl, open'⟩
  have given := coupled'.shown_eq_total fresh ended
  have rows := fun b member => (expandable b member).2
  rcases Unnest.events_outer positive rows (given.trans total.symm) with ⟨said, columns⟩
  have rested : Unnest.Rested .start none := ⟨rfl, rfl, .inl ⟨rfl, rfl, rfl⟩⟩
  rcases Unnest.cut_outer rested columns rows with ⟨cut, closed, bounded, silent⟩
  rw [← said] at closed
  rcases coupled'.steps with ⟨es, steps⟩
  rcases fresh.run_refines (accepted rfl) steps with ⟨first, later, split, references, complete⟩
  rw [complete ended, List.append_nil] at split
  obtain rfl : first = cut := split.symm.trans closed
  rcases groupsOf_come references silent with ⟨ys, come, groups⟩
  rw [bounded] at come
  refine ⟨before, _, rfl, open', groups, ?_, ?_⟩
  · rw [← length_groupsOf, groups, List.length_map, ← come.length_eq, List.length_map]
  · rw [mapM_eq_ok, List.forall₂_map_right_iff]
    exact (List.forall₂_map_left_iff.mp come).imp fun _ _ => AggregateSpec.ofValues_eq

end Pipeline

def sampleTally : AggregateSpec :=
  ⟨[⟨.column "xs" none, "x"⟩], [⟨.countAll, [], "n"⟩], AggregateSpec.fullFraction⟩

def sampleGroups : List (List Row) :=
  let count (n : Int) : Value := .integer .big (.wrap .big n)
  [[[.boolean true, count 1], [.boolean false, count 1]], [],
    [[.boolean true, count 2], [.boolean false, count 1]]]

theorem aggregate_overOuter_sample :
    ∃ fragment p, Fragment.ofSettings .trial none = .ok fragment ∧
      Pipeline.ofPlan (.aggregate (.unnest ⟨"xs", 2⟩) sampleTally false) fragment = .ok p ∧
      reachesEnd (p.overOuter 20 [sampleOuter, sampleOuter]) = true ∧
      ∃ enough, ∀ limit ds, p.overOuter limit [sampleOuter, sampleOuter] = ds.map .ok →
        enough ≤ limit → groupsOf ds = ⟨sampleGroups ++ sampleGroups, []⟩ := by
  rcases shared : Fragment.ofSettings .trial none with e | fragment
  · cases shared
  · have ends : (Pipeline.ofPlan (.aggregate (.unnest ⟨"xs", 2⟩) sampleTally false)
        fragment).toOption.any
        (fun p => reachesEnd (p.overOuter 20 [sampleOuter, sampleOuter])) = true := by
      rw [← Except.ok.inj shared]
      decide +kernel
    rcases built : Pipeline.ofPlan (.aggregate (.unnest ⟨"xs", 2⟩) sampleTally false) fragment
      with e | p
    · rw [built] at ends
      cases ends
    · rw [built] at ends
      have expandable : ∀ b ∈ [sampleOuter, sampleOuter],
          Unnest.Expandable "xs" b ∧ 0 < b.numRows := by
        simp only [List.mem_cons, List.not_mem_nil, or_false]
        rintro b (rfl | rfl) <;>
          exact ⟨⟨rfl, fun v column => by rw [← Except.ok.inj column]; rfl⟩, by decide⟩
      rcases Pipeline.aggregate_overOuter shared built expandable with ⟨enough, holds⟩
      refine ⟨fragment, p, rfl, built, ends, enough, ?_⟩
      intro limit ds run long
      rcases (holds limit ds run).2 long with ⟨before, groups, -, -, cut, -, come⟩
      have tallied : (Unnest.outerRows "xs" [sampleOuter, sampleOuter]).mapM
          (fun (v, values) => sampleTally.ofValues v values) =
            .ok (sampleGroups ++ sampleGroups) := by
        decide +kernel
      rw [cut, Except.ok.inj (come.symm.trans tallied)]

end BatchFlow

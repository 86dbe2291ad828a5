import BatchFlow.Proofs.Stream.Signals

/-!
Input and output cut into sections: after every boundary, before every announcement of another
shape, and at the end. What an aggregation delivers in a section is what the rows of that section
come to, however either side is split over batches.
-/
namespace BatchFlow

/-- The input between two cuts: its schema and rows, whether a group is asked for even if there were
no rows, and whether it is a boundary that ends it. -/
structure Section where
  schema : Option Schema
  rows : List (Except Fault Row)
  asked : Bool
  boundary : Bool

structure Sections where
  closed : List Section
  schema : Option Schema
  rows : List (Except Fault Row)
  -- Whether there was no row since the last boundary.
  quiet : Bool
  bounded : Bool

namespace Sections

def start : Sections := ⟨[], none, [], true, false⟩

/-- A boundary asks for a group if there was no row since the last one, the end does if there was
neither a row nor a boundary. -/
def next (s : Sections) : Event → Sections
  | .announce true schema => { s with
      closed := s.closed ++ [⟨s.schema, s.rows, false, false⟩]
      schema := some schema
      rows := [] }
  | .announce false _ => s
  | .row r => { s with rows := s.rows ++ [r], quiet := false }
  | .boundary => { s with
      closed := s.closed ++ [⟨s.schema, s.rows, s.quiet, true⟩]
      rows := []
      quiet := true
      bounded := true }
  | .wait => s
  | .finish => { s with
      closed := s.closed ++ [⟨s.schema, s.rows, s.quiet && !s.bounded, false⟩]
      rows := [] }

end Sections

def sections (us : List Outcome) : List Section :=
  ((events none us).foldl Sections.next .start).closed

/-- The output between two cuts, and whether it is a boundary that ends it. -/
structure Piece where
  boundary : Bool
  rows : List Row
  deriving DecidableEq

/-- What the rows of a section come to under a spec, as an output batch gives it back. Without
grouping keys a group that is asked for is there even without rows. -/
def AggregateSpec.reference (c : AggregateSpec) (s : Section) : Except Fault Piece :=
  match s.schema with
  | none => .ok ⟨s.boundary, []⟩
  | some schema => do
    let l ← c.layout schema
    let rows ← s.rows.mapM id
    let results ← l.results rows (s.asked && c.groupBy.isEmpty)
    pure ⟨s.boundary, results.map l.output.readBack⟩

def freshness (es : List Event) : List Bool :=
  es.filterMap fun
    | .announce fresh _ => some fresh
    | _ => none

theorem freshness_append (es es' : List Event) :
    freshness (es ++ es') = freshness es ++ freshness es' :=
  List.filterMap_append

structure Pieces where
  freshness : List Bool
  closed : List Piece
  current : List Row

namespace Pieces

def next (p : Pieces) : Outcome → Pieces
  | .newSchema _ =>
    match p.freshness with
    | true :: rest => ⟨rest, p.closed ++ [⟨false, p.current⟩], []⟩
    | false :: rest => { p with freshness := rest }
    | [] => p
  | .data b => { p with current := p.current ++ b.rows }
  | .endOfGroup b => { p with closed := p.closed ++ [⟨true, p.current ++ b.rows⟩], current := [] }
  | .notYet => p
  | .endOfStream => { p with closed := p.closed ++ [⟨false, p.current⟩], current := [] }

end Pieces

/-- What outcomes deliver in each closed section, if the announcements answer those of `us`. -/
def delivered (us ds : List Outcome) : List Piece :=
  (ds.foldl Pieces.next ⟨freshness (events none us), [], []⟩).closed

namespace AggregateSpec

variable {c : AggregateSpec} {schema : Schema} {l : Layout}

theorem width_layout (laid : c.layout schema = .ok l) :
    l.output.width = c.groupBy.length + c.aggregates.length := by
  obtain ⟨keys, calls, boundKeys, boundCalls, rfl⟩ := layout_ok laid
  have keyCount := (mapM_eq_ok.mp boundKeys).length_eq
  have callCount := (mapM_eq_ok.mp boundCalls).length_eq
  simp [Schema.width, keyCount, callCount]

theorem reference_ok {rows results : List Row} {asked boundary : Bool} (laid : c.layout schema = .ok l)
    (comes : l.results rows (asked && c.groupBy.isEmpty) = .ok results) :
    c.reference ⟨some schema, rows.map .ok, asked, boundary⟩ =
      .ok ⟨boundary, results.map l.output.readBack⟩ := by
  simp only [reference]
  rw [bind_eq_ok]
  refine ⟨l, laid, ?_⟩
  rw [bind_eq_ok]
  refine ⟨rows, mapM_id_eq_ok.mpr rfl, ?_⟩
  rw [bind_eq_ok]
  exact ⟨results, comes, rfl⟩

end AggregateSpec
end BatchFlow

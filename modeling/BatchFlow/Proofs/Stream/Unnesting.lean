import BatchFlow.Proofs.Stream.Events
import BatchFlow.Proofs.Stream.Expansion
import BatchFlow.Proofs.Stream.Validated

/-!
An unnest that follows an outer side to its end: each outer row yields its inner values in parts of
one size, the last part closing the group.
-/
namespace BatchFlow

namespace OuterCursor

/-- The next outer batch is put in; without one the outer side is finished. -/
def install (c : OuterCursor) : List Batch → OuterCursor × List Batch
  | [] => (c.finish, [])
  | b :: rest => (c.load b, rest)

/-- What the owner of the cursor does after an outcome: once a group has ended it goes to the next
outer row, and from the last row to the next outer batch. -/
def follow (o : Outcome) (c : OuterCursor) (rest : List Batch) : OuterCursor × List Batch :=
  match o with
  | .endOfGroup _ =>
    let (inside, c) := c.next
    if inside then (c, rest) else c.install rest
  | _ => (c, rest)

end OuterCursor

namespace Pipeline

/-- The pipeline as it stands before each turn up to the end, a fault or `limit` turns, if the
cursor is moved over the outer batches in between. -/
def standings : Nat → List Batch → Pipeline → List Pipeline
  | 0, _, _ => []
  | limit + 1, rest, p => p ::
    match p.advance with
    | (.error _, _) | (.ok .endOfStream, _) => []
    | (.ok o, p) =>
      let (cursor, rest) := OuterCursor.follow o p.fragment.cursor rest
      standings limit rest (p.withCursor fun _ => cursor)

def followOuter (limit : Nat) (rest : List Batch) (p : Pipeline) : List (Except Fault Outcome) :=
  (standings limit rest p).map fun p => p.advance.1

def standingsOver (limit : Nat) (outer : List Batch) (p : Pipeline) : List Pipeline :=
  let (cursor, rest) := p.fragment.cursor.install outer
  standings limit rest (p.withCursor fun _ => cursor)

def overOuter (limit : Nat) (outer : List Batch) (p : Pipeline) : List (Except Fault Outcome) :=
  (p.standingsOver limit outer).map fun p => p.advance.1

end Pipeline

inductive Shown where
  | batch (kind : DeliveryKind) (schema : Schema) (numRows : Nat) (rows : List Row)
  | notYet
  | endOfStream
  deriving DecidableEq

def Outcome.shown : Outcome → Shown
  | newSchema b => .batch .newSchema b.schema b.numRows b.rows
  | data b => .batch .data b.schema b.numRows b.rows
  | endOfGroup b => .batch .endOfGroup b.schema b.numRows b.rows
  | notYet => .notYet
  | endOfStream => .endOfStream

def untilFault {α : Type} : List (Except Fault α) → List (Except Fault α)
  | [] => []
  | .error e :: _ => [.error e]
  | .ok a :: rest => .ok a :: untilFault rest

namespace Unnest

/-- How many batches it takes for `n` values with at most `k` in each, and at least one. -/
def parts (k n : Nat) : Nat := max 1 ((n + k - 1) / k)

/-- The outcomes of one outer row: parts of `k` values, one value in each row, of which the last
closes the group. -/
def rowOutcomes (schema : Schema) (k : Nat) (values : List Value) : List Shown :=
  (List.range (parts k values.length)).map fun i =>
    let part := (values.drop (i * k)).take k
    .batch (if i + 1 < parts k values.length then .data else .endOfGroup) schema part.length
      (part.map fun v => [v])

def madeSchema (v : ListVector) : Schema := ⟨[Expansion.madeField v]⟩

/-- The outcomes of row `r` of an expanded column after its first `m` values. A row that the column
lacks is a fault. -/
def outerRow (k : Nat) (v : ListVector) (r m : Nat) : List (Except Fault Shown) :=
  if r < v.length then (rowOutcomes (madeSchema v) k ((v.valuesAt r).drop m)).map .ok
  else [.error (.argument (.outerRow r v.field.name v.length))]

def batchOutcomes (k : Nat) (known : Option Shape) (b : Batch) (v : ListVector) :
    List (Except Fault Shown) :=
  (if (madeSchema v).isFresh known then [.ok (.batch .newSchema (madeSchema v) 0 [])] else []) ++
    if b.numRows = 0 then [.ok (.batch .endOfGroup (madeSchema v) 0 [])]
    else (List.range b.numRows).flatMap fun r => outerRow k v r 0

/-- The column that an unnest expands, which has to be there and to be repeated. -/
def columnOf (field : String) (b : Batch) : Except Fault ListVector :=
  match b.columnNamed? field with
  | some c => c.asLists
  | none => .error (.missingColumn field "incoming batch")

def outerOutcomes (field : String) (k : Nat) : Option Shape → List Batch → List (Except Fault Shown)
  | _, [] => [.ok .endOfStream]
  | known, b :: rest =>
    match columnOf field b with
    | .ok v => batchOutcomes k known b v ++
        outerOutcomes field k (some (madeSchema v).shape) rest
    | .error e => [.error e]

/-- Outer batches without a selection whose column, if there is one, holds no lists of lists. -/
def Expandable (field : String) (b : Batch) : Prop :=
  b.selection = none ∧
    ∀ v, columnOf field b = .ok v → v.inner.field.dataType.isRepeated = false

theorem parts_succ {k n : Nat} (positive : 0 < k) (more : k < n) :
    parts k n = parts k (n - k) + 1 := by
  have shift : n + k - 1 = (n - k + k - 1) + k := by omega
  have one : 1 ≤ (n - k + k - 1) / k := by
    rw [Nat.le_div_iff_mul_le positive]
    omega
  rw [parts, parts, shift, Nat.add_div_right _ positive]
  omega

theorem parts_one {k n : Nat} (few : n ≤ k) : parts k n = 1 := by
  rcases Nat.eq_zero_or_pos k with rfl | positive
  · simp [parts]
  · have : (n + k - 1) / k < 2 := by
      rw [Nat.div_lt_iff_lt_mul positive]
      omega
    rw [parts]
    omega

theorem rowOutcomes_eq (schema : Schema) {k : Nat} (positive : 0 < k) (values : List Value) :
    rowOutcomes schema k values =
      if values.length ≤ k then
        [.batch .endOfGroup schema values.length (values.map fun v => [v])]
      else
        .batch .data schema k ((values.take k).map fun v => [v]) ::
          rowOutcomes schema k (values.drop k) := by
  unfold rowOutcomes
  split
  next few =>
    have whole : values.take k = values := List.take_of_length_le few
    simp only [parts_one few, List.range_one, List.map_cons, List.map_nil, Nat.zero_mul,
      List.drop_zero, whole, Nat.zero_add, Nat.lt_irrefl, if_false]
  next many =>
    have more : k < values.length := Nat.not_le.mp many
    have least : 1 ≤ parts k (values.length - k) := Nat.le_max_left ..
    rw [List.length_drop, parts_succ positive more, List.range_succ_eq_map, List.map_cons,
      List.map_map]
    congr 1
    · simp [Nat.min_eq_left (Nat.le_of_lt more)]
      omega
    · apply List.map_congr_left
      intro i _
      simp [Nat.succ_mul, Nat.add_comm]

structure AtWork (u : Unnest) (spec : UnnestSpec) (known : Option Shape) : Prop where
  running : u.phase = .running
  made : u.spec = spec
  cap : u.expansion.rowCap = spec.rowCap
  shape : u.outputSchema.map Schema.shape = known

structure BoundTo (u : Unnest) (v : ListVector) (generation : Nat) : Prop where
  generation : u.generation = some generation
  ready : u.expansion.ready = true
  column : u.expansion.column = some v
  output : u.output = some (.empty (madeSchema v))

/-- What is left to come from an unnest and the outer side that it follows. -/
inductive Due (spec : UnnestSpec) (k : Nat) :
    Unnest → OuterCursor → List Batch → List (Except Fault Shown) → Prop
  | ended (work : u.AtWork spec known) (none : c.outer = none) : Due spec k u c [] [.ok .endOfStream]
  -- An outer batch has been put in and not been looked at.
  | arriving (work : u.AtWork spec known) (outer : c.outer = some b) (start : c.row = 0)
      (unbound : u.generation ≠ some c.generation) (older : ∀ g ∈ u.generation, g ≤ c.generation)
      (plain : b.selection = none) (column : columnOf spec.field b = .ok v)
      (flat : v.inner.field.dataType.isRepeated = false)
      (expandable : ∀ b ∈ rest, Expandable spec.field b) :
      Due spec k u c rest
        (batchOutcomes k known b v ++ outerOutcomes spec.field k (some (madeSchema v).shape) rest)
  -- An outer batch has been put in that cannot be expanded.
  | refused (work : u.AtWork spec known) (outer : c.outer = some b)
      (unbound : u.generation ≠ some c.generation) (plain : b.selection = none)
      (column : columnOf spec.field b = .error e) : Due spec k u c rest [.error e]
  -- An outer batch without rows has been announced.
  | empty (work : u.AtWork spec (some (madeSchema v).shape)) (bound : u.BoundTo v c.generation)
      (outer : c.outer = some b) (empty : b.numRows = 0)
      (flat : v.inner.field.dataType.isRepeated = false)
      (expandable : ∀ b ∈ rest, Expandable spec.field b) :
      Due spec k u c rest (.ok (.batch .endOfGroup (madeSchema v) 0 []) ::
        outerOutcomes spec.field k (some (madeSchema v).shape) rest)
  -- Some values of an outer row have been made.
  | within (work : u.AtWork spec (some (madeSchema v).shape)) (bound : u.BoundTo v c.generation)
      (outer : c.outer = some b) (inside : c.row < b.numRows)
      (made : u.expansion.made c.row ≤ v.countAt c.row)
      (flat : v.inner.field.dataType.isRepeated = false)
      (expandable : ∀ b ∈ rest, Expandable spec.field b) :
      Due spec k u c rest (outerRow k v c.row (u.expansion.made c.row) ++
        ((List.range' (c.row + 1) (b.numRows - (c.row + 1))).flatMap fun r => outerRow k v r 0) ++
        outerOutcomes spec.field k (some (madeSchema v).shape) rest)

variable {u u' : Unnest} {spec : UnnestSpec} {f : Fragment} {b : Batch} {v : ListVector}
  {known : Option Shape} {rest : List Batch} {k : Nat} {expected : List (Except Fault Shown)}

theorem bind_ok (work : u.AtWork spec known) (plain : b.selection = none)
    (column : columnOf spec.field b = .ok v) (generation : Nat) :
    ∃ u', bind { u with generation := some generation } b =
        .ok (u', if (madeSchema v).isFresh known then some (madeSchema v) else none) ∧
      u'.AtWork spec (some (madeSchema v).shape) ∧ u'.BoundTo v generation ∧
      u'.expansion.progress = none := by
  obtain ⟨c, there, lists⟩ : ∃ c, b.columnNamed? spec.field = some c ∧ c.asLists = .ok v := by
    unfold columnOf at column
    split at column
    next c there => exact ⟨c, there, column⟩
    · cases column
  have sameShape : (u.outputSchema.map (madeSchema v).sameShape).getD false =
      !(madeSchema v).isFresh known := by
    rw [← work.shape]
    unfold Schema.isFresh Schema.sameShape
    cases u.outputSchema with
    | none => simp
    | some t => by_cases same : (madeSchema v).shape = t.shape <;> simp [same, eq_comm]
  let fresh := (madeSchema v).isFresh known
  refine ⟨{ u with
    generation := some generation
    expansion := { u.expansion with ready := true, column := some v, progress := none }
    output := some (.empty (madeSchema v))
    outputSchema := if fresh then some (madeSchema v) else u.outputSchema }, ?_,
    ⟨work.running, work.made, work.cap, ?_⟩, ⟨rfl, rfl, rfl, rfl⟩, rfl⟩
  · have setUp : u.expansion.setUp b.selectionMode = .ok { u.expansion with ready := true } := by
      simp [Expansion.setUp, Batch.selectionMode, plain]
    have named : b.columnNamed? u.spec.field = some c := by rw [work.made, there]
    have setColumn : ({ u.expansion with ready := true } : Expansion).setColumn c =
        .ok { u.expansion with ready := true, column := some v, progress := none } := by
      rw [Expansion.setColumn, lists]
      rfl
    unfold bind
    simp only [setUp, named, bind_eq_ok, Except.ok.injEq, exists_eq_left', pure_eq_ok, setColumn]
    change (if (u.outputSchema.map (madeSchema v).sameShape).getD false then _ else _) = _
    rw [sameShape]
    cases h : (madeSchema v).isFresh known <;>
      simp [fresh, h, pure, Except.pure, Expansion.outputField?, Expansion.madeField, madeSchema]
  · cases h : (madeSchema v).isFresh known with
    | true => simp [fresh, h]
    | false =>
      have shown : known = some (madeSchema v).shape := by simpa [Schema.isFresh] using h
      simp [fresh, h, work.shape, shown]

theorem bind_error {e : Fault} (work : u.AtWork spec known) (plain : b.selection = none)
    (column : columnOf spec.field b = .error e) (generation : Nat) :
    bind { u with generation := some generation } b = .error e := by
  have setUp : u.expansion.setUp b.selectionMode = .ok { u.expansion with ready := true } := by
    simp [Expansion.setUp, Batch.selectionMode, plain]
  unfold bind
  simp only [setUp, work.made]
  unfold columnOf at column
  cases there : b.columnNamed? spec.field with
  | none =>
    rw [there] at column
    obtain rfl := Except.error.inj column
    rfl
  | some c =>
    rw [there] at column
    simp [Expansion.setColumn, column, Bind.bind, Except.bind, pure, Except.pure]

/-- Putting in the next outer batch, or none, makes due what the outer batches come to. -/
theorem due_install {c : OuterCursor} (work : u.AtWork spec known)
    (older : ∀ g ∈ u.generation, g ≤ c.generation) (k : Nat)
    (expandable : ∀ b ∈ rest, Expandable spec.field b) :
    Due spec k u (c.install rest).1 (c.install rest).2 (outerOutcomes spec.field k known rest) := by
  cases rest with
  | nil => exact .ended work rfl
  | cons b rest =>
    obtain ⟨plain, flat⟩ := expandable b List.mem_cons_self
    have later : ∀ g ∈ u.generation, g < (c.load b).generation :=
      fun g there => Nat.lt_succ_of_le (older g there)
    have unbound : u.generation ≠ some (c.load b).generation :=
      fun same => Nat.lt_irrefl _ (later _ same)
    rw [outerOutcomes]
    cases column : columnOf spec.field b with
    | error e => exact .refused work rfl unbound plain column
    | ok v =>
      exact .arriving work rfl rfl unbound (fun g there => Nat.le_of_lt (later g there)) plain column
        (flat v column) fun b' member => expandable b' (List.mem_cons_of_mem _ member)

/-- After the end of a group in a bound batch comes the next row, or the next batch. -/
theorem due_next {c : OuterCursor} (work : u.AtWork spec (some (madeSchema v).shape))
    (bound : u.BoundTo v c.generation) (outer : c.outer = some b) (k : Nat)
    (beginning : c.row + 1 < b.numRows → u.expansion.made (c.row + 1) = 0)
    (flat : v.inner.field.dataType.isRepeated = false)
    (expandable : ∀ b ∈ rest, Expandable spec.field b) (closing : Batch) :
    Due spec k u (c.follow (.endOfGroup closing) rest).1 (c.follow (.endOfGroup closing) rest).2
      (((List.range' (c.row + 1) (b.numRows - (c.row + 1))).flatMap fun r => outerRow k v r 0) ++
        outerOutcomes spec.field k (some (madeSchema v).shape) rest) := by
  simp only [OuterCursor.follow, OuterCursor.next, outer, decide_eq_true_eq]
  split
  next more =>
    have rows : b.numRows - (c.row + 1) = (b.numRows - (c.row + 1 + 1)) + 1 := by omega
    have due : Due spec k u { c with row := c.row + 1 } rest _ :=
      .within work bound outer more (by rw [beginning more]; exact Nat.zero_le _) flat expandable
    rw [beginning more] at due
    rw [rows, List.range'_succ, List.flatMap_cons, ← outer]
    exact due
  next last =>
    have none : b.numRows - (c.row + 1) = 0 := by omega
    rw [none]
    refine due_install work (fun g there => ?_) k expandable
    rw [bound.generation] at there
    exact Nat.le_of_eq (Option.mem_some_iff.mp there).symm

theorem shown_of_shows {b : Batch} {values : List Value} (kind : DeliveryKind)
    (shows : b.Shows (Expansion.madeField v) values) :
    Shown.batch kind b.schema b.numRows b.rows =
      .batch kind (madeSchema v) values.length (values.map fun v => [v]) := by
  rw [shows.schema, shows.numRows, shows.rows_shown]
  rfl

/-- What one turn comes to when these outcomes are due: the first of them, after which the others
are due. -/
def Meets (spec : UnnestSpec) (k : Nat) (c : OuterCursor) (rest : List Batch)
    (expected : List (Except Fault Shown)) : Except Fault (Outcome × Unnest) → Prop
  | .error e => ∃ more, expected = .error e :: more
  | .ok (.endOfStream, _) => expected = [.ok .endOfStream]
  | .ok (o, u) => ∃ more, expected = .ok o.shown :: more ∧
      Due spec k u (c.follow o rest).1 (c.follow o rest).2 more

theorem empty_meets (work : u.AtWork spec (some (madeSchema v).shape))
    (here : u.BoundTo v f.cursor.generation) (outer : f.cursor.outer = some b)
    (empty : b.numRows = 0) (flat : v.inner.field.dataType.isRepeated = false)
    (expandable : ∀ b ∈ rest, Expandable spec.field b) :
    Meets spec k f.cursor rest (.ok (.batch .endOfGroup (madeSchema v) 0 []) ::
      outerOutcomes spec.field k (some (madeSchema v).shape) rest) (u.expand f b) := by
  have kept : (Batch.empty (madeSchema v)).take = (.empty (madeSchema v), .empty (madeSchema v)) :=
    Batch.take_empty _
  have turn : u.expand f b = .ok (.endOfGroup (.empty (madeSchema v)),
      { u with output := some (.empty (madeSchema v)) }) := by
    simp only [expand, here.output, empty, if_pos, kept]
  rw [turn]
  have next := due_next (u := { u with output := some (.empty (madeSchema v)) })
    ⟨work.running, work.made, work.cap, work.shape⟩
    ⟨here.generation, here.ready, here.column, rfl⟩ outer k
    (fun more => absurd more (by omega)) flat expandable (.empty (madeSchema v))
  rw [empty, Nat.zero_sub, List.range'_zero, List.flatMap_nil, List.nil_append] at next
  refine ⟨_, ?_, next⟩
  rw [Outcome.shown, madeSchema, shown_of_shows .endOfGroup (.empty_shows flat)]
  rfl

def afterPart (u : Unnest) (v : ListVector) (row n : Nat) : Unnest := { u with
  expansion := { u.expansion with progress := some ⟨row, u.expansion.made row + n⟩ }
  output := some (.empty (madeSchema v)) }

theorem AtWork.afterPart_atWork (work : u.AtWork spec known) (v : ListVector) (row n : Nat) :
    (u.afterPart v row n).AtWork spec known := ⟨work.running, work.made, work.cap, work.shape⟩

theorem BoundTo.afterPart_boundTo {generation : Nat} (here : u.BoundTo v generation) (row n : Nat) :
    (u.afterPart v row n).BoundTo v generation := ⟨here.generation, here.ready, here.column, rfl⟩

theorem made_afterPart (u : Unnest) (v : ListVector) (row n : Nat) :
    (u.afterPart v row n).expansion.made row = u.expansion.made row + n := by
  simp [afterPart, Expansion.made]

theorem made_succ_afterPart (u : Unnest) (v : ListVector) (row n : Nat) :
    (u.afterPart v row n).expansion.made (row + 1) = 0 := by
  simp [afterPart, Expansion.made]

/-- A turn makes the next part of the row at hand, which closes the group if it is the last. -/
theorem expand_part (least : k = min spec.rowCap f.settings.batchRows)
    (work : u.AtWork spec known) (here : u.BoundTo v f.cursor.generation) (some : b.numRows ≠ 0)
    (there : f.cursor.row < v.length)
    (made : u.expansion.made f.cursor.row ≤ v.countAt f.cursor.row)
    (flat : v.inner.field.dataType.isRepeated = false) :
    let left := (v.valuesAt f.cursor.row).drop (u.expansion.made f.cursor.row)
    ∃ out, out.Shows (Expansion.madeField v) (left.take (min left.length k)) ∧
      u.expand f b = .ok (if left.length ≤ k then .endOfGroup out else .data out,
        u.afterPart v f.cursor.row (min left.length k)) := by
  intro left
  have length : left.length = v.countAt f.cursor.row - u.expansion.made f.cursor.row := by
    rw [List.length_drop, ListVector.length_valuesAt]
  obtain ⟨out, expanded, shows, kept⟩ := @Expansion.expand_ok _ _ _ f.settings.batchRows
    here.ready here.column flat there made
  have step : u.expansion.step v f.cursor.row f.settings.batchRows = min left.length k := by
    rw [Expansion.step, work.cap, least, Nat.min_assoc, length]
  rw [step] at expanded shows
  refine ⟨out, shows, ?_⟩
  have drained : (u.afterPart v f.cursor.row (min left.length k)).expansion.isDrained
      f.cursor.row = decide (left.length ≤ k) := by
    have last : v.countAt f.cursor.row ≤ u.expansion.made f.cursor.row + min left.length k ↔
        left.length ≤ k := by omega
    simp [afterPart, Expansion.isDrained, here.ready, here.column, last]
  rw [expand, here.output]
  simp only [if_neg some, madeSchema, expanded, kept]
  change Except.ok (if (u.afterPart v f.cursor.row (min left.length k)).expansion.isDrained
    f.cursor.row then _ else _, _) = _
  simp only [drained, decide_eq_true_eq]
  rfl

theorem within_meets (positive : 0 < k) (least : k = min spec.rowCap f.settings.batchRows)
    (work : u.AtWork spec (some (madeSchema v).shape)) (here : u.BoundTo v f.cursor.generation)
    (outer : f.cursor.outer = some b) (inside : f.cursor.row < b.numRows)
    (there : f.cursor.row < v.length)
    (made : u.expansion.made f.cursor.row ≤ v.countAt f.cursor.row)
    (flat : v.inner.field.dataType.isRepeated = false)
    (expandable : ∀ b ∈ rest, Expandable spec.field b) :
    Meets spec k f.cursor rest (outerRow k v f.cursor.row (u.expansion.made f.cursor.row) ++
      ((List.range' (f.cursor.row + 1) (b.numRows - (f.cursor.row + 1))).flatMap
        fun r => outerRow k v r 0) ++
      outerOutcomes spec.field k (some (madeSchema v).shape) rest) (u.expand f b) := by
  obtain ⟨out, shows, turn⟩ :=
    expand_part least work here (Nat.ne_zero_of_lt inside) there made flat
  have length : ((v.valuesAt f.cursor.row).drop (u.expansion.made f.cursor.row)).length =
      v.countAt f.cursor.row - u.expansion.made f.cursor.row := by
    rw [List.length_drop, ListVector.length_valuesAt]
  rw [turn, outerRow, if_pos there, rowOutcomes_eq _ positive]
  split
  next few =>
    rw [Nat.min_eq_left few, List.take_length] at shows
    refine ⟨_, ?_, due_next (work.afterPart_atWork ..) (here.afterPart_boundTo ..) outer k
      (fun _ => made_succ_afterPart ..) flat expandable out⟩
    rw [Outcome.shown, shown_of_shows .endOfGroup shows]
    rfl
  next many =>
    have more : k ≤ ((v.valuesAt f.cursor.row).drop (u.expansion.made f.cursor.row)).length :=
      Nat.le_of_not_le many
    rw [Nat.min_eq_right more] at shows ⊢
    have next : Due spec k (u.afterPart v f.cursor.row k) f.cursor rest _ :=
      .within (work.afterPart_atWork ..) (here.afterPart_boundTo ..) outer inside
        (by rw [made_afterPart]; omega) flat expandable
    refine ⟨_, ?_, next⟩
    rw [made_afterPart, outerRow, if_pos there, Outcome.shown, shown_of_shows .data shows,
      List.length_take, Nat.min_eq_left more, List.drop_drop]
    rfl

theorem expand_lacking (here : u.BoundTo v f.cursor.generation) (some : b.numRows ≠ 0)
    (lacking : ¬f.cursor.row < v.length) :
    u.expand f b = .error (.argument (.outerRow f.cursor.row v.field.name v.length)) := by
  have failed : u.expansion.expand f.cursor.row f.settings.batchRows (.empty (madeSchema v)) =
      (.error (.argument (.outerRow f.cursor.row v.field.name v.length)), u.expansion,
        .empty (madeSchema v)) := by
    simp [Expansion.expand, here.ready, here.column, Expansion.outputField?, lacking]
  simp only [expand, here.output, if_neg some, failed]

theorem expand_meets (positive : 0 < k) (least : k = min spec.rowCap f.settings.batchRows)
    (due : Due spec k u f.cursor rest expected) (outer : f.cursor.outer = some b)
    (bound : u.generation = some f.cursor.generation) :
    Meets spec k f.cursor rest expected (u.expand f b) := by
  cases due with
  | ended _ none => simp [none] at outer
  | arriving _ _ _ unbound | refused _ _ unbound => exact absurd bound unbound
  | empty work here outer' empty flat expandable =>
    obtain rfl := Option.some.inj (outer'.symm.trans outer)
    exact empty_meets work here outer empty flat expandable
  | @within _ _ _ _ v work here outer' inside made flat expandable =>
    obtain rfl := Option.some.inj (outer'.symm.trans outer)
    by_cases there : f.cursor.row < v.length
    · exact within_meets positive least work here outer inside there made flat expandable
    · rw [expand_lacking here (Nat.ne_zero_of_lt inside) there, outerRow, if_neg there]
      exact ⟨_, rfl⟩

/-- The first row of a bound batch is due, or the end of its one group without rows. -/
theorem due_bound {c : OuterCursor} (work : u.AtWork spec (some (madeSchema v).shape))
    (bound : u.BoundTo v c.generation) (outer : c.outer = some b) (k : Nat) (start : c.row = 0)
    (unmade : u.expansion.progress = none) (flat : v.inner.field.dataType.isRepeated = false)
    (expandable : ∀ b ∈ rest, Expandable spec.field b) :
    Due spec k u c rest
      ((if b.numRows = 0 then [.ok (.batch .endOfGroup (madeSchema v) 0 [])]
        else (List.range b.numRows).flatMap fun r => outerRow k v r 0) ++
        outerOutcomes spec.field k (some (madeSchema v).shape) rest) := by
  split
  next empty => exact .empty work bound outer empty flat expandable
  next some =>
    obtain ⟨n, rows⟩ := Nat.exists_eq_succ_of_ne_zero some
    have made : u.expansion.made c.row = 0 := by rw [Expansion.made, unmade]
    have due : Due spec k u c rest _ := .within work bound outer (by omega)
      (by rw [made]; exact Nat.zero_le _) flat expandable
    rw [made, start, rows, Nat.zero_add, Nat.succ_sub_one] at due
    rwa [rows, List.range_eq_range', List.range'_succ, List.flatMap_cons, Nat.zero_add]

theorem next_meets (positive : 0 < k) (least : k = min spec.rowCap f.settings.batchRows)
    (due : Due spec k u f.cursor rest expected) :
    Meets spec k f.cursor rest expected (u.next f) := by
  cases due with
  | ended work none =>
    rw [next, none]
    rfl
  | @arriving b v _ _ _ known work outer start unbound older plain column flat expandable =>
    obtain ⟨u', bound, work', bound', unmade⟩ := bind_ok work plain column f.cursor.generation
    have due := due_bound work' bound' outer k start unmade flat expandable
    rw [batchOutcomes, List.append_assoc]
    have turn : u.next f = if (madeSchema v).isFresh known then
        .ok (.newSchema (.empty (madeSchema v)), u') else u'.expand f b := by
      simp only [next, outer, if_neg unbound, bound]
      cases (madeSchema v).isFresh known <;> rfl
    rw [turn]
    split
    next fresh =>
      refine ⟨_, ?_, due⟩
      rw [Outcome.shown, madeSchema, shown_of_shows .newSchema (.empty_shows flat)]
      rfl
    next known => exact expand_meets positive least due outer bound'.generation
  | @refused _ e _ _ _ _ work outer unbound plain column =>
    have turn : u.next f = .error e := by
      simp only [next, outer, if_neg unbound, bind_error work plain column]
      rfl
    rw [turn]
    exact ⟨[], rfl⟩
  | empty work here outer empty flat expandable =>
    rw [next, outer]
    simp only [if_pos here.generation]
    exact expand_meets positive least (.empty work here outer empty flat expandable) outer
      here.generation
  | within work here outer inside made flat expandable =>
    rw [next, outer]
    simp only [if_pos here.generation]
    exact expand_meets positive least (.within work here outer inside made flat expandable) outer
      here.generation

theorem Due.phase_running (due : Due spec k u c rest expected) : u.phase = .running := by
  cases due with
  | ended work | arriving work | refused work | empty work | within work => exact work.running

theorem Due.with_recordCount (due : Due spec k u c rest expected) (n : Nat) :
    Due spec k { u with recordCount := n } c rest expected := by
  have work {known : Option Shape} (w : u.AtWork spec known) :
      AtWork { u with recordCount := n } spec known := ⟨w.running, w.made, w.cap, w.shape⟩
  have bound {v : ListVector} (w : u.BoundTo v c.generation) :
      BoundTo { u with recordCount := n } v c.generation :=
    ⟨w.generation, w.ready, w.column, w.output⟩
  cases due with
  | ended w none => exact .ended (work w) none
  | arriving w outer start unbound older plain column flat expandable =>
    exact .arriving (work w) outer start unbound older plain column flat expandable
  | refused w outer unbound plain column => exact .refused (work w) outer unbound plain column
  | empty w here outer empty flat expandable =>
    exact .empty (work w) (bound here) outer empty flat expandable
  | within w here outer inside made flat expandable =>
    exact .within (work w) (bound here) outer inside made flat expandable

/-- A turn gives the first of the outcomes that are due. -/
theorem advance_meets (positive : 0 < k) (least : k = min spec.rowCap f.settings.batchRows)
    (due : Due spec k u f.cursor rest expected) :
    match u.advance f with
    | (.error e, _) => ∃ more, expected = .error e :: more
    | (.ok .endOfStream, _) => expected = [.ok .endOfStream]
    | (.ok o, u) => ∃ more, expected = .ok o.shown :: more ∧
        Due spec k u (f.cursor.follow o rest).1 (f.cursor.follow o rest).2 more := by
  have meets := next_meets positive least due
  simp only [advance, due.phase_running]
  rcases turn : u.next f with e | ⟨o, u'⟩
  · rw [turn] at meets
    exact meets
  · rw [turn] at meets
    cases o
    case endOfStream => exact meets
    all_goals
      obtain ⟨more, first, due⟩ := meets
      exact ⟨more, first, due.with_recordCount _⟩

end Unnest

namespace Pipeline

/-- Following the outer side gives what is due, up to the first fault. -/
theorem followOuter_due {u : Unnest} {fragment : Fragment} {spec : UnnestSpec} {k : Nat}
    {rest : List Batch} {expected : List (Except Fault Shown)} (positive : 0 < k)
    (least : k = min spec.rowCap fragment.settings.batchRows)
    (due : u.Due spec k fragment.cursor rest expected) (limit : Nat) :
    (followOuter limit rest ⟨0, .unnest u, fragment⟩).map (Except.map Outcome.shown) =
      (untilFault expected).take limit := by
  induction limit generalizing u fragment rest expected with
  | zero => rfl
  | succ limit ih =>
    have meets := Unnest.advance_meets positive least due
    simp only [followOuter, standings, Pipeline.advance, Operator.advance, List.map_cons]
    rcases turn : u.advance fragment with ⟨e | o, u'⟩
    · rw [turn] at meets
      obtain ⟨more, rfl⟩ := meets
      simp [untilFault, Except.map]
    · rw [turn] at meets
      cases o
      case endOfStream =>
        obtain rfl := meets
        simp [untilFault, Except.map, Outcome.shown]
      all_goals
        obtain ⟨more, rfl, later⟩ := meets
        simp only [untilFault, List.take_succ_cons]
        congr 1
        exact @ih _ { fragment with cursor := _ } _ _ least later

/-- An unnest that follows its outer side gives exactly what the outer batches come to. -/
theorem unnest_overOuter {settings : Settings} {memoryLimit : Option Nat} {fragment : Fragment}
    {spec : UnnestSpec} {p : Pipeline} {outer : List Batch}
    (shared : Fragment.ofSettings settings memoryLimit = .ok fragment)
    (built : Pipeline.ofPlan (.unnest spec) fragment = .ok p)
    (expandable : ∀ b ∈ outer, Unnest.Expandable spec.field b) (limit : Nat) :
    (p.overOuter limit outer).map (Except.map Outcome.shown) =
      (untilFault (Unnest.outerOutcomes spec.field (min spec.rowCap settings.batchRows) none
        outer)).take limit := by
  obtain ⟨valid, rfl, -⟩ := Fragment.ofSettings_ok shared
  obtain ⟨root, made, rfl⟩ := map_eq_ok.mp built
  obtain ⟨u, unnest, rfl⟩ := map_eq_ok.mp made
  obtain ⟨least, shape⟩ := Unnest.ofSpec_ok unnest
  have positive : 0 < min spec.rowCap fragment.settings.batchRows :=
    Nat.lt_min.mpr ⟨least, Settings.batchRows_pos valid⟩
  have work : u.AtWork spec none := by rw [shape]; exact ⟨rfl, rfl, rfl, rfl⟩
  have unbound : ∀ g ∈ u.generation, g ≤ fragment.cursor.generation := by simp [shape]
  have due := Unnest.due_install work unbound (min spec.rowCap fragment.settings.batchRows)
    expandable
  exact @followOuter_due _ { fragment with cursor := (fragment.cursor.install outer).1 } _ _ _ _
    positive rfl due limit

end Pipeline

def sampleOuter : Batch :=
  ⟨⟨[⟨"xs", .array .boolean, true⟩]⟩, [.repeated ⟨⟨"xs", .array .boolean, true⟩, #[0, 2, 2, 5],
    .ofList ⟨"xs", .boolean, true⟩ ([true, false, true, true, false].map .boolean) none, rfl⟩],
    3, none, 0⟩

theorem unnest_overOuter_sample :
    ∃ fragment p, Fragment.ofSettings .trial none = .ok fragment ∧
      Pipeline.ofPlan (.unnest ⟨"xs", 2⟩) fragment = .ok p ∧
      (p.overOuter 20 [sampleOuter, sampleOuter]).map (Except.map Outcome.shown) =
        let made : Schema := ⟨[⟨"xs", .boolean, true⟩]⟩
        let group : List (Except Fault Shown) :=
          [.ok (.batch .endOfGroup made 2 [[.boolean true], [.boolean false]]),
            .ok (.batch .endOfGroup made 0 []),
            .ok (.batch .data made 2 [[.boolean true], [.boolean true]]),
            .ok (.batch .endOfGroup made 1 [[.boolean false]])]
        .ok (.batch .newSchema made 0 []) :: group ++ group ++ [.ok .endOfStream] := by
  refine ⟨_, _, rfl, rfl, ?_⟩
  rw [@Pipeline.unnest_overOuter .trial none _ ⟨"xs", 2⟩ _ _ rfl rfl]
  · decide +kernel
  · simp only [List.mem_cons, List.not_mem_nil, or_false]
    rintro b (rfl | rfl) <;> exact ⟨rfl, fun v column => by rw [← Except.ok.inj column]; rfl⟩

end BatchFlow

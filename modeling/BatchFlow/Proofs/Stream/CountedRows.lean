import BatchFlow.Proofs.Stream.Histories
import BatchFlow.Proofs.Stream.TypeRefusals
import BatchFlow.Proofs.Stream.Unnesting

/-!
Which outer rows an unnest expands, wherever the cursor is put. An outer batch may count fewer rows
than its columns hold. Values are given of the row at the cursor only, and a row that the expanded
column lacks is refused. But the rows between the record count and the end of the column are given
as well, so the record count is kept to exactly if the cursor stays off them.
-/
namespace BatchFlow

def Outcome.rows (o : Outcome) : List Row := (o.batch?.map Batch.rows).getD []

namespace Unnest

/-- An unnest bound to the column that it expands of an outer batch, with no more values of a row made
than the row has. -/
structure Holds (u : Unnest) (b : Batch) (v : ListVector) (generation : Nat) : Prop where
  plain : b.selection = none
  column : columnOf u.spec.field b = .ok v
  bound : u.BoundTo v generation
  within : ∀ row, u.expansion.made row ≤ v.countAt row

/-- An unnest knows no later generation than the cursor has come to, and if it knows that one, it is
bound to the outer batch there. -/
structure Attached (u : Unnest) (spec : UnnestSpec) (c : OuterCursor) : Prop where
  made : u.spec = spec
  cap : u.expansion.rowCap = spec.rowCap
  older : ∀ g ∈ u.generation, g ≤ c.generation
  holds : u.phase = .running → u.generation = some c.generation →
    ∀ b, c.outer = some b → ∃ v, u.Holds b v c.generation

def begun (u : Unnest) (c : OuterCursor) : Nat :=
  if u.generation = some c.generation then u.expansion.made c.row else 0

variable {u u' : Unnest} {spec : UnnestSpec} {f : Fragment} {b : Batch} {v : ListVector} {o : Outcome}

/-- What may come of expanding a bound batch: values of the row at the cursor, or a fault. -/
inductive Expanded (u : Unnest) (f : Fragment) (b : Batch) (v : ListVector) :
    Except Fault (Outcome × Unnest) → Prop
  | empty (empty : b.numRows = 0) : Expanded u f b v
      (.ok (.endOfGroup (.empty (madeSchema v)), { u with output := some (.empty (madeSchema v)) }))
  | lacking (rows : b.numRows ≠ 0) (past : v.length ≤ f.cursor.row) : Expanded u f b v
      (.error (.argument (.outerRow f.cursor.row v.field.name v.length)))
  | lists (e : Fault) (rows : b.numRows ≠ 0) (inside : f.cursor.row < v.length)
      (many : v.inner.field.dataType.isRepeated = true) (code : e.code = .typeMismatch) :
      Expanded u f b v (.error e)
  | part (o : Outcome) (n : Nat) (rows : b.numRows ≠ 0) (inside : f.cursor.row < v.length)
      (flat : v.inner.field.dataType.isRepeated = false)
      (carries : ∃ b, o = .data b ∨ o = .endOfGroup b)
      (within : u.expansion.made f.cursor.row + n ≤ v.countAt f.cursor.row)
      (shown : o.rows = (((v.valuesAt f.cursor.row).drop (u.expansion.made f.cursor.row)).take
        (min u.spec.rowCap f.settings.batchRows)).map fun x => [x]) :
      Expanded u f b v (.ok (o, u.afterPart v f.cursor.row n))

theorem Holds.expanded_expand (holds : u.Holds b v f.cursor.generation)
    (cap : u.expansion.rowCap = u.spec.rowCap) (running : u.phase = .running) :
    Expanded u f b v (u.expand f b) := by
  have here := holds.bound
  by_cases rows : b.numRows = 0
  · have turn : u.expand f b = .ok (.endOfGroup (.empty (madeSchema v)),
        { u with output := some (.empty (madeSchema v)) }) := by
      simp only [Unnest.expand, here.output, rows, if_pos, Batch.take_empty]
    rw [turn]
    exact .empty rows
  by_cases inside : f.cursor.row < v.length
  · cases many : v.inner.field.dataType.isRepeated with
    | false =>
      obtain ⟨out, shows, turn⟩ :=
        expand_part rfl ⟨running, rfl, cap, rfl⟩ here rows inside (holds.within _) many
      rw [turn]
      refine .part _ _ rows inside many ?_ ?_ ?_
      · split
        · exact ⟨out, .inr rfl⟩
        · exact ⟨out, .inl rfl⟩
      · have := holds.within f.cursor.row
        rw [List.length_drop, ListVector.length_valuesAt]
        omega
      · have same : Outcome.rows (if ((v.valuesAt f.cursor.row).drop
            (u.expansion.made f.cursor.row)).length ≤ min u.spec.rowCap f.settings.batchRows
            then .endOfGroup out else .data out) = out.rows := by
          split <;> rfl
        rw [same, shows.rows_shown, Nat.min_comm, ← List.take_eq_take_min]
    | true =>
      have declined := Expansion.expand_container_declined here.ready here.column inside
        (holds.within _) f.settings.batchRows many
      have turn : u.expand f b = .error (Expansion.clash (Expansion.madeField v)
          (.empty (Expansion.madeField v) none)) := by
        simp only [Unnest.expand, here.output, if_neg rows, madeSchema, declined]
      rw [turn]
      exact .lists _ rows inside many rfl
  · rw [expand_lacking here rows inside]
    exact .lacking rows (Nat.not_lt.mp inside)

theorem Holds.afterPart_holds {generation n : Nat} (holds : u.Holds b v generation) {row : Nat}
    (within : u.expansion.made row + n ≤ v.countAt row) :
    (u.afterPart v row n).Holds b v generation := by
  refine ⟨holds.plain, holds.column, holds.bound.afterPart_boundTo row n, fun r => ?_⟩
  change (if row = r then u.expansion.made row + n else 0) ≤ v.countAt r
  split
  next same => exact same ▸ within
  · exact Nat.zero_le _

inductive Turned (u : Unnest) (spec : UnnestSpec) (f : Fragment) :
    Except Fault (Outcome × Unnest) → Prop
  | ended (u' : Unnest) (none : f.cursor.outer = none) (finished : u'.phase = .finished)
      (attached : u'.Attached spec f.cursor) : Turned u spec f (.ok (.endOfStream, u'))
  | unbound (b : Batch) (e : Fault) (outer : f.cursor.outer = some b)
      (unfit : b.selection = none → ∀ v, columnOf spec.field b ≠ .ok v) : Turned u spec f (.error e)
  | announced (s : Schema) (u' : Unnest) (attached : u'.Attached spec f.cursor) :
      Turned u spec f (.ok (.newSchema (.empty s), u'))
  | expanded (b : Batch) (v : ListVector) (bound : Unnest) (r : Except Fault (Outcome × Unnest))
      (outer : f.cursor.outer = some b) (attached : bound.Attached spec f.cursor)
      (holds : bound.Holds b v f.cursor.generation)
      (begun : bound.expansion.made f.cursor.row = u.begun f.cursor)
      (expanded : Expanded bound f b v r) : Turned u spec f r

theorem plain_of_bind {r : Unnest × Option Schema} (bound : u.bind b = .ok r) :
    b.selection = none := by
  obtain ⟨x, ready, -⟩ := bind_eq_ok.mp bound
  unfold Expansion.setUp at ready
  split at ready
  next all =>
    cases chosen : b.selection with
    | none => rfl
    | some s => cases s <;> simp [Batch.selectionMode, chosen, Selection.mode] at all
  · cases ready

theorem columnOf_repeated {field : String} (named : b.columnNamed? field = some (.repeated v)) :
    columnOf field b = .ok v := by
  rw [columnOf, named]
  rfl

theorem Attached.bind_attached (attached : u.Attached spec f.cursor) (outer : f.cursor.outer = some b)
    {announced : Option Schema}
    (bound : bind { u with generation := some f.cursor.generation } b = .ok (u', announced)) :
    u'.phase = u.phase ∧ u'.expansion.progress = none ∧ u'.Attached spec f.cursor ∧
      ∃ v, u'.Holds b v f.cursor.generation := by
  obtain ⟨v, named, rfl, -⟩ := bind_binds bound
  have holds : Holds { u with
      generation := some f.cursor.generation
      expansion := { u.expansion with ready := true, column := some v, progress := none }
      output := some (.empty ⟨[Expansion.madeField v]⟩)
      outputSchema := announced.or u.outputSchema } b v f.cursor.generation :=
    ⟨plain_of_bind bound, columnOf_repeated named, ⟨rfl, rfl, rfl, rfl⟩, fun row => Nat.zero_le _⟩
  refine ⟨rfl, rfl, ⟨attached.made, attached.cap, ?_, ?_⟩, v, holds⟩
  · rintro g ⟨⟩
    exact Nat.le_refl _
  · intro _ _ b' outer'
    obtain rfl := Option.some.inj (outer.symm.trans outer')
    exact ⟨v, holds⟩

theorem Attached.columnOf_ne (attached : u.Attached spec f.cursor) (running : u.phase = .running)
    {e : Fault} (refused : Unnest.bind { u with generation := some f.cursor.generation } b = .error e)
    (plain : b.selection = none) (v : ListVector) : columnOf spec.field b ≠ .ok v := by
  intro column
  have work : u.AtWork spec (u.outputSchema.map Schema.shape) :=
    ⟨running, attached.made, attached.cap, rfl⟩
  obtain ⟨u', bound, -⟩ := bind_ok work plain column f.cursor.generation
  cases refused.symm.trans bound

theorem Attached.turned_expand (attached : u.Attached spec f.cursor) (running : u.phase = .running)
    (outer : f.cursor.outer = some b) (holds : u.Holds b v f.cursor.generation)
    {u₀ : Unnest} (begun : u.expansion.made f.cursor.row = u₀.begun f.cursor) :
    Turned u₀ spec f (u.expand f b) := by
  have cap : u.expansion.rowCap = u.spec.rowCap := by rw [attached.cap, attached.made]
  exact .expanded b v u _ outer attached holds begun (holds.expanded_expand cap running)

theorem Attached.turned_next (attached : u.Attached spec f.cursor) (running : u.phase = .running) :
    Turned u spec f (u.next f) := by
  unfold Unnest.next
  split
  next none => exact .ended _ none rfl ⟨attached.made, attached.cap, attached.older, nofun⟩
  next b outer =>
    split
    next known =>
      obtain ⟨v, holds⟩ := attached.holds running known b outer
      exact attached.turned_expand running outer holds (if_pos known).symm
    next unknown =>
      cases bound : Unnest.bind { u with generation := some f.cursor.generation } b with
      | error e => exact .unbound b e outer (attached.columnOf_ne running bound)
      | ok r =>
        obtain ⟨u', announced⟩ := r
        obtain ⟨phase, fresh, attached', v, holds⟩ := attached.bind_attached outer bound
        cases announced with
        | some s => exact .announced s u' attached'
        | none =>
          refine attached'.turned_expand (phase.trans running) outer holds ?_
          rw [Unnest.begun, if_neg unknown, Expansion.made, fresh]

theorem Turned.turned_attached {u₀ : Unnest} (turned : Turned u₀ spec f (.ok (o, u))) :
    u.Attached spec f.cursor := by
  cases turned with
  | ended _ _ _ attached => exact attached
  | announced _ _ attached => exact attached
  | expanded b v bound _ outer attached holds _ expanded =>
    have keeps {u' : Unnest} (spec' : u'.spec = bound.spec)
        (cap : u'.expansion.rowCap = bound.expansion.rowCap)
        (generation : u'.generation = bound.generation)
        (holds' : u'.Holds b v f.cursor.generation) : u'.Attached spec f.cursor := by
      refine ⟨spec'.trans attached.made, cap.trans attached.cap, generation ▸ attached.older, ?_⟩
      intro _ _ b' outer'
      obtain rfl := Option.some.inj (outer.symm.trans outer')
      exact ⟨v, holds'⟩
    cases expanded with
    | empty =>
      have here := holds.bound
      exact keeps rfl rfl rfl
        ⟨holds.plain, holds.column, ⟨here.generation, here.ready, here.column, rfl⟩, holds.within⟩
    | part _ n _ _ _ _ within => exact keeps rfl rfl rfl (holds.afterPart_holds within)

theorem Attached.advance_attached (attached : u.Attached spec f.cursor) :
    (u.advance f).2.Attached spec f.cursor := by
  unfold Unnest.advance
  split
  next running =>
    have turned := attached.turned_next running
    split
    next o u' turn =>
      rw [turn] at turned
      obtain ⟨made, cap, older, holds⟩ := turned.turned_attached
      refine ⟨made, cap, older, fun running known b outer => ?_⟩
      obtain ⟨v, plain, column, bound, within⟩ := holds running known b outer
      exact ⟨v, plain, column, ⟨bound.generation, bound.ready, bound.column, bound.output⟩, within⟩
    · exact ⟨attached.made, attached.cap, attached.older, nofun⟩
  all_goals exact attached

end Unnest

namespace Pipeline

inductive Deed where
  | advance
  | close
  | restart
  | load (b : Batch)
  | next
  | moveTo (row : Nat)
  | finish

def perform (p : Pipeline) : Deed → Pipeline
  | .advance => p.advance.2
  | .close => p.close
  | .restart => p.resetProgress
  | .load b => p.withCursor (·.load b)
  | .next => p.withCursor (·.next.2)
  | .moveTo row => p.withCursor (·.moveTo row)
  | .finish => p.withCursor .finish

def after (deeds : List Deed) (p : Pipeline) : Pipeline := deeds.foldl perform p

def begun : Pipeline → Nat
  | ⟨0, .unnest u, f⟩ => u.begun f.cursor
  | _ => 0

/-- The next turn expands a row of an outer batch, which counts rows: the operator runs, and it
announces nothing. -/
structure Expands (p : Pipeline) (field : String) (b : Batch) (v : ListVector) : Prop where
  running : p.root.phase = some .running
  outer : p.fragment.cursor.outer = some b
  rows : b.numRows ≠ 0
  plain : b.selection = none
  column : Unnest.columnOf field b = .ok v
  quiet : ∀ b', p.advance.1 ≠ .ok (.newSchema b')

/-- The next turn gives values of a row that the outer batch counts, or none; and if it expands a row
past the record count, it is refused. -/
structure KeepsToCount (p : Pipeline) (field : String) : Prop where
  given : ∀ o, p.advance.1 = .ok o → o.rows ≠ [] → ∃ b v r m n, p.fragment.cursor.outer = some b ∧
    r < b.numRows ∧ Unnest.columnOf field b = .ok v ∧
    o.rows = (((v.valuesAt r).drop m).take n).map fun x => [x]
  refused : ∀ b v, p.Expands field b v → b.numRows ≤ p.fragment.cursor.row →
    ∃ e, p.advance.1 = .error e ∧ e.code = .invalidArgument

def Attached (p : Pipeline) (spec : UnnestSpec) (settings : Settings) : Prop :=
  ∃ u f, p = ⟨0, .unnest u, f⟩ ∧ f.settings = settings ∧ u.Attached spec f.cursor

variable {p : Pipeline} {spec : UnnestSpec} {settings : Settings} {memoryLimit : Option Nat}
  {fragment : Fragment}

theorem Attached.perform_attached (attached : p.Attached spec settings) (d : Deed) :
    (p.perform d).Attached spec settings := by
  obtain ⟨u, f, rfl, same, attached⟩ := attached
  cases d with
  | advance => exact ⟨(u.advance f).2, f, rfl, same, attached.advance_attached⟩
  | close => exact ⟨u.close, f, rfl, same, attached.made, attached.cap, attached.older, nofun⟩
  | restart =>
    refine ⟨u.resetProgress, f, rfl, same, attached.made, attached.cap, attached.older, ?_⟩
    intro running known b outer
    obtain ⟨v, plain, column, bound, -⟩ := attached.holds running known b outer
    exact ⟨v, plain, column, ⟨bound.generation, bound.ready, bound.column, bound.output⟩,
      fun row => Nat.zero_le _⟩
  | load b =>
    have later : ∀ g ∈ u.generation, g < f.cursor.generation + 1 :=
      fun g there => Nat.lt_succ_of_le (attached.older g there)
    refine ⟨u, _, rfl, same, attached.made, attached.cap,
      fun g there => Nat.le_of_lt (later g there), fun _ known => ?_⟩
    exact absurd (later _ known) (Nat.lt_irrefl _)
  | next | moveTo =>
    exact ⟨u, _, rfl, same, attached.made, attached.cap, attached.older, attached.holds⟩
  | finish => exact ⟨u, _, rfl, same, attached.made, attached.cap, attached.older, nofun⟩

theorem Attached.after_attached (attached : p.Attached spec settings) (deeds : List Deed) :
    (p.after deeds).Attached spec settings := by
  induction deeds generalizing p with
  | nil => exact attached
  | cons d rest ih => exact ih (attached.perform_attached d)

theorem attached_ofPlan (shared : Fragment.ofSettings settings memoryLimit = .ok fragment)
    (built : ofPlan (.unnest spec) fragment = .ok p) : p.Attached spec settings := by
  obtain ⟨-, same, start⟩ := Fragment.ofSettings_ok shared
  obtain ⟨root, made, rfl⟩ := map_eq_ok.mp built
  obtain ⟨u, unnest, rfl⟩ := map_eq_ok.mp made
  obtain ⟨-, rfl⟩ := Unnest.ofSpec_ok unnest
  exact ⟨_, fragment, rfl, same, rfl, rfl, nofun, nofun⟩

theorem result_running {u : Unnest} {f : Fragment} (running : u.phase = .running) :
    (advance ⟨0, .unnest u, f⟩).1 = (u.next f).map Prod.fst := by
  have turn : (advance ⟨0, .unnest u, f⟩).1 = (u.advance f).1 := rfl
  simp only [turn, Unnest.advance, running]
  cases u.next f <;> rfl

def due (p : Pipeline) (spec : UnnestSpec) (settings : Settings) (v : ListVector) : List Row :=
  (((v.valuesAt p.fragment.cursor.row).drop p.begun).take
    (min spec.rowCap settings.batchRows)).map fun x => [x]

/-- Values are given only of the row at the cursor, and only if the expanded column has it. -/
theorem Attached.rows_of_advance {o : Outcome} (attached : p.Attached spec settings)
    (turn : p.advance.1 = .ok o) (some : o.rows ≠ []) :
    ∃ b v, p.Expands spec.field b v ∧ p.fragment.cursor.row < v.length ∧
      o.rows = p.due spec settings v := by
  obtain ⟨u, f, rfl, rfl, attached⟩ := attached
  by_cases running : u.phase = .running
  · have turned := attached.turned_next running
    have result := turn
    rw [result_running running] at result
    obtain ⟨⟨o', u'⟩, next, rfl⟩ := map_eq_ok.mp result
    rw [next] at turned
    cases turned with
    | ended => exact absurd rfl some
    | announced => exact absurd rfl some
    | expanded b v bound _ outer attached holds begun expanded =>
      cases expanded with
      | empty => exact absurd rfl some
      | part _ n rows inside _ carries _ shown =>
        rw [begun, attached.made] at shown
        refine ⟨b, v, ⟨congrArg _ running, outer, rows, holds.plain, attached.made ▸ holds.column, ?_⟩,
          inside, shown⟩
        intro b' announced
        obtain ⟨c, rfl | rfl⟩ := carries <;> cases turn.symm.trans announced
  · cases phase : u.phase with
    | running => exact absurd phase running
    | finished =>
      have ended := (Operator.gives_of_finished (.unnest u) (congrArg _ phase) f).result
      obtain rfl := Except.ok.inj (turn.symm.trans ended)
      exact absurd rfl some
    | failed | closed =>
      obtain ⟨e, -, refused⟩ :=
        Operator.refuses_of_over (.unnest u) (by simp [Operator.phase, phase]) f
      cases turn.symm.trans refused.result

/-- A turn that expands a row is refused if the column lacks the row, or holds lists of lists, and
gives the values that follow otherwise. -/
theorem Attached.advance_of_expands {b : Batch} {v : ListVector} (attached : p.Attached spec settings)
    (expands : p.Expands spec.field b v) :
    (v.length ≤ p.fragment.cursor.row ∧ p.advance.1 =
        .error (.argument (.outerRow p.fragment.cursor.row v.field.name v.length))) ∨
      p.fragment.cursor.row < v.length ∧
        ((v.inner.field.dataType.isRepeated = true ∧
            ∃ e, p.advance.1 = .error e ∧ e.code = .typeMismatch) ∨
          v.inner.field.dataType.isRepeated = false ∧
            ∃ o, p.advance.1 = .ok o ∧ o.rows = p.due spec settings v) := by
  obtain ⟨u, f, rfl, rfl, attached⟩ := attached
  obtain ⟨running, outer, rows, plain, column, quiet⟩ := expands
  have running := Option.some.inj running
  have turned := attached.turned_next running
  rw [result_running running] at quiet ⊢
  revert quiet
  generalize u.next f = r at turned
  intro quiet
  cases turned with
  | ended _ none => cases none.symm.trans outer
  | unbound b' _ outer' unfit =>
    obtain rfl := Option.some.inj (outer'.symm.trans outer)
    exact absurd column (unfit plain v)
  | announced => exact absurd rfl (quiet _)
  | expanded b' v' bound _ outer' attached holds begun expanded =>
    obtain rfl := Option.some.inj (outer'.symm.trans outer)
    obtain rfl : v' = v := Except.ok.inj ((attached.made ▸ holds.column).symm.trans column)
    cases expanded with
    | empty none => exact absurd none rows
    | lacking _ past => exact .inl ⟨past, rfl⟩
    | lists e _ inside many code => exact .inr ⟨inside, .inl ⟨many, e, rfl, code⟩⟩
    | part o n _ inside flat _ _ shown =>
      rw [begun, attached.made] at shown
      exact .inr ⟨inside, .inr ⟨flat, o, rfl, shown⟩⟩

/-- A turn keeps to the record count exactly if it does not expand a row past it that the column has. -/
theorem Attached.keeps_iff (attached : p.Attached spec settings) :
    p.KeepsToCount spec.field ↔ ∀ b v, p.Expands spec.field b v →
      p.fragment.cursor.row < b.numRows ∨ v.length ≤ p.fragment.cursor.row := by
  constructor
  · intro keeps b v expands
    by_contra between
    obtain ⟨uncounted, inside⟩ := not_or.mp between
    obtain ⟨e, refused, code⟩ := keeps.refused b v expands (Nat.not_lt.mp uncounted)
    rcases attached.advance_of_expands expands with
      ⟨past, -⟩ | ⟨-, ⟨-, e', other, code'⟩ | ⟨-, o, made, -⟩⟩
    · exact inside past
    · obtain rfl := Except.error.inj (refused.symm.trans other)
      cases code.symm.trans code'
    · cases refused.symm.trans made
  · intro apart
    constructor
    · intro o turn some
      obtain ⟨b, v, expands, inside, rows⟩ := attached.rows_of_advance turn some
      have counted := (apart b v expands).resolve_right (Nat.not_le.mpr inside)
      exact ⟨b, v, _, _, _, expands.outer, counted, expands.column, rows⟩
    · intro b v expands uncounted
      have past := (apart b v expands).resolve_left (Nat.not_lt.mpr uncounted)
      rcases attached.advance_of_expands expands with ⟨-, refused⟩ | ⟨inside, -⟩
      · exact ⟨_, refused, rfl⟩
      · exact absurd inside (Nat.not_lt.mpr past)

/-- After any history, the next turn keeps to the record count of the outer batch exactly if it does
not expand a row between the record count and the end of the expanded column. Values are given of the
row at the cursor only; a turn that expands a row is refused if the column lacks the row, and gives
the values that follow in it otherwise, if they are no lists, whether the batch counts the row or
not. -/
theorem keeps_to_count_iff (shared : Fragment.ofSettings settings memoryLimit = .ok fragment)
    (built : ofPlan (.unnest spec) fragment = .ok p) (deeds : List Deed) :
    let q := p.after deeds
    let row := q.fragment.cursor.row
    (q.KeepsToCount spec.field ↔
        ∀ b v, q.Expands spec.field b v → row < b.numRows ∨ v.length ≤ row) ∧
      (∀ o, q.advance.1 = .ok o → o.rows ≠ [] →
        ∃ b v, q.Expands spec.field b v ∧ row < v.length ∧ o.rows = q.due spec settings v) ∧
      ∀ b v, q.Expands spec.field b v →
        (v.length ≤ row →
          q.advance.1 = .error (.argument (.outerRow row v.field.name v.length))) ∧
        (row < v.length → v.inner.field.dataType.isRepeated = false →
          ∃ o, q.advance.1 = .ok o ∧ o.rows = q.due spec settings v) := by
  intro q row
  have attached : q.Attached spec settings := (attached_ofPlan shared built).after_attached deeds
  refine ⟨attached.keeps_iff, fun o => attached.rows_of_advance,
    fun b v expands => ⟨fun past => ?_, fun inside flat => ?_⟩⟩
  · rcases attached.advance_of_expands expands with ⟨-, refused⟩ | ⟨inside, -⟩
    · exact refused
    · exact absurd past (Nat.not_le.mpr inside)
  · rcases attached.advance_of_expands expands with ⟨past, -⟩ | ⟨-, ⟨many, -⟩ | ⟨-, given⟩⟩
    · exact absurd inside (Nat.not_lt.mpr past)
    · cases many.symm.trans flat
    · exact given

def twoRows : ListVector :=
  ⟨⟨"items", .array .text, true⟩, #[0, 1, 2],
    .ofList ⟨"items", .text, true⟩ [.text "p", .text "q"] none, rfl⟩

/-- A batch with that column, which counts the first row only. -/
def cutShort : Batch := ⟨⟨[twoRows.field]⟩, [.repeated twoRows], 1, none, 0⟩

/-- It is a batch of two rows whose record count has been lowered. -/
example : (do
    let b ← Batch.ofRows ⟨[twoRows.field]⟩ [[.list [.text "p"]], [.list [.text "q"]]]
    b.resize 1) = .ok cutShort := rfl

/-- The row that is counted is expanded, and one past the column is refused. -/
theorem counted_row_given : ∃ fragment p, Fragment.ofSettings .trial none = .ok fragment ∧
    ofPlan (.unnest (.ofField "items")) fragment = .ok p ∧
    (p.after [.load cutShort, .advance]).KeepsToCount "items" ∧
    (p.after [.load cutShort, .advance, .moveTo 2]).KeepsToCount "items" := by
  refine ⟨_, _, rfl, rfl, ?_, ?_⟩
  · refine (@keeps_to_count_iff _ (.ofField "items") .trial none _ rfl rfl _).1.mpr ?_
    intro b v expands
    obtain rfl := Option.some.inj expands.outer
    exact .inl Nat.one_pos
  · refine (@keeps_to_count_iff _ (.ofField "items") .trial none _ rfl rfl _).1.mpr ?_
    intro b v expands
    obtain rfl := Option.some.inj expands.outer
    obtain rfl := Except.ok.inj expands.column
    exact .inr (Nat.le_refl 2)

/-- The row that is not counted is expanded as well. -/
theorem uncounted_row_given :
    ¬∀ settings memoryLimit fragment spec p deeds,
      Fragment.ofSettings settings memoryLimit = .ok fragment →
      ofPlan (.unnest spec) fragment = .ok p → (p.after deeds).KeepsToCount spec.field := by
  intro keeps
  have attached := @attached_ofPlan _ (.ofField "items") .trial none _ rfl rfl
  have keeps := keeps .trial none _ (.ofField "items") _ [.load cutShort, .advance, .moveTo 1] rfl rfl
  have attached := attached.after_attached [.load cutShort, .advance, .moveTo 1]
  have expands := attached.keeps_iff.mp keeps cutShort twoRows ⟨rfl, rfl, nofun, rfl, rfl, nofun⟩
  revert expands
  decide

end Pipeline
end BatchFlow

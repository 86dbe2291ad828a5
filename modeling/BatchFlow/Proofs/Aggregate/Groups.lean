import BatchFlow.Proofs.Expr.Resolution
import BatchFlow.Specs
import BatchFlow.Aggregate.GroupFold

/-! Groups of rows and what each comes to, said of a whole list of rows: the runs of rows with one
key, and every call folded over exactly the rows of a run. -/
namespace BatchFlow

/-- The maximal runs of consecutive rows whose key equals the key of the run's first row. -/
def runs : List (List Value × Row) → List (List Value × List Row)
  | [] => []
  | (key, row) :: rest =>
    (key, row :: (rest.takeWhile fun r => Value.allEqual key r.1).map Prod.snd) ::
      runs (rest.dropWhile fun r => Value.allEqual key r.1)
termination_by rows => rows.length
decreasing_by exact Nat.lt_succ_of_le (List.dropWhile_sublist _).length_le

@[simp] theorem runs_nil : runs [] = [] := by rw [runs]

theorem runs_singleton (key : List Value) (row : Row) : runs [(key, row)] = [(key, [row])] := by
  rw [runs]; simp

theorem runs_eq_nil {xs : List (List Value × Row)} : runs xs = [] ↔ xs = [] := by
  cases xs with
  | nil => simp
  | cons x xs => rw [runs]; simp

/-- One more row makes the last run longer if it has the key of that run, and begins a run of its
own otherwise. -/
theorem runs_concat {xs : List (List Value × Row)} {gs : List (List Value × List Row)}
    {key : List Value} {rows : List Row} (before : runs xs = gs ++ [(key, rows)])
    (key' : List Value) (row : Row) :
    runs (xs ++ [(key', row)]) =
      gs ++ if Value.allEqual key key' then [(key, rows ++ [row])]
        else [(key, rows), (key', [row])] := by
  induction xs using runs.induct generalizing gs with
  | case1 => simp at before
  | case2 first r rest ih =>
    rw [runs] at before
    rw [List.cons_append, runs, List.takeWhile_append, List.dropWhile_append]
    have parts := List.takeWhile_append_dropWhile (p := fun r => Value.allEqual first r.1)
      (l := rest)
    cases left : rest.dropWhile fun r => Value.allEqual first r.1 with
    | nil =>
      -- The first run is the last one, so the row is compared with its key.
      rw [left, runs_nil, eq_comm, List.append_eq_singleton_iff] at before
      obtain ⟨rfl, last⟩ | ⟨-, none⟩ := before
      · obtain ⟨rfl, rfl⟩ := by simpa using last
        rw [left, List.append_nil] at parts
        cases same : Value.allEqual key key' <;> simp [parts, same, runs_singleton]
      · cases none
    | cons x xs =>
      rw [left] at parts before ih
      have shorter : (rest.takeWhile fun r => Value.allEqual first r.1).length ≠ rest.length := by
        have := congrArg List.length parts
        rw [List.length_append, List.length_cons] at this
        omega
      cases gs with
      | nil =>
        rw [List.nil_append, List.cons.injEq, runs_eq_nil] at before
        cases before.2
      | cons g gs =>
        rw [List.cons_append, List.cons.injEq] at before
        rw [if_neg shorter, ← before.1, @List.cons_append _ _ gs, ← ih before.2]
        simp

namespace Accumulator

variable {a a' : Accumulator} {v : Value}

theorem takeIn_func (h : a.takeIn v = .ok a') : a'.func = a.func := by
  cases a with
  | count | countAll | last => cases h; rfl
  | sum s =>
    obtain ⟨s', -, rfl⟩ := map_eq_ok.mp h
    rfl
  | avg t n =>
    simp only [takeIn] at h
    split at h
    · cases h; rfl
    · cases h
  | min best | max best | first best => cases best <;> · cases h; rfl

theorem accumulate_func (h : a.accumulate v = .ok a') : a'.func = a.func := by
  unfold accumulate at h
  split at h
  · cases h; rfl
  · exact takeIn_func h

def step (arg : Option Expr) (a : Accumulator) (row : Row) : Except EvalError Accumulator :=
  (GroupFold.evalArg row arg).bind a.accumulate

def foldRows (f : AggregateOp) (arg : Option Expr) (rows : List Row) : Except EvalError Accumulator :=
  rows.foldlM (step arg) (start f)

theorem step_func {arg : Option Expr} {row : Row} (h : step arg a row = .ok a') :
    a'.func = a.func := by
  obtain ⟨v, -, taken⟩ := bind_eq_ok.mp h
  exact accumulate_func taken

theorem foldRows_concat {f : AggregateOp} {arg : Option Expr} {rows : List Row} {row : Row}
    (before : foldRows f arg rows = .ok a) (taken : step arg a row = .ok a') :
    foldRows f arg (rows ++ [row]) = .ok a' := by
  unfold foldRows at before ⊢
  rw [List.foldlM_append, bind_eq_ok]
  refine ⟨a, before, ?_⟩
  rw [List.foldlM_cons, bind_eq_ok]
  exact ⟨a', taken, rfl⟩

theorem foldRows_func {f : AggregateOp} {arg : Option Expr} {rows : List Row}
    (h : foldRows f arg rows = .ok a) : a.func = f := by
  have kept (rows : List Row) (b : Accumulator) (h : rows.foldlM (step arg) b = .ok a) :
      a.func = b.func := by
    induction rows generalizing b with
    | nil => rw [← pure_eq_ok.mp h]
    | cons row rows ih =>
      rw [List.foldlM_cons] at h
      obtain ⟨b', first, others⟩ := bind_eq_ok.mp h
      rw [ih b' others, step_func first]
  rw [kept rows _ h, func_start]

end Accumulator

/-- A row goes to one accumulator after another, up to the first that refuses. -/
theorem GroupFold.feed_cons (row : Row) (a : Accumulator) (arg : Option Expr)
    (as : List Accumulator) (args : List (Option Expr)) :
    feed row (a :: as) (arg :: args) =
      match a.step arg row with
      | .error e => (.error e, a :: as)
      | .ok a' => ((feed row as args).1, a' :: (feed row as args).2) := by
  rw [feed]
  rfl

/-- Keys and calls bound to an input schema, and the schema of what they give. -/
structure Layout where
  keys : List Expr
  calls : List (AggregateOp × Option Expr)
  output : Schema

def AggregateSpec.layout (c : AggregateSpec) (s : Schema) : Except Fault Layout := do
  let (g, output) ← (GroupFold.ofCalls c.groupBy c.aggregates).setUp s
  let b ← g.bound
  pure ⟨b.keys, (c.aggregates.map AggregateCall.func).zip b.args, output⟩

theorem AggregateSpec.layout_ok {c : AggregateSpec} {s : Schema} {l : Layout}
    (laid : c.layout s = .ok l) :
    ∃ keys calls, c.groupBy.mapM (GroupFold.layKey s) = .ok keys ∧
      c.aggregates.mapM (GroupFold.layCall s) = .ok calls ∧
      l = ⟨keys.map Prod.fst, (c.aggregates.map AggregateCall.func).zip (calls.map Prod.fst),
        ⟨keys.map Prod.snd ++ calls.map Prod.snd⟩⟩ := by
  obtain ⟨⟨g, output⟩, setUp, laid⟩ := bind_eq_ok.mp laid
  obtain ⟨b, bound, laid⟩ := bind_eq_ok.mp laid
  obtain rfl := pure_eq_ok.mp laid
  obtain ⟨keys, boundKeys, setUp⟩ := bind_eq_ok.mp setUp
  obtain ⟨calls, boundCalls, setUp⟩ := bind_eq_ok.mp setUp
  obtain ⟨rfl, rfl⟩ := Prod.mk.injEq .. ▸ pure_eq_ok.mp setUp
  obtain rfl := Except.ok.inj bound
  exact ⟨keys, calls, boundKeys, boundCalls, rfl⟩

namespace Layout

def key (l : Layout) (row : Row) : Except Fault (List Value) := l.keys.mapM (GroupFold.evalKey row)

/-- The key of a row is made of the grouping expressions in order, whose columns are looked up by their
names. -/
theorem key_eq_byName {c : AggregateSpec} {s : Schema} {l : Layout} {row : Row}
    (laid : c.layout s = .ok l) (whole : row.length = s.width) :
    l.key row = c.groupBy.mapM fun k => (k.expr.evalByName s row).mapError .evaluation := by
  obtain ⟨keys, calls, bound, -, rfl⟩ := AggregateSpec.layout_ok laid
  have each := mapM_eq_ok.mp bound
  clear laid bound
  generalize c.groupBy = groupBy at each ⊢
  unfold key
  induction each with
  | nil => rfl
  | @cons k key groupBy keys first _ ih =>
    obtain ⟨e, bound, first⟩ := bind_eq_ok.mp first
    obtain ⟨t, -, first⟩ := bind_eq_ok.mp first
    obtain rfl := pure_eq_ok.mp first
    obtain ⟨known, rfl⟩ := Expr.bind_ok_iff.mp bound
    have here : GroupFold.evalKey row (k.expr.resolve s) =
        (k.expr.evalByName s row).mapError .evaluation :=
      congrArg (Except.mapError Fault.evaluation) (Expr.eval_resolve whole known)
    simp only [List.map_cons, List.mapM_cons, here] at ih ⊢
    rw [ih]

def keyed (l : Layout) (row : Row) : Except Fault (List Value × Row) :=
  (l.key row).map fun k => (k, row)

def callValues (l : Layout) (rows : List Row) : Except Fault (List Value) :=
  l.calls.mapM fun (f, arg) =>
    ((Accumulator.foldRows f arg rows).map Accumulator.result).mapError .evaluation

/-- The row of a group: its key, and each call folded over exactly its rows. -/
def groupRow (l : Layout) (group : List Value × List Row) : Except Fault Row :=
  (l.callValues group.2).map fun values => group.1 ++ values

/-- One row for each run. With `asked` there is one more, for a group of no rows with no keys. -/
def results (l : Layout) (rows : List Row) (asked : Bool) : Except Fault (List Row) := do
  let keyed ← rows.mapM l.keyed
  (runs keyed ++ if asked then [([], [])] else []).mapM l.groupRow

/-- A fold that is laid out and has taken in exactly these rows. -/
structure Carries (l : Layout) (rows : List Row) (g : GroupFold) : Prop where
  binding : g.binding = some ⟨l.keys, l.calls.map Prod.snd⟩
  states : List.Forall₂ (fun call a => Accumulator.foldRows call.1 call.2 rows = .ok a) l.calls
    g.accumulators

variable {l : Layout} {rows : List Row} {g g' : GroupFold} {row : Row}

theorem Carries.key_eq (c : l.Carries rows g) (row : Row) : g.key row = l.key row := by
  simp [GroupFold.key, GroupFold.bound, c.binding, Layout.key, bind, Except.bind]

theorem feed_ok {calls : List (AggregateOp × Option Expr)} {as as' : List Accumulator}
    (each : List.Forall₂ (fun call a => Accumulator.foldRows call.1 call.2 rows = .ok a) calls as)
    (h : GroupFold.feed row as (calls.map Prod.snd) = (.ok (), as')) :
    List.Forall₂ (fun call a => Accumulator.foldRows call.1 call.2 (rows ++ [row]) = .ok a) calls
      as' := by
  induction each generalizing as' with
  | nil =>
    obtain rfl : [] = as' := by simpa [GroupFold.feed] using h
    exact .nil
  | @cons call a calls as first _ ih =>
    rw [List.map_cons, GroupFold.feed_cons] at h
    split at h
    · cases h
    next a' taken =>
      obtain ⟨fed, rfl⟩ := Prod.mk.inj h
      exact .cons (Accumulator.foldRows_concat first taken) (ih (Prod.ext fed rfl))

theorem Carries.accumulate_carries (c : l.Carries rows g) (h : g.accumulate row = (.ok (), g')) :
    l.Carries (rows ++ [row]) g' := by
  simp only [GroupFold.accumulate, GroupFold.bound, c.binding, Prod.mk.injEq] at h
  obtain ⟨fed, rfl⟩ := h
  refine ⟨rfl, feed_ok c.states ?_⟩
  rw [← mapError_eq_ok.mp fed]

theorem Carries.callValues_eq (c : l.Carries rows g) :
    l.callValues rows = .ok (g.accumulators.map Accumulator.result) := by
  rw [Layout.callValues, mapM_eq_ok, List.forall₂_map_right_iff]
  refine c.states.imp fun call a h => ?_
  simp [h, Except.map, Except.mapError]

theorem Carries.groupRow_eq (c : l.Carries rows g) (key : List Value) :
    l.groupRow (key, rows) = .ok (g.finish key).1 := by
  simp [Layout.groupRow, c.callValues_eq, GroupFold.finish, Except.map]

theorem Carries.restart_carries (c : l.Carries rows g) : l.Carries [] g.restart := by
  refine ⟨c.binding, ?_⟩
  rw [GroupFold.restart, List.forall₂_map_right_iff]
  refine c.states.imp fun call a h => ?_
  rw [Accumulator.reset, Accumulator.foldRows_func h]
  rfl

end Layout

structure GroupFold.Serves (g : GroupFold) (c : AggregateSpec) : Prop where
  groupBy : g.groupBy = c.groupBy
  aggregates : g.aggregates = c.aggregates
  functions : g.accumulators.map Accumulator.func = c.aggregates.map AggregateCall.func

namespace GroupFold.Serves

variable {c : AggregateSpec} {g g' : GroupFold} {row : Row} {s output : Schema}

theorem ofCalls_serves (c : AggregateSpec) : (GroupFold.ofCalls c.groupBy c.aggregates).Serves c :=
  ⟨rfl, rfl, by simp [GroupFold.ofCalls]⟩

theorem hasKeys_eq (serves : g.Serves c) : g.hasKeys = !c.groupBy.isEmpty := by
  rw [GroupFold.hasKeys, serves.groupBy]

theorem restart_serves (serves : g.Serves c) : g.restart.Serves c :=
  ⟨serves.groupBy, serves.aggregates, by
    simpa [GroupFold.restart, Accumulator.reset, Function.comp_def] using serves.functions⟩

theorem feed_func (row : Row) (as : List Accumulator) (args : List (Option Expr)) :
    (feed row as args).2.map Accumulator.func = as.map Accumulator.func := by
  induction as generalizing args with
  | nil => cases args <;> rfl
  | cons a as ih =>
    cases args with
    | nil => rfl
    | cons arg args =>
      rw [feed_cons]
      split
      · rfl
      next a' taken => rw [List.map_cons, List.map_cons, Accumulator.step_func taken, ih]

theorem accumulate_serves (serves : g.Serves c) (row : Row) : (g.accumulate row).2.Serves c := by
  unfold GroupFold.accumulate
  split
  · exact serves
  · exact ⟨serves.groupBy, serves.aggregates, (feed_func ..).trans serves.functions⟩

/-- Laying out depends on the keys and calls only, and forgets what was taken in. -/
theorem setUp_carries (serves : g.Serves c) (h : g.setUp s = .ok (g', output)) :
    g'.Serves c ∧ ∃ l, c.layout s = .ok l ∧ l.output = output ∧ l.Carries [] g' := by
  obtain ⟨keys, boundKeys, h⟩ := bind_eq_ok.mp h
  obtain ⟨calls, boundCalls, h⟩ := bind_eq_ok.mp h
  obtain ⟨rfl, rfl⟩ := Prod.mk.injEq .. ▸ pure_eq_ok.mp h
  rw [serves.groupBy] at boundKeys
  rw [serves.aggregates] at boundCalls
  have count : c.aggregates.length = calls.length := (mapM_eq_ok.mp boundCalls).length_eq
  have laid : c.layout s = .ok ⟨keys.map Prod.fst,
      (c.aggregates.map AggregateCall.func).zip (calls.map Prod.fst),
      ⟨keys.map Prod.snd ++ calls.map Prod.snd⟩⟩ := by
    simp [AggregateSpec.layout, GroupFold.setUp, GroupFold.ofCalls, boundKeys, boundCalls, bind,
      Except.bind, pure, Except.pure, GroupFold.restart, GroupFold.bound]
  have bound : GroupFold.Serves { g with
      binding := some ⟨keys.map Prod.fst, calls.map Prod.fst⟩ } c :=
    ⟨serves.groupBy, serves.aggregates, serves.functions⟩
  refine ⟨bound.restart_serves, _, laid, rfl, ?_, ?_⟩
  · simp [GroupFold.restart, List.map_snd_zip, count]
  · have fresh : (g.accumulators.map Accumulator.reset) =
        (c.aggregates.map AggregateCall.func).map Accumulator.start := by
      rw [← serves.functions, List.map_map]
      rfl
    simp only [GroupFold.restart, fresh, List.forall₂_iff_get]
    refine ⟨by simp [count], fun i _ _ => ?_⟩
    simp [Accumulator.foldRows, pure, Except.pure]

end GroupFold.Serves

def GroupFold.openRow (g : GroupFold) (openKey : Option (List Value)) : List Row :=
  openKey.toList.map fun key => (g.finish key).1

namespace Layout

/-- What a fold laid out by `l` has made of the rows taken in since it was laid out or restarted:
the finished rows, and the open group with its key. -/
def Gathers (l : Layout) (rows : List Row) (finished : List Row) (openKey : Option (List Value))
    (g : GroupFold) : Prop :=
  ∃ pairs, rows.mapM l.keyed = .ok pairs ∧
    match openKey with
    | none => pairs = [] ∧ finished = [] ∧ l.Carries [] g
    | some key => ∃ groups last, runs pairs = groups ++ [(key, last)] ∧
        groups.mapM l.groupRow = .ok finished ∧ l.Carries last g

variable {l : Layout} {rows finished : List Row} {openKey : Option (List Value)}
  {g g' : GroupFold} {row : Row} {key key' : List Value}

theorem Gathers.start_gathers (fresh : l.Carries [] g) : l.Gathers [] [] none g :=
  ⟨[], rfl, rfl, rfl, fresh⟩

theorem Gathers.key_eq (h : l.Gathers rows finished openKey g) (row : Row) : g.key row = l.key row := by
  obtain ⟨_, -, h⟩ := h
  cases openKey with
  | none => exact h.2.2.key_eq row
  | some key =>
    obtain ⟨_, _, _, _, carries⟩ := h
    exact carries.key_eq row

theorem Gathers.carries_restart (h : l.Gathers rows finished openKey g) : l.Carries [] g.restart := by
  obtain ⟨_, -, h⟩ := h
  cases openKey with
  | none => exact h.2.2.restart_carries
  | some key =>
    obtain ⟨_, _, _, _, carries⟩ := h
    exact carries.restart_carries

theorem Gathers.rows_eq_nil (h : l.Gathers rows finished none g) : rows = [] ∧ finished = [] := by
  obtain ⟨pairs, keyed, rfl, rfl, -⟩ := h
  exact ⟨List.forall₂_nil_right_iff.mp (mapM_eq_ok.mp keyed), rfl⟩

theorem keyed_concat {pairs : List (List Value × Row)} (before : rows.mapM l.keyed = .ok pairs)
    (keyed : l.key row = .ok key) :
    (rows ++ [row]).mapM l.keyed = .ok (pairs ++ [(key, row)]) := by
  rw [mapM_append_eq_ok]
  refine ⟨pairs, [(key, row)], before, ?_, rfl⟩
  rw [mapM_eq_ok]
  exact .cons (map_eq_ok.mpr ⟨key, keyed, rfl⟩) .nil

theorem Gathers.first_row (h : l.Gathers rows finished none g) (keyed : l.key row = .ok key)
    (taken : g.accumulate row = (.ok (), g')) :
    l.Gathers (rows ++ [row]) finished (some key) g' := by
  obtain ⟨pairs, before, rfl, rfl, fresh⟩ := h
  refine ⟨_, keyed_concat before keyed, [], [row], ?_, rfl, fresh.accumulate_carries taken⟩
  rw [List.nil_append, runs_singleton, List.nil_append]

theorem Gathers.row_of_key (h : l.Gathers rows finished (some key) g) (keyed : l.key row = .ok key')
    (same : Value.allEqual key key' = true) (taken : g.accumulate row = (.ok (), g')) :
    l.Gathers (rows ++ [row]) finished (some key) g' := by
  obtain ⟨pairs, before, groups, last, split, done, carries⟩ := h
  refine ⟨_, keyed_concat before keyed, groups, last ++ [row], ?_, done,
    carries.accumulate_carries taken⟩
  rw [runs_concat split, if_pos same]

theorem Gathers.row_of_next_key (h : l.Gathers rows finished (some key) g)
    (keyed : l.key row = .ok key') (other : Value.allEqual key key' = false)
    (taken : g.restart.accumulate row = (.ok (), g')) :
    l.Gathers (rows ++ [row]) (finished ++ [(g.finish key).1]) (some key') g' := by
  obtain ⟨pairs, before, groups, last, split, done, carries⟩ := h
  refine ⟨_, keyed_concat before keyed, groups ++ [(key, last)], [row], ?_, ?_,
    carries.restart_carries.accumulate_carries taken⟩
  · rw [runs_concat split, other]
    simp
  · rw [mapM_append_eq_ok]
    exact ⟨_, _, done, mapM_eq_ok.mpr (.cons (carries.groupRow_eq key) .nil), rfl⟩

/-- The finished rows with that of the open group are all that the rows come to. -/
theorem Gathers.results_eq (h : l.Gathers rows finished openKey g) :
    l.results rows false = .ok (finished ++ g.openRow openKey) := by
  obtain ⟨pairs, keyed, h⟩ := h
  rw [Layout.results, bind_eq_ok]
  refine ⟨pairs, keyed, ?_⟩
  cases openKey with
  | none =>
    obtain ⟨rfl, rfl, -⟩ := h
    simp [GroupFold.openRow, pure, Except.pure]
  | some key =>
    obtain ⟨groups, last, split, done, carries⟩ := h
    simp only [split, Bool.false_eq_true, if_false, List.append_nil]
    rw [mapM_append_eq_ok]
    exact ⟨_, _, done, mapM_eq_ok.mpr (.cons (carries.groupRow_eq key) .nil), rfl⟩

/-- Without rows, the group that is asked for has the empty key. -/
theorem Carries.results_asked (fresh : l.Carries [] g) :
    l.results [] true = .ok [(g.finish []).1] := by
  rw [Layout.results, bind_eq_ok]
  refine ⟨[], rfl, ?_⟩
  rw [runs_nil, List.nil_append, if_pos rfl, mapM_eq_ok]
  exact .cons (fresh.groupRow_eq []) .nil

end Layout
end BatchFlow

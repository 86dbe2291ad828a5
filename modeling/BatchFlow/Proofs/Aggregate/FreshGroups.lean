import Mathlib.Data.List.Induction
import BatchFlow.Proofs.Aggregate.Offers
import BatchFlow.Proofs.Expr.Resolution

/-!
The fold of a group is the product of its calls: each has an accumulator of its own, which takes in the
values of its argument and nothing else. Whatever was asked of a fold before, a group that starts
knows of it only the latest layout that succeeded; a layout that is refused leaves no trace.
-/
namespace BatchFlow

/-- What a call takes in from a row of a schema: its first argument there, or a constant to count rows
by. -/
def AggregateCall.Takes (a : AggregateCall) (s : Schema) (row : Row) (v : Value) : Prop :=
  if a.func = .countAll then v = .integer .medium ⟨1, by decide⟩
  else ∃ e ∈ a.args.head?, e.evalByName s row = .ok v

/-- The call's own accumulator, new and offered what the call takes in from each row, refuses none of
it and becomes this one. -/
def AggregateCall.Becomes (a : AggregateCall) (s : Schema) (rows : List Row) (acc : Accumulator) :
    Prop :=
  ∃ vs, List.Forall₂ (a.Takes s) rows vs ∧
    (∀ r ∈ (Accumulator.start a.func).answers vs, r = .ok ()) ∧
    acc = (Accumulator.start a.func).afterOffers vs

namespace Accumulator

variable {a a' : Accumulator} {arg : Option Expr} {rows : List Row}

/-- Rows folded in one after another are values offered one after another, none of them refused. -/
theorem foldlM_step_ok :
    rows.foldlM (step arg) a = .ok a' ↔
      ∃ vs, rows.mapM (GroupFold.evalArg · arg) = .ok vs ∧ (∀ r ∈ a.answers vs, r = .ok ()) ∧
        a' = a.afterOffers vs := by
  induction rows generalizing a with
  | nil => simp [answers, pure, Except.pure, eq_comm]
  | cons row rows ih =>
    simp only [List.foldlM_cons, bind_eq_ok, ih, step, mapM_cons_eq_ok]
    constructor
    · rintro ⟨b, first, vs, others, accepted, rfl⟩
      obtain ⟨v, value, taken⟩ := bind_eq_ok.mp first
      refine ⟨v :: vs, ⟨v, vs, value, others, rfl⟩, ?_, ?_⟩
      · rw [answers, offer_taken taken]
        exact List.forall_mem_cons.mpr ⟨rfl, accepted⟩
      · rw [afterOffers_cons, offer_taken taken]
    · rintro ⟨_, ⟨v, vs, value, others, rfl⟩, accepted, rfl⟩
      rw [answers, List.forall_mem_cons] at accepted
      cases taken : a.accumulate v with
      | error e =>
        rw [offer_refused taken] at accepted
        cases accepted.1
      | ok b =>
        rw [offer_taken taken] at accepted
        rw [afterOffers_cons, offer_taken taken]
        exact ⟨b, bind_eq_ok.mpr ⟨v, value, taken⟩, vs, others, accepted.2, rfl⟩

end Accumulator

namespace GroupFold

/-! What is asked of a fold. -/

inductive Request where
  | setUp (s : Schema)
  | hasKeys
  | key (row : Row)
  | restart
  | accumulate (row : Row)
  | finish (key : List Value)

inductive Reply where
  | output (s : Schema)
  | whether (yes : Bool)
  | key (values : List Value)
  | done
  | row (r : Row)
  | refused (e : Fault)
  deriving DecidableEq

def serve (g : GroupFold) : Request → Reply × GroupFold
  | .setUp s =>
    match g.setUp s with
    | .ok (g, output) => (.output output, g)
    | .error e => (.refused e, g)
  | .hasKeys => (.whether g.hasKeys, g)
  | .key row =>
    match g.key row with
    | .ok values => (.key values, g)
    | .error e => (.refused e, g)
  | .restart => (.done, g.restart)
  | .accumulate row =>
    match g.accumulate row with
    | (.ok (), g) => (.done, g)
    | (.error e, g) => (.refused e, g)
  | .finish key => (.row (g.finish key).1, (g.finish key).2)

def after (g : GroupFold) (qs : List Request) : GroupFold := qs.foldl (fun g q => (g.serve q).2) g

def replies (g : GroupFold) : List Request → List Reply
  | [] => []
  | q :: qs => (g.serve q).1 :: (g.serve q).2.replies qs

variable {g g' : GroupFold} {s : Schema} {output : Schema} {rows : List Row} {row : Row}
  {as as' : List Accumulator} {args : List (Option Expr)} {qs rs : List Request} {q : Request}

@[simp] theorem after_nil (g : GroupFold) : g.after [] = g := rfl

@[simp] theorem after_cons (g : GroupFold) (q : Request) (qs : List Request) :
    g.after (q :: qs) = (g.serve q).2.after qs := rfl

@[simp] theorem after_append (g : GroupFold) (qs rs : List Request) :
    g.after (qs ++ rs) = (g.after qs).after rs := List.foldl_append

theorem replies_append (g : GroupFold) (qs rs : List Request) :
    g.replies (qs ++ rs) = g.replies qs ++ (g.after qs).replies rs := by
  induction qs generalizing g with
  | nil => rfl
  | cons q qs ih => rw [List.cons_append, replies, ih, replies, List.cons_append, after_cons]

/-! A group of rows. -/

def feedAll (args : List (Option Expr)) (as : List Accumulator) (rows : List Row) :
    Option (List Accumulator) :=
  rows.foldlM (fun as row =>
    match feed row as args with
    | (.ok (), as) => some as
    | (.error _, _) => none) as

/-- The first accumulator takes in its rows, and the others theirs. -/
theorem feedAll_cons (a : Accumulator) (arg : Option Expr) (as : List Accumulator)
    (args : List (Option Expr)) (rows : List Row) :
    feedAll (arg :: args) (a :: as) rows =
      ((rows.foldlM (Accumulator.step arg) a).toOption.bind fun a =>
        (feedAll args as rows).map (a :: ·)) := by
  induction rows generalizing a as with
  | nil => rfl
  | cons row rows ih =>
    simp only [feedAll, List.foldlM_cons] at ih ⊢
    cases taken : Accumulator.step arg a row with
    | error e =>
      have refused : feed row (a :: as) (arg :: args) = (.error e, a :: as) := by
        rw [feed_cons, taken]
      simp [refused, bind, Except.bind, Except.toOption]
    | ok b =>
      have fed : feed row (a :: as) (arg :: args) =
          ((feed row as args).1, b :: (feed row as args).2) := by
        rw [feed_cons, taken]
      rcases come : feed row as args with ⟨_ | _, as'⟩
      · cases rows.foldlM (Accumulator.step arg) b <;>
          simp [fed, come, bind, Except.bind, Except.toOption]
      · simpa [fed, come, bind, Except.bind] using ih b as'

@[simp] theorem feedAll_nil (rows : List Row) : feedAll [] [] rows = some [] := by
  induction rows with
  | nil => rfl
  | cons row rows ih => exact ih

theorem serve_accumulate {b : GroupBinding} (bound : g.binding = some b) (row : Row) :
    g.serve (.accumulate row) =
      match feed row g.accumulators b.args with
      | (.ok (), as) => (.done, { g with accumulators := as })
      | (.error e, as) => (.refused (.evaluation e), { g with accumulators := as }) := by
  rcases come : feed row g.accumulators b.args with ⟨e | _, as⟩ <;>
    simp [serve, accumulate, GroupFold.bound, bound, come, Except.mapError]

theorem accepted_iff {b : GroupBinding} (bound : g.binding = some b) (rows : List Row) :
    (∀ r ∈ g.replies (rows.map .accumulate), r = .done) ↔
      ∃ as, feedAll b.args g.accumulators rows = some as := by
  induction rows generalizing g with
  | nil => simp [replies, feedAll]
  | cons row rows ih =>
    rw [List.map_cons, replies, List.forall_mem_cons, serve_accumulate bound]
    simp only [feedAll, List.foldlM_cons]
    rcases come : feed row g.accumulators b.args with ⟨e | _, as⟩
    · simp [bind]
    · simp only [true_and, bind, Option.bind_some]
      exact ih bound

theorem after_rows {b : GroupBinding} (bound : g.binding = some b)
    (fed : feedAll b.args g.accumulators rows = some as) :
    g.after (rows.map .accumulate) = { g with accumulators := as } := by
  induction rows generalizing g with
  | nil =>
    obtain rfl : g.accumulators = as := Option.some.inj fed
    rfl
  | cons row rows ih =>
    rw [List.map_cons, after_cons, serve_accumulate bound]
    simp only [feedAll, List.foldlM_cons] at fed
    rcases come : feed row g.accumulators b.args with ⟨e | _, as'⟩
    · simp [come, bind] at fed
    · have others : feedAll b.args as' rows = some as := by
        simpa [come, bind, feedAll] using fed
      exact ih bound others

/-- What a layout that succeeds leaves: bound keys and arguments, and new accumulators. -/
theorem setUp_ok :
    g.setUp s = .ok (g', output) ↔
      ∃ keys calls, g.groupBy.mapM (layKey s) = .ok keys ∧ g.aggregates.mapM (layCall s) = .ok calls ∧
        g' = { g with binding := some ⟨keys.map Prod.fst, calls.map Prod.fst⟩ }.restart ∧
        output = ⟨keys.map Prod.snd ++ calls.map Prod.snd⟩ := by
  simp only [setUp, bind_eq_ok, pure_eq_ok, Prod.mk.injEq]
  grind

theorem evalArg_layCall {a : AggregateCall} {c : Option Expr × Field} {v : Value}
    (laid : layCall s a = .ok c) : evalArg row c.1 = .ok v ↔ a.Takes s row v := by
  unfold layCall at laid
  unfold AggregateCall.Takes
  split at laid
  next all =>
    obtain rfl := Except.ok.inj laid
    rw [if_pos all]
    exact ⟨fun value => (Except.ok.inj value).symm, fun value => congrArg Except.ok value.symm⟩
  · cases laid
  next f e rest func args notAll =>
    obtain ⟨t, -, laid⟩ := bind_eq_ok.mp laid
    obtain ⟨b, bound, laid⟩ := bind_eq_ok.mp laid
    obtain rfl := pure_eq_ok.mp laid
    obtain ⟨known, rfl⟩ := Expr.bind_ok_iff.mp bound
    have other : a.func ≠ .countAll := notAll
    rw [if_neg other, args]
    simpa [evalArg] using Expr.eval_resolve_ok known

theorem foldRows_layCall {a : AggregateCall} {c : Option Expr × Field} {acc : Accumulator}
    (laid : layCall s a = .ok c) :
    Accumulator.foldRows a.func c.1 rows = .ok acc ↔ a.Becomes s rows acc := by
  simp only [Accumulator.foldRows, Accumulator.foldlM_step_ok, mapM_eq_ok, evalArg_layCall laid,
    AggregateCall.Becomes]

/-- Each call has an accumulator of its own. -/
theorem feedAll_laid {aggregates : List AggregateCall} {calls : List (Option Expr × Field)}
    (laid : List.Forall₂ (fun a c => layCall s a = .ok c) aggregates calls) (rows : List Row) :
    feedAll (calls.map Prod.fst) (aggregates.map fun a => .start a.func) rows = some as ↔
      List.Forall₂ (fun a acc => a.Becomes s rows acc) aggregates as := by
  induction laid generalizing as with
  | nil => simp [eq_comm]
  | @cons a c aggregates calls first _ ih =>
    have own {acc : Accumulator} : (rows.foldlM (Accumulator.step c.1) (.start a.func)) = .ok acc ↔
        a.Becomes s rows acc := foldRows_layCall first
    have some_iff {x : Except EvalError Accumulator} {acc : Accumulator} :
        x.toOption = some acc ↔ x = .ok acc := by cases x <;> simp [Except.toOption]
    simp only [List.map_cons, feedAll_cons, Option.bind_eq_some_iff, Option.map_eq_some_iff, some_iff,
      own, ih, List.forall₂_cons_left_iff]
    grind

/-- Laid out and given rows, a new fold takes them all in exactly if each call's own accumulator does,
and then its row is the key followed by what they come to, in the order of the calls. -/
theorem product_of_calls {groupBy : List Projection} {aggregates : List AggregateCall}
    (laid : (ofCalls groupBy aggregates).setUp s = .ok (g, output)) (rows : List Row) :
    ((∀ r ∈ g.replies (rows.map .accumulate), r = .done) ↔
      ∃ accs, List.Forall₂ (fun a acc => a.Becomes s rows acc) aggregates accs) ∧
    ∀ accs, List.Forall₂ (fun a acc => a.Becomes s rows acc) aggregates accs → ∀ key,
      ((g.after (rows.map .accumulate)).serve (.finish key)).1 =
        .row (key ++ accs.map Accumulator.result) := by
  obtain ⟨keys, calls, -, bound, rfl, -⟩ := setUp_ok.mp laid
  have fed {accs : List Accumulator} :
      feedAll (calls.map Prod.fst) (aggregates.map fun a => .start a.func) rows = some accs ↔
        List.Forall₂ (fun a acc => a.Becomes s rows acc) aggregates accs :=
    feedAll_laid (mapM_eq_ok.mp bound) rows
  have fresh : ((aggregates.map fun a => Accumulator.start a.func).map Accumulator.reset) =
      aggregates.map fun a => .start a.func := by
    simp [Accumulator.reset, Function.comp_def]
  simp only [ofCalls, restart, fresh]
  constructor
  · rw [accepted_iff rfl]
    exact exists_congr fun accs => fed
  · intro accs each key
    rw [after_rows rfl (fed.mpr each)]
    rfl

/-! Any history of requests. -/

/-- What a fold is but for the values taken in and the binding. -/
def forget (g : GroupFold) : GroupFold := { g.restart with binding := none }

theorem map_reset (as : List Accumulator) :
    as.map Accumulator.reset = (as.map Accumulator.func).map Accumulator.start := by
  rw [List.map_map]
  rfl

theorem restart_accumulate (g : GroupFold) (row : Row) :
    (g.serve (.accumulate row)).2.restart = g.restart := by
  have same : (g.accumulate row).2.restart = g.restart := by
    unfold accumulate
    split
    · rfl
    · simp only [restart, map_reset, Serves.feed_func]
  simp only [serve]
  split <;> simpa only [*] using same

theorem restart_rows (g : GroupFold) (rows : List Row) :
    (g.after (rows.map .accumulate)).restart = g.restart := by
  induction rows generalizing g with
  | nil => rfl
  | cons row rows ih => rw [List.map_cons, after_cons, ih, restart_accumulate]

@[simp] theorem restart_restart (g : GroupFold) : g.restart.restart = g.restart := by
  simp [restart, Accumulator.reset, Function.comp_def]

/-- A layout has nothing of what was before it. -/
theorem setUp_forget (g : GroupFold) (s : Schema) : g.setUp s = g.forget.setUp s := by
  have twice := congrArg accumulators (restart_restart g)
  simp only [restart] at twice
  simp only [setUp, forget, restart, twice]

theorem forget_setUp (laid : g.setUp s = .ok (g', output)) : g'.forget = g.forget := by
  obtain ⟨keys, calls, -, -, rfl, -⟩ := setUp_ok.mp laid
  simp only [forget, restart_restart]
  rfl

theorem forget_serve (g : GroupFold) (q : Request) : (g.serve q).2.forget = g.forget := by
  cases q with
  | setUp s =>
    simp only [serve]
    split
    next laid => exact forget_setUp laid
    · rfl
  | hasKeys => rfl
  | key row =>
    simp only [serve]
    split <;> rfl
  | restart => simp [serve, forget]
  | accumulate row => simp [forget, restart_accumulate]
  | finish key => simp [serve, finish, forget]

theorem forget_after (g : GroupFold) (qs : List Request) : (g.after qs).forget = g.forget := by
  induction qs generalizing g with
  | nil => rfl
  | cons q qs ih => rw [after_cons, ih, forget_serve]

/-- What of a history still matters: the schema of the latest layout that succeeded, and the rows that
were given since then and since the latest group was started. -/
structure Standing where
  schema : Option Schema
  rows : List Row

namespace Standing

/-- Layouts succeed for the schemas for which they do on the new fold. -/
def next (new : GroupFold) (st : Standing) : Request → Standing
  | .setUp s =>
    match new.setUp s with
    | .ok _ => ⟨some s, []⟩
    | .error _ => st
  | .restart | .finish _ => ⟨st.schema, []⟩
  | .accumulate row => ⟨st.schema, st.rows ++ [row]⟩
  | .hasKeys | .key _ => st

def after (new : GroupFold) (qs : List Request) : Standing := qs.foldl (next new) ⟨none, []⟩

def requests (st : Standing) : List Request :=
  st.schema.toList.map .setUp ++ st.rows.map .accumulate

end Standing

def Request.starts (new : GroupFold) : Request → Bool
  | .setUp s => (new.setUp s).isOk
  | .restart | .finish _ => true
  | .hasKeys | .key _ | .accumulate _ => false

section History

variable (groupBy : List Projection) (aggregates : List AggregateCall)

@[simp] theorem restart_ofCalls :
    (ofCalls groupBy aggregates).restart = ofCalls groupBy aggregates := by
  simp [restart, ofCalls, Accumulator.reset, Function.comp_def]

/-- Whatever a fold was used for, it is laid out as a new one is. -/
theorem setUp_after (qs : List Request) (s : Schema) :
    ((ofCalls groupBy aggregates).after qs).setUp s = (ofCalls groupBy aggregates).setUp s := by
  rw [setUp_forget, forget_after, ← setUp_forget]

/-- After rows, the fold that is restarted is the one that has only been laid out. -/
theorem restart_requests (st : Standing) :
    ((ofCalls groupBy aggregates).after st.requests).restart =
      (ofCalls groupBy aggregates).after (st.schema.toList.map .setUp) := by
  rw [Standing.requests, after_append, restart_rows]
  cases st.schema with
  | none => exact restart_ofCalls groupBy aggregates
  | some s =>
    simp only [Option.toList_some, List.map_cons, List.map_nil, after_cons, after_nil, serve]
    split
    next come =>
      obtain ⟨keys, calls, -, -, rfl, -⟩ := setUp_ok.mp come
      exact restart_restart _
    · exact restart_ofCalls groupBy aggregates

/-- A history leads where the latest layout that succeeded and the rows since then lead. -/
theorem after_eq_requests (qs : List Request) :
    (ofCalls groupBy aggregates).after qs = (ofCalls groupBy aggregates).after
      (Standing.after (ofCalls groupBy aggregates) qs).requests := by
  induction qs using List.reverseRecOn with
  | nil => rfl
  | append_singleton qs q ih =>
    have fresh := restart_requests groupBy aggregates (.after (ofCalls groupBy aggregates) qs)
    rw [← ih] at fresh
    rw [after_append, after_cons, after_nil, Standing.after, List.foldl_append, ← Standing.after,
      List.foldl_cons, List.foldl_nil]
    cases q with
    | setUp s =>
      simp only [serve, setUp_after, Standing.next]
      cases come : (ofCalls groupBy aggregates).setUp s with
      | ok laid => simp [Standing.requests, serve, come]
      | error e => exact ih
    | hasKeys => exact ih
    | key row =>
      simp only [serve]
      split <;> exact ih
    | restart | finish =>
      rw [Standing.next, Standing.requests, List.map_nil, List.append_nil]
      exact fresh
    | accumulate row =>
      have longer (st : Standing) : Standing.requests ⟨st.schema, st.rows ++ [row]⟩ =
          st.requests ++ [.accumulate row] := by simp [Standing.requests]
      rw [Standing.next, longer, after_append, ← ih]
      rfl

/-- A new fold that is laid out takes in rows exactly if each call's own accumulator, offered what the
call takes in from each row, refuses none of it; the row of the group is then the key followed by what
they come to, in the order of the calls. Whatever was asked of a fold, it is the one that was laid out
for the latest schema that succeeded and then given the rows since the latest group was started; so a
group starts with nothing but the layout. A layout that is refused changes nothing, and whether it is
does not hang on what was asked before. -/
theorem groups_start_fresh :
    (∀ s g output, (ofCalls groupBy aggregates).setUp s = .ok (g, output) → ∀ rows : List Row,
      ((∀ r ∈ g.replies (rows.map .accumulate), r = .done) ↔
        ∃ accs, List.Forall₂ (fun a acc => a.Becomes s rows acc) aggregates accs) ∧
      ∀ accs, List.Forall₂ (fun a acc => a.Becomes s rows acc) aggregates accs → ∀ key,
        ((g.after (rows.map .accumulate)).serve (.finish key)).1 =
          .row (key ++ accs.map Accumulator.result)) ∧
    ∀ qs : List Request,
      let new := ofCalls groupBy aggregates
      new.after qs = new.after (Standing.after new qs).requests ∧
      (∀ q, q.starts new = true → new.after (qs ++ [q]) =
        new.after ((Standing.after new (qs ++ [q])).schema.toList.map .setUp)) ∧
      (∀ s, (new.after qs).setUp s = new.setUp s) ∧
      ∀ s e, (new.after qs).setUp s = .error e → ∀ rs,
        new.after (qs ++ .setUp s :: rs) = new.after (qs ++ rs) ∧
        new.replies (qs ++ .setUp s :: rs) =
          new.replies qs ++ .refused e :: (new.after qs).replies rs := by
  refine ⟨fun s g output laid rows => product_of_calls laid rows, fun qs => ?_⟩
  intro new
  refine ⟨after_eq_requests groupBy aggregates qs, fun q starts => ?started,
    setUp_after groupBy aggregates qs, fun s e refused rs => ⟨?after, ?replies⟩⟩
  case started =>
    have none : (Standing.after new (qs ++ [q])).rows = [] := by
      rw [Standing.after, List.foldl_append, List.foldl_cons, List.foldl_nil]
      cases q with
      | setUp s =>
        simp only [Request.starts] at starts
        simp only [Standing.next]
        split
        · rfl
        next come => simp [come, Except.isOk, Except.toBool] at starts
      | restart | finish => rfl
      | hasKeys | key | accumulate => cases starts
    have direct := after_eq_requests groupBy aggregates (qs ++ [q])
    rwa [Standing.requests, none, List.map_nil, List.append_nil] at direct
  case after => simp [serve, refused]
  case replies => simp [replies_append, replies, serve, refused]

end History

/-- A group with a row that the sum refuses after the count has counted it, and a layout that is
refused; then a group of its own. -/
theorem second_group_fresh :
    let one : Value := .integer .small ⟨1, by decide⟩
    let s : Schema := ⟨[⟨"x", .integer .small, true⟩]⟩
    let calls : List AggregateCall := [⟨.countAll, [], "n"⟩, ⟨.sum, [.column "x" none], "t"⟩]
    let new := ofCalls [] calls
    let first : List Request :=
      [.setUp s, .accumulate [one], .accumulate [.text "a"], .setUp ⟨[]⟩, .accumulate [one]]
    ((new.after first).serve (.finish [])).1 =
        .row [.integer .big ⟨3, by decide⟩, .integer .big ⟨2, by decide⟩] ∧
      new.after (first ++ [.finish []]) = new.after [.setUp s] ∧
      (((new.after (first ++ [.finish []])).after ([[one], [.null]].map .accumulate)).serve
          (.finish [.null])).1 =
        .row [.null, .integer .big ⟨2, by decide⟩, .integer .big ⟨1, by decide⟩] := by
  intro one s calls new first
  obtain ⟨product, history⟩ := groups_start_fresh [] calls
  have fresh : new.after (first ++ [.finish []]) = new.after [.setUp s] :=
    (history first).2.1 (.finish []) rfl
  refine ⟨rfl, fresh, ?_⟩
  obtain ⟨g, output, laid⟩ : ∃ g output, new.setUp s = .ok (g, output) := ⟨_, _, rfl⟩
  have same : new.after [.setUp s] = g := by simp [serve, laid]
  have counted : (⟨.countAll, [], "n"⟩ : AggregateCall).Becomes s [[one], [.null]] (.countAll 2) :=
    ⟨[_, _], .cons rfl (.cons rfl .nil), by decide, rfl⟩
  have summed : (⟨.sum, [.column "x" none], "t"⟩ : AggregateCall).Becomes s [[one], [.null]]
      (.sum (.whole ⟨1, by decide⟩)) :=
    ⟨[one, .null], .cons ⟨_, rfl, rfl⟩ (.cons ⟨_, rfl, rfl⟩ .nil), by decide, rfl⟩
  rw [fresh, same]
  exact (product s g output laid [[one], [.null]]).2 _ (.cons counted (.cons summed .nil)) [.null]

end GroupFold

/-- The values of a group are what the calls' own accumulators come to. -/
theorem Layout.callValues_ok_iff {c : AggregateSpec} {s : Schema} {l : Layout} {rows : List Row}
    {values : List Value} (laid : c.layout s = .ok l) :
    l.callValues rows = .ok values ↔
      ∃ accs, List.Forall₂ (fun a acc => a.Becomes s rows acc) c.aggregates accs ∧
        values = accs.map Accumulator.result := by
  obtain ⟨keys, calls, -, bound, rfl⟩ := AggregateSpec.layout_ok laid
  have each := mapM_eq_ok.mp bound
  clear laid bound
  unfold callValues
  generalize c.aggregates = aggregates at each ⊢
  induction each generalizing values with
  | nil => simp [pure, Except.pure, eq_comm]
  | @cons a call aggregates calls first _ ih =>
    simp only [List.map_cons, List.zip_cons_cons, mapM_cons_eq_ok, ih, mapError_eq_ok, map_eq_ok,
      GroupFold.foldRows_layCall first, List.forall₂_cons_left_iff]
    grind

end BatchFlow

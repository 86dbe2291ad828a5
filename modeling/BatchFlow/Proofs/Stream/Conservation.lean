import BatchFlow.Proofs.Stream.Expansion

/-!
An expansion over any history of its uses. What it holds of a history is one row and one count. The
history itself says how many values of a row have been made: those of its latest calls, back to
another row or a restart. Both agree after every use, so between restarts the calls of a row make its
values in order, none twice and none left out.
-/
namespace BatchFlow.Expansion

inductive Event where
  | made (row count : Nat) (out : Batch)
  | restarted

/-- The row of the last call, unless a restart followed it. -/
def latest? : List Event → Option Nat
  | .made row _ _ :: _ => some row
  | _ => none

/-- How many values of a row the latest calls made, back to another row or a restart. The latest
event comes first. -/
def already (row : Nat) : List Event → Nat
  | .made r count _ :: earlier => if r = row then already row earlier + count else 0
  | _ => 0

def shown (name : String) (row : Nat) : List Event → List Value
  | .made r _ out :: earlier => if r = row then shown name row earlier ++ out.valuesNamed name else []
  | _ => []

inductive Use where
  | setUp (mode : SelectionMode)
  | setColumn (c : Column)
  | setRowCap (cap : Nat)
  | restart
  | close
  | stand (row : Nat)
  | call (requested : Nat) (out : Batch)

/-- An expansion, the row where its cursor stands, and what happened so far. -/
structure History where
  expansion : Expansion
  row : Nat
  events : List Event

namespace History

def use (h : History) : Use → History
  | .setUp mode =>
    match h.expansion.setUp mode with
    | .ok x => { h with expansion := x }
    | .error _ => h
  | .setColumn c =>
    match h.expansion.setColumn c with
    | .ok x => { h with expansion := x, events := .restarted :: h.events }
    | .error _ => h
  | .setRowCap cap => { h with expansion := h.expansion.setRowCap cap }
  | .restart =>
    { h with expansion := h.expansion.resetProgress, events := .restarted :: h.events }
  | .close => { h with expansion := h.expansion.close, events := .restarted :: h.events }
  | .stand row => { h with row }
  | .call requested out =>
    match h.expansion.expand h.row requested out with
    | (.ok count, x, out) => { h with expansion := x, events := .made h.row count out :: h.events }
    | (.error _, x, _) => { h with expansion := x }

def start : History := ⟨.start, 0, []⟩

def after (uses : List Use) : History := uses.foldl use start

/-- What the calls of a row have made are the first values of the row, and the next call for it goes
on with those that follow. -/
structure Conserves (h : History) (v : ListVector) : Prop where
  made : ∀ requested out count x out',
    h.expansion.expand h.row requested out = (.ok count, x, out') →
      count = min (min h.expansion.rowCap requested) (v.countAt h.row - already h.row h.events) ∧
      out'.numRows = count ∧
      out'.valuesNamed (madeField v).name =
        ((v.valuesAt h.row).drop (already h.row h.events)).take count
  -- A call is not refused where there is a flat column for its values beside long enough ones.
  served : ∀ requested out i dst, h.expansion.ready = true → h.row < v.length →
    out.schema.indexOf? (madeField v).name = some i → out.columns[i]? = some (.flat dst) →
    dst.field.sameShape (madeField v) = true →
    (∀ j c, j ≠ i → out.columns[j]? = some c →
      min (min h.expansion.rowCap requested) (v.countAt h.row - already h.row h.events) ≤ c.length) →
      ∃ count x out', h.expansion.expand h.row requested out = (.ok count, x, out')
  inOrder : ∀ row, already row h.events ≤ v.countAt row ∧
    shown (madeField v).name row h.events = (v.valuesAt row).take (already row h.events)
  -- A row is drained once the last call was for it and nothing is left of it.
  drained : h.expansion.isDrained h.row = true ↔
    latest? h.events = some h.row ∧ already h.row h.events = v.countAt h.row

structure Kept (h : History) : Prop where
  latest : latest? h.events = h.expansion.progress.map Progress.row
  counts : ∀ row, already row h.events = h.expansion.made row
  ready : h.expansion.progress ≠ none → h.expansion.ready = true
  inOrder : ∀ v, h.expansion.column = some v → ∀ row, h.expansion.made row ≤ v.countAt row ∧
    shown (madeField v).name row h.events = (v.valuesAt row).take (h.expansion.made row)

variable {h : History} {v : ListVector} {requested count : Nat} {x : Expansion} {out out' : Batch}

theorem kept_restarted (x : Expansion) (row : Nat) (events : List Event)
    (fresh : x.progress = none) : Kept ⟨x, row, .restarted :: events⟩ := by
  have none (row : Nat) : x.made row = 0 := by rw [Expansion.made, fresh]
  refine ⟨by simp [latest?, fresh], fun row => (none row).symm, fun some => absurd fresh some, ?_⟩
  intro v _ row
  rw [none]
  exact ⟨Nat.zero_le _, by simp [Expansion.shown]⟩

theorem Kept.step_eq (kept : h.Kept) (v : ListVector) (requested : Nat) :
    h.expansion.step v h.row requested =
      min (min h.expansion.rowCap requested) (v.countAt h.row - already h.row h.events) := by
  rw [kept.counts, Expansion.step]
  omega

theorem Kept.after_expand (kept : h.Kept)
    (made : h.expansion.expand h.row requested out = (.ok count, x, out')) :
    Kept { h with expansion := x, events := .made h.row count out' :: h.events } := by
  obtain ⟨v, ready, column, rfl, rfl, -, values⟩ := expand_made made
  have here : ∀ row, Expansion.made { h.expansion with
      progress := some ⟨h.row, h.expansion.made h.row + h.expansion.step v h.row requested⟩ } row =
      if h.row = row then h.expansion.made h.row + h.expansion.step v h.row requested else 0 :=
    fun _ => rfl
  refine ⟨rfl, fun row => ?_, fun _ => ready, ?_⟩
  · rw [here, Expansion.already]
    split
    next same => rw [← same, kept.counts]
    · rfl
  · intro v' column' row
    obtain rfl : v = v' := Option.some.inj (column.symm.trans column')
    rw [here, Expansion.shown]
    split
    next same =>
      subst same
      obtain ⟨within, before⟩ := kept.inOrder v column h.row
      have left := h.expansion.step_le v h.row requested
      refine ⟨by omega, ?_⟩
      rw [before, values, List.take_add, part]
    · exact ⟨Nat.zero_le _, List.take_zero.symm⟩

theorem Kept.after_use (kept : h.Kept) (u : Use) : (h.use u).Kept := by
  cases u with
  | setUp mode =>
    rw [History.use]
    split
    next x set =>
      rw [Expansion.setUp] at set
      split at set
      · obtain rfl := Except.ok.inj set
        exact ⟨kept.latest, kept.counts, fun _ => rfl, kept.inOrder⟩
      · cases set
    · exact kept
  | setColumn c =>
    rw [History.use]
    split
    next x set =>
      obtain ⟨v, -, bound⟩ := bind_eq_ok.mp set
      obtain rfl := Except.ok.inj bound
      exact kept_restarted _ _ _ rfl
    · exact kept
  | setRowCap cap => exact ⟨kept.latest, kept.counts, kept.ready, kept.inOrder⟩
  | restart => exact kept_restarted _ _ _ rfl
  | close => exact kept_restarted _ _ _ rfl
  | stand row => exact ⟨kept.latest, kept.counts, kept.ready, kept.inOrder⟩
  | call requested out =>
    rw [History.use]
    split
    next count x out' made => exact kept.after_expand made
    next e x out' refused =>
      have called := h.expansion.expand_called h.row requested out
      rw [refused] at called
      obtain rfl : x = h.expansion := by cases called <;> rfl
      exact kept

theorem Kept.start_kept : start.Kept :=
  ⟨rfl, fun _ => rfl, fun some => absurd rfl some, fun _ none => nomatch none⟩

theorem Kept.after_kept (uses : List Use) : (after uses).Kept :=
  List.foldlRecOn uses History.use Kept.start_kept fun _ kept u _ => kept.after_use u

theorem Kept.isDrained_iff (kept : h.Kept) (column : h.expansion.column = some v) :
    h.expansion.isDrained h.row = true ↔
      latest? h.events = some h.row ∧ already h.row h.events = v.countAt h.row := by
  have within := (kept.inOrder v column h.row).1
  rw [kept.latest, kept.counts]
  cases progress : h.expansion.progress with
  | none => simp [isDrained, progress]
  | some p =>
    have ready : h.expansion.ready = true := kept.ready (by simp [progress])
    rw [Expansion.made, progress] at within ⊢
    simp only [isDrained, progress, column, ready]
    by_cases same : p.row = h.row
    · simp only [same, if_true] at within ⊢
      simp
      omega
    · simp [same]

/-- After any uses of an expansion and any moves of its cursor, a call that succeeds makes as many
values of the row as the cap, the request and what is left of the row allow, and makes exactly those
that follow the ones already made since the last restart or the last call for another row. So the
calls of a row make its values in order, none twice and none left out, and it is drained exactly when
the last call was for it, no restart followed, and nothing of it is left. -/
theorem history_conserves (uses : List Use) (column : (after uses).expansion.column = some v) :
    (after uses).Conserves v := by
  have kept := Kept.after_kept uses
  refine ⟨?_, ?_, fun row => ?_, kept.isDrained_iff column⟩
  · intro requested out count x out' made
    obtain ⟨v', -, column', rfl, -, counted, values⟩ := expand_made made
    obtain rfl : v = v' := Option.some.inj (column.symm.trans column')
    refine ⟨kept.step_eq v requested, counted, ?_⟩
    rw [values, part, kept.counts]
  · intro requested out i dst ready inside place there shape others
    rw [← kept.step_eq] at others
    obtain ⟨w, -, made⟩ := expand_into ready column inside (kept.inOrder v column _).1 place there shape
      others
    exact ⟨_, _, _, made⟩
  · rw [kept.counts]
    exact kept.inOrder v column row

def twoCalls : List Use :=
  [.setUp .all, .setColumn (.repeated twoItems), .setRowCap 1,
    .call 10 (.empty ⟨[madeField twoItems]⟩), .stand 7, .call 10 (.empty ⟨[madeField twoItems]⟩),
    .stand 0, .call 10 (.empty ⟨[madeField twoItems]⟩)]

/-- The row is drained by the two calls, and they made its two values in order. -/
theorem two_calls_conserve : (after twoCalls).Conserves twoItems ∧
    (after twoCalls).expansion.isDrained 0 = true ∧
    shown "items" 0 (after twoCalls).events = [.text "p", .text "q"] := by
  have conserves := history_conserves twoCalls (v := twoItems) rfl
  have last : latest? (after twoCalls).events = some 0 ∧ already 0 (after twoCalls).events = 2 :=
    ⟨rfl, rfl⟩
  have whole : (twoItems.valuesAt 0).take 2 = [.text "p", .text "q"] := rfl
  have inOrder := (conserves.inOrder 0).2
  rw [last.2, whole] at inOrder
  exact ⟨conserves, conserves.drained.mpr last, inOrder⟩

end History
end BatchFlow.Expansion

import BatchFlow.Proofs.Stream.Signals
import BatchFlow.Proofs.Stream.Unnesting

/-!
An aggregation on top of an unnest that follows an outer side. The cursor is moved after the
boundaries that the aggregation hands on, but it is the unnest that reads it. So it matters that the
aggregation never asks between the boundary it has been given and the one it hands on.
-/
namespace BatchFlow

namespace Pipeline

def asked : Pipeline → List (Except Fault Outcome)
  | ⟨0, _, _⟩ => []
  | ⟨_ + 1, root, fragment⟩ => (root.child.turns (root.childTurns fragment)).1

/-- Whether the child is asked only when as many boundaries have been handed on as it has given, if
it has given `taken` and `handed` have been handed on before. -/
def InStep : Nat → Nat → List Pipeline → Prop
  | _, _, [] => True
  | taken, handed, p :: run =>
    (∀ before u after, p.asked = before ++ u :: after → taken + boundaries before = handed) ∧
      InStep (taken + boundaries p.asked) (handed + boundaries [p.advance.1]) run

end Pipeline

theorem boundaries_append (results results' : List (Except Fault Outcome)) :
    boundaries (results ++ results') = boundaries results + boundaries results' :=
  List.countP_append

theorem boundaries_data {os : List Outcome} (data : ∀ o ∈ os, ∃ b, o = .data b) :
    boundaries (os.map .ok) = 0 := by
  rw [boundaries, List.countP_eq_zero]
  intro result member
  obtain ⟨o, there, rfl⟩ := List.mem_map.mp member
  obtain ⟨b, rfl⟩ := data o there
  simp

namespace Unnest

variable {u : Unnest} {spec : UnnestSpec} {k : Nat} {f : Fragment} {rest : List Batch}
  {expected : List (Except Fault Shown)}

def Left (spec : UnnestSpec) (k : Nat) (u : Unnest) (cursor : OuterCursor) (rest : List Batch)
    (o : Outcome) (left : List (Except Fault Shown)) : Prop :=
  o = .endOfStream ∧ left = [] ∨
    o ≠ .endOfStream ∧ Due spec k u (cursor.follow o rest).1 (cursor.follow o rest).2 left

theorem Due.advance_left {o : Outcome} {u' : Unnest} (positive : 0 < k)
    (least : k = min spec.rowCap f.settings.batchRows) (due : Due spec k u f.cursor rest expected)
    (turn : u.advance f = (.ok o, u')) :
    ∃ left, expected = .ok o.shown :: left ∧ Left spec k u' f.cursor rest o left := by
  have meets := advance_meets positive least due
  rw [turn] at meets
  cases o
  case endOfStream => exact ⟨[], meets, .inl ⟨rfl, rfl⟩⟩
  all_goals
    obtain ⟨left, first, due⟩ := meets
    exact ⟨left, first, .inr ⟨by simp, due⟩⟩

/-- The turns that an aggregation takes of an unnest give the first of the outcomes due. -/
theorem Due.asked_left {budgets : List Budget} {us : List Outcome} {op : Operator 0} (positive : 0 < k)
    (least : k = min spec.rowCap f.settings.batchRows) (due : Due spec k u f.cursor rest expected)
    (asked : Asked (Operator.advance f 0) (.unnest u) budgets us op) :
    ∃ u' left, op = .unnest u' ∧ expected = (us.map fun o => .ok o.shown) ++ left ∧
      (us = [] ∧ u' = u ∨ ∃ before last, us = before ++ [last] ∧
        (∀ o ∈ before, ∃ b, o = .data b) ∧ Left spec k u' f.cursor rest last left) := by
  obtain ⟨given, data⟩ := asked
  induction budgets generalizing u us expected with
  | nil =>
    simp only [Child.turns, Prod.mk.injEq] at given
    obtain ⟨none, rfl⟩ := given
    obtain rfl := List.map_eq_nil_iff.mp none.symm
    exact ⟨u, expected, rfl, rfl, .inl ⟨rfl, rfl⟩⟩
  | cons memory budgets ih =>
    obtain ⟨o, os, op₁, after, rfl, first, others⟩ := Child.turns_cons given
    simp only [Operator.advance, Prod.mk.injEq] at first
    obtain ⟨first, rfl, -⟩ := first
    obtain ⟨left, rfl, following⟩ := due.advance_left positive least (Prod.ext first rfl)
    cases os with
    | nil =>
      obtain rfl : budgets = [] := by
        cases budgets with
        | nil => rfl
        | cons => simp [Child.turns] at others
      obtain rfl := (Prod.mk.inj others).2
      exact ⟨_, left, rfl, rfl, .inr ⟨[], o, rfl, by simp, following⟩⟩
    | cons o' os =>
      rw [List.dropLast_cons_cons] at data
      obtain ⟨b, rfl⟩ := data o List.mem_cons_self
      obtain ⟨ended, -⟩ | ⟨-, due'⟩ := following
      · cases ended
      obtain ⟨u', left', rfl, rfl, ends⟩ :=
        ih due' others fun o member => data o (List.mem_cons_of_mem _ member)
      refine ⟨u', left', rfl, rfl, .inr ?_⟩
      obtain ⟨none, -⟩ | ⟨before, last, split, data', following⟩ := ends
      · cases none
      · refine ⟨.data b :: before, last, by rw [split]; rfl, ?_, following⟩
        simpa using data'

end Unnest

/-- How far the unnest is ahead of the aggregation on top of it, which have given and handed on
these outcomes. What is left to come is due where the cursor is, or where it will be once the
boundary that the aggregation still holds has been handed on. -/
inductive Abreast (spec : UnnestSpec) (k : Nat) (us ds : List Outcome) (u : Unnest)
    (cursor : OuterCursor) (rest : List Batch) (left : List (Except Fault Shown)) : Prop
  | level (even : boundaries (us.map .ok) = boundaries (ds.map .ok)) (going : .endOfStream ∉ us)
      (due : u.Due spec k cursor rest left)
  | ahead (closing : Batch) (odd : boundaries (us.map .ok) = boundaries (ds.map .ok) + 1)
      (going : .endOfStream ∉ us)
      (due : u.Due spec k (cursor.follow (.endOfGroup closing) rest).1
        (cursor.follow (.endOfGroup closing) rest).2 left)
  | ended (ended : .endOfStream ∈ us) (none : left = [])

/-- An aggregation from `w₀` on, and the unnest below it that has all of `total` to give. -/
structure Coupled (spec : UnnestSpec) (k : Nat) (total : List (Except Fault Shown)) (w₀ : Working)
    (us ds : List Outcome) (a : Aggregation) (u : Unnest) (f : Fragment) (rest : List Batch) :
    Prop where
  steps : ∃ es, Working.Steps w₀ us es ds { a with memory := f.memory }
  sound : (Operator.aggregate a (.unnest u)).Sound
  abreast : ∃ left, total = (us.map fun o => .ok o.shown) ++ left ∧
    Abreast spec k us ds u f.cursor rest left

section

variable {a₀ a : Aggregation} {c : AggregateSpec} {memory left : Budget} {us us' ds : List Outcome}
  {es : List Event} {w : Working} {spec : UnnestSpec} {k : Nat} {total : List (Except Fault Shown)}
  {u : Unnest} {f : Fragment} {rest : List Batch} {o : Outcome} {op : Operator 1}

theorem Aggregation.Fresh.boundaries_taken (fresh : a₀.Fresh c)
    (steps : Working.Steps { a₀ with memory } us es ds w) :
    boundaries (us.map .ok) =
      boundaries (ds.map .ok) + (w.atHand.filterMap Event.signal?).count .endOfGroup := by
  rw [← boundaries_answers none, ← events_signals, fresh.events_eq steps, List.filterMap_append,
    List.count_append, ← steps.signals_eq, ← boundaries_signals]

theorem Aggregation.Fresh.nothing_after (fresh : a₀.Fresh c)
    (steps : Working.Steps { a₀ with memory } (us ++ us') es ds w) (ended : .endOfStream ∈ us) :
    us' = [] := by
  have last : ∃ before, us ++ us' = before ++ [.endOfStream] ∧ .endOfStream ∉ before := by
    cases fresh.ending steps with
    | going _ _ given => exact absurd (List.mem_append_left us' ended) given
    | ended _ _ given => exact given
    | finished _ _ given => exact given
  rcases last with ⟨before, split, once⟩
  by_contra some
  have same : us ++ us'.dropLast = before := by
    rw [← List.dropLast_append_of_ne_nil some, split, List.dropLast_concat]
  apply once
  rw [← same]
  exact List.mem_append_left _ ended

/-- A turn that asks finds both sides level. -/
theorem Coupled.level_of_asks (fresh : a₀.Fresh c)
    (coupled : Coupled spec k total { a₀ with memory } us ds a u f rest)
    (opening : ∃ es w, Working.Steps { a with memory := f.memory } [] es [] w ∧ w.intake = .awaiting) :
    boundaries (us.map .ok) = boundaries (ds.map .ok) := by
  rcases coupled.steps with ⟨es, before⟩
  rcases opening with ⟨es', w, first, awaiting⟩
  have taken := fresh.boundaries_taken (before.trans first)
  simpa [Working.atHand, awaiting, Intake.events] using taken

theorem Asked.eq_of_nil {σ : Type} {next : Child σ} {s s' : σ} {budgets : List Budget}
    (asked : Asked next s budgets [] s') : s' = s := by
  rcases asked with ⟨given, -⟩
  cases budgets with
  | nil => exact (Prod.mk.inj given).2.symm
  | cons => simp [Child.turns] at given

theorem boundaries_concat (os : List Outcome) (o : Outcome) :
    boundaries ((os ++ [o]).map .ok) = boundaries (os.map .ok) + boundaries [.ok o] := by
  rw [List.map_append, boundaries_append]
  rfl

theorem boundaries_open (other : ∀ b, o ≠ .endOfGroup b) : boundaries [.ok o] = 0 := by
  cases o with
  | endOfGroup b => exact absurd rfl (other b)
  | _ => rfl

theorem follow_of_open {cursor : OuterCursor} (other : ∀ b, o ≠ .endOfGroup b) :
    cursor.follow o rest = (cursor, rest) := by
  cases o with
  | endOfGroup b => exact absurd rfl (other b)
  | _ => rfl

theorem boundaries_closing (b : Batch) : boundaries [.ok (.endOfGroup b)] = 1 := rfl

theorem Abreast.after_taken {u' : Unnest} {before : List Outcome} {last : Outcome}
    {left : List (Except Fault Shown)}
    (even : boundaries (us.map .ok) = boundaries (ds.map .ok)) (going : .endOfStream ∉ us)
    (data : ∀ o ∈ before, ∃ b, o = .data b) (following : u'.Left spec k f.cursor rest last left) :
    Abreast spec k (us ++ (before ++ [last])) ds u' f.cursor rest left := by
  have count : boundaries ((us ++ (before ++ [last])).map .ok) =
      boundaries (ds.map .ok) + boundaries [.ok last] := by
    rw [← List.append_assoc, boundaries_concat, List.map_append, boundaries_append,
      boundaries_data data, even, Nat.add_zero]
  rcases following with ⟨rfl, rfl⟩ | ⟨more, due⟩
  · exact .ended (by simp) rfl
  · have going' : .endOfStream ∉ us ++ (before ++ [last]) := by
      intro member
      rcases List.mem_append.mp member with earlier | member
      · exact going earlier
      · rcases List.mem_append.mp member with early | now
        · rcases data _ early with ⟨b, same⟩
          cases same
        · exact more (List.mem_singleton.mp now).symm
    by_cases closed : ∃ b, last = .endOfGroup b
    · rcases closed with ⟨b, rfl⟩
      rw [boundaries_closing] at count
      exact .ahead b count going' due
    · have other := not_exists.mp closed
      rw [boundaries_open other, Nat.add_zero] at count
      rw [follow_of_open other] at due
      exact .level count going' due

theorem Abreast.after_handed {cursor : OuterCursor} {left : List (Except Fault Shown)}
    (abreast : Abreast spec k us ds u cursor rest left)
    (taken : boundaries ((ds ++ [o]).map .ok) ≤ boundaries (us.map .ok)) :
    Abreast spec k us (ds ++ [o]) u (cursor.follow o rest).1 (cursor.follow o rest).2 left := by
  rw [boundaries_concat] at taken
  by_cases closed : ∃ b, o = .endOfGroup b
  · rcases closed with ⟨b, rfl⟩
    rw [boundaries_closing] at taken
    cases abreast with
    | level even => omega
    | ahead closing odd going due =>
      exact .level (by rw [boundaries_concat, boundaries_closing, odd]) going due
    | ended ended none => exact .ended ended none
  · have other := not_exists.mp closed
    have same : boundaries ((ds ++ [o]).map .ok) = boundaries (ds.map .ok) := by
      rw [boundaries_concat, boundaries_open other, Nat.add_zero]
    rw [follow_of_open other]
    cases abreast with
    | level even going due => exact .level (even.trans same.symm) going due
    | ahead closing odd going due => exact .ahead closing (same ▸ odd) going due
    | ended ended none => exact .ended ended none

/-- A turn keeps the unnest abreast of the cursor, which is moved after it. -/
theorem Coupled.advance_coupled (fresh : a₀.Fresh c) (positive : 0 < k)
    (least : k = min spec.rowCap f.settings.batchRows)
    (coupled : Coupled spec k total { a₀ with memory } us ds a u f rest)
    (more : .endOfStream ∉ ds)
    (turn : Operator.advance f 1 (.aggregate a (.unnest u)) f.memory = (.ok o, op, left)) :
    ∃ us' a' u', op = .aggregate a' (.unnest u') ∧
      Pipeline.asked ⟨1, .aggregate a (.unnest u), f⟩ = us'.map .ok ∧
      (∀ given u later, us' = given ++ u :: later →
        boundaries ((us ++ given).map .ok) = boundaries (ds.map .ok)) ∧
      Coupled spec k total { a₀ with memory } (us ++ us') (ds ++ [o]) a' u'
        { f with memory := left, cursor := (f.cursor.follow o rest).1 }
        (f.cursor.follow o rest).2 := by
  rcases coupled.steps with ⟨es, before⟩
  have rows : 0 < f.settings.batchRows := by omega
  have running : a.phase = .running := before.phase_running fresh.running more
  rcases Operator.turn_steps_of (Operator.advance_measured rows 0) coupled.sound running turn with
    ⟨us', es', w, child, rfl, sound, asked, now, opening, -⟩
  have steps := before.trans now
  have taken : boundaries ((ds ++ [o]).map .ok) ≤ boundaries ((us ++ us').map .ok) := by
    rw [fresh.boundaries_taken steps]
    exact Nat.le_add_right ..
  have given : Pipeline.asked ⟨1, .aggregate a (.unnest u), f⟩ = us'.map .ok := by
    simp only [Pipeline.asked, Operator.child, Operator.childTurns, Operator.turns_asked,
      asked.given]
  have later : ∃ es, Working.Steps { a₀ with memory } (us ++ us') es (ds ++ [o])
      { w.toAggregation with memory := left } := by
    have other : Working.Step w [] [] [] { w.toAggregation with memory := left } :=
      .other w.recordCount left
    exact ⟨_, by simpa using steps.trans other.steps⟩
  rcases coupled.abreast with ⟨left', all, abreast⟩
  by_cases none : us' = []
  · subst none
    obtain rfl := asked.eq_of_nil
    refine ⟨[], _, u, rfl, given, by simp, later, sound, left', by simpa using all, ?_⟩
    rw [List.append_nil] at taken ⊢
    exact abreast.after_handed taken
  · have even := coupled.level_of_asks fresh (opening none)
    cases abreast with
    | ahead _ odd => omega
    | ended ended => exact absurd (fresh.nothing_after steps ended) none
    | level _ going due =>
      rcases due.asked_left positive least asked with
        ⟨u', left'', rfl, rfl, ⟨none', -⟩ | ⟨before, last, rfl, data, following⟩⟩
      · exact absurd none' none
      · refine ⟨_, _, u', rfl, given, ?_, later, sound, left'', by simpa using all,
          (Abreast.after_taken even going data following).after_handed taken⟩
        intro given u later split
        -- Only the last outcome can be something else than data.
        have early : ∀ o ∈ given, ∃ b, o = .data b := by
          intro o member
          apply asked.data
          rw [split, List.dropLast_append_of_ne_nil (List.cons_ne_nil u later)]
          exact List.mem_append_left _ member
        rw [List.map_append, boundaries_append, boundaries_data early, even, Nat.add_zero]

end

namespace Pipeline

variable {a₀ : Aggregation} {c : AggregateSpec} {memory : Budget} {spec : UnnestSpec} {k : Nat}
  {total : List (Except Fault Shown)}

theorem standings_last {p p' : Pipeline} (turn : p.advance = (.ok .endOfStream, p')) (limit : Nat)
    (rest : List Batch) : standings (limit + 1) rest p = [p] := by
  rw [standings, turn]

theorem standings_going {p p' : Pipeline} {o : Outcome} (turn : p.advance = (.ok o, p'))
    (more : o ≠ .endOfStream) (limit : Nat) (rest : List Batch) :
    standings (limit + 1) rest p =
      p :: standings limit (p'.fragment.cursor.follow o rest).2
        (p'.withCursor fun _ => (p'.fragment.cursor.follow o rest).1) := by
  rw [standings, turn]
  cases o
  case endOfStream => exact absurd rfl more
  all_goals rfl

theorem once_cons {o : Outcome} {os : List Outcome} (more : o ≠ .endOfStream)
    (once : .endOfStream ∉ os.dropLast) : .endOfStream ∉ (o :: os).dropLast := by
  cases os with
  | nil => simp
  | cons o' os =>
    rw [List.dropLast_cons_cons, List.mem_cons, not_or]
    exact ⟨more.symm, once⟩

/-- Whether both sides are level before each outcome taken is read off what a turn asks for. -/
theorem even_asked {p : Pipeline} {us us' ds : List Outcome} (given : p.asked = us'.map .ok)
    (even : ∀ given u later, us' = given ++ u :: later →
      boundaries ((us ++ given).map .ok) = boundaries (ds.map .ok))
    (before : List (Except Fault Outcome)) (u : Except Fault Outcome)
    (after : List (Except Fault Outcome)) (split : p.asked = before ++ u :: after) :
    boundaries (us.map .ok) + boundaries before = boundaries (ds.map .ok) := by
  rw [given, List.map_eq_append_iff] at split
  rcases split with ⟨before', after', rfl, rfl, split⟩
  rcases List.map_eq_cons_iff.mp split with ⟨u', after', rfl, -, -⟩
  rw [← boundaries_append, ← List.map_append]
  exact even before' u' after' rfl

/-- A run over the outer side that gives no fault stays in step, and is made of small steps over what
the unnest gives. It goes on until the end is handed on. -/
theorem followOuter_coupled {a : Aggregation} {u : Unnest} {f : Fragment} {rest : List Batch}
    {us ds more : List Outcome} {limit : Nat} (fresh : a₀.Fresh c) (positive : 0 < k)
    (least : k = min spec.rowCap f.settings.batchRows)
    (coupled : Coupled spec k total { a₀ with memory } us ds a u f rest)
    (open' : .endOfStream ∉ ds)
    (run : followOuter limit rest ⟨1, .aggregate a (.unnest u), f⟩ = more.map .ok) :
    InStep (boundaries (us.map .ok)) (boundaries (ds.map .ok))
        (standings limit rest ⟨1, .aggregate a (.unnest u), f⟩) ∧
      ∃ us' a' u' f' rest',
        Coupled spec k total { a₀ with memory } (us ++ us') (ds ++ more) a' u' f' rest' ∧
        .endOfStream ∉ more.dropLast ∧ (.endOfStream ∈ more ∨ more.length = limit) := by
  induction limit generalizing a u f rest us ds more with
  | zero =>
    obtain rfl := List.map_eq_nil_iff.mp run.symm
    exact ⟨trivial, [], a, u, f, rest, by simpa using coupled, by simp, .inr rfl⟩
  | succ limit ih =>
    rcases turn : Operator.advance f 1 (.aggregate a (.unnest u)) f.memory with ⟨result, op, left⟩
    have advance : Pipeline.advance ⟨1, .aggregate a (.unnest u), f⟩ =
        (result, ⟨1, op, { f with memory := left }⟩) := by
      simp only [Pipeline.advance, turn]
    cases result with
    | error e =>
      cases more <;> simp [followOuter, standings, advance] at run
    | ok o =>
      rcases coupled.advance_coupled fresh positive least open' turn with
        ⟨us', a', u', rfl, given, even, coupled'⟩
      have first := even_asked given even
      by_cases last : o = .endOfStream
      · subst last
        rw [followOuter, standings_last advance, List.map_singleton, advance] at run
        obtain rfl : more = [.endOfStream] := by
          cases more with
          | nil => cases run
          | cons o more => simp_all
        rw [standings_last advance]
        exact ⟨⟨first, trivial⟩, us', a', u', _, _, coupled', by simp, .inl (by simp)⟩
      · rw [followOuter, standings_going advance last, List.map_cons, advance] at run
        rw [standings_going advance last]
        cases more with
        | nil => cases run
        | cons o' more =>
          rw [List.map_cons, List.cons.injEq] at run
          rcases run with ⟨same, run⟩
          obtain rfl := Except.ok.inj same
          have open'' : .endOfStream ∉ ds ++ [o] := by
            intro member
            rcases List.mem_append.mp member with before | now
            · exact open' before
            · exact last (List.mem_singleton.mp now).symm
          let moved : Fragment := { f with memory := left, cursor := (f.cursor.follow o rest).1 }
          rcases @ih a' u' moved _ _ _ _ least coupled' open'' run with
            ⟨others, us'', a'', u'', f'', rest'', coupled'', once, ends⟩
          constructor
          · refine ⟨first, ?_⟩
            rw [given, advance, ← boundaries_append, ← List.map_append, ← boundaries_concat]
            exact others
          · refine ⟨us' ++ us'', a'', u'', f'', rest'', by simpa using coupled'', ?_, ?_⟩
            · exact once_cons last once
            · rcases ends with ended | all
              · exact .inl (List.mem_cons_of_mem _ ended)
              · exact .inr (by rw [List.length_cons, all])

end Pipeline
end BatchFlow

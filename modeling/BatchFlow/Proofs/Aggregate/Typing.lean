import BatchFlow.Proofs.Aggregate.Groups
import BatchFlow.Proofs.Expr.Typing

/-!
What an aggregation comes to fits the schema that it announces. An accumulator never holds anything
but values of its argument's type, and sums and averages of them.
-/
namespace BatchFlow

namespace Accumulator

/-- What an accumulator may hold if its argument is of type `t`. -/
def Holds (t : DataType) : Accumulator → Prop
  | count _ | countAll _ | avg .. | sum .empty => True
  | sum (.whole _) => t.isIntegral = true
  | sum (.floating _) => t.isFloating = true
  | min v | max v | first v | last v => ∀ x ∈ v, x.fits t = true

variable {a a' : Accumulator} {t : DataType} {v : Value}

theorem holds_start (f : AggregateOp) (t : DataType) : (start f).Holds t := by
  cases f <;> simp [start, Holds]

theorem holds_sum {s s' : RunningSum} (holds : (sum s).Holds t) (fit : v.fits t = true)
    (added : s.add v = .ok s') : (sum s').Holds t := by
  cases v with
  | integer w n =>
    obtain rfl := (Value.fits_integer n).mp fit
    cases s with
    | empty =>
      obtain rfl := Except.ok.inj added
      rfl
    | whole total =>
      simp only [RunningSum.add] at added
      split at added <;> cases added
      rfl
    | floating total => cases holds
  | floating p x =>
    obtain rfl := (Value.fits_floating x).mp fit
    cases s <;> cases added <;> rfl
  | _ => cases s <;> cases added

theorem Holds.takeIn_holds (holds : a.Holds t) (fit : v.fits t = true) (taken : a.takeIn v = .ok a') :
    a'.Holds t := by
  cases a with
  | count | countAll =>
    obtain rfl := Except.ok.inj taken
    trivial
  | sum s =>
    obtain ⟨s', added, rfl⟩ := map_eq_ok.mp taken
    exact holds_sum holds fit added
  | avg total n =>
    simp only [Accumulator.takeIn] at taken
    split at taken <;> cases taken
    trivial
  | min best | max best =>
    cases best with
    | none =>
      obtain rfl := Except.ok.inj taken
      simpa [Holds] using fit
    | some m =>
      obtain rfl := Except.ok.inj taken
      rintro x ⟨⟩
      split
      · exact fit
      · exact holds m rfl
  | first chosen =>
    cases chosen with
    | none =>
      obtain rfl := Except.ok.inj taken
      simpa [Holds] using fit
    | some m =>
      obtain rfl := Except.ok.inj taken
      exact holds
  | last chosen =>
    obtain rfl := Except.ok.inj taken
    simpa [Holds] using fit

theorem Holds.accumulate_holds (holds : a.Holds t) (fit : v.fits t = true)
    (taken : a.accumulate v = .ok a') : a'.Holds t := by
  unfold Accumulator.accumulate at taken
  split at taken
  · obtain rfl := Except.ok.inj taken
    exact holds
  · exact holds.takeIn_holds fit taken

theorem Holds.result_fits (holds : a.Holds t) :
    a.result.fits (a.func.resultType (some t)) = true := by
  cases a with
  | count | countAll => simp [result, func, AggregateOp.resultType]
  | sum s =>
    cases s with
    | empty => exact Value.null_fits _
    | whole total => cases t <;> simp_all [Holds, DataType.isIntegral, result, RunningSum.result, func,
        AggregateOp.resultType]
    | floating total => cases t <;> simp_all [Holds, DataType.isFloating, result, RunningSum.result,
        func, AggregateOp.resultType]
  | avg total n =>
    simp only [result, func, AggregateOp.resultType]
    split <;> simp
  | min chosen | max chosen | first chosen | last chosen =>
    cases chosen with
    | none => exact Value.null_fits _
    | some x => exact holds x rfl

theorem step_holds {arg : Option Expr} {row : Row} (holds : a.Holds t)
    (fit : ∀ v, GroupFold.evalArg row arg = .ok v → v.fits t = true)
    (taken : step arg a row = .ok a') : a'.Holds t := by
  obtain ⟨v, value, taken⟩ := bind_eq_ok.mp taken
  exact holds.accumulate_holds (fit v value) taken

theorem foldlM_holds {arg : Option Expr} {rows : List Row} (holds : a.Holds t)
    (fit : ∀ row ∈ rows, ∀ v, GroupFold.evalArg row arg = .ok v → v.fits t = true)
    (folded : rows.foldlM (step arg) a = .ok a') : a'.Holds t := by
  induction rows generalizing a with
  | nil => exact pure_eq_ok.mp folded ▸ holds
  | cons row rows ih =>
    rw [List.foldlM_cons] at folded
    obtain ⟨b, first, others⟩ := bind_eq_ok.mp folded
    have here : b.Holds t := step_holds holds (fit row List.mem_cons_self) first
    exact ih here (fun r member => fit r (List.mem_cons_of_mem _ member)) others

/-- A call over rows on which its argument is of type `t` has taken in values of that type only. -/
theorem foldRows_holds {f : AggregateOp} {arg : Option Expr} {rows : List Row}
    (fit : ∀ row ∈ rows, ∀ v, GroupFold.evalArg row arg = .ok v → v.fits t = true)
    (folded : foldRows f arg rows = .ok a) : a.Holds t :=
  foldlM_holds (holds_start f t) fit folded

end Accumulator

/-- A spec none of whose keys and arguments is a list that is written out. -/
def AggregateSpec.ListFree (c : AggregateSpec) : Prop :=
  (∀ k ∈ c.groupBy, ¬k.expr.IsList) ∧ ∀ a ∈ c.aggregates, ∀ e ∈ a.args, ¬e.IsList

/-- Every group's key is that of one of the rows, and its rows are among them. -/
theorem mem_runs {xs : List (List Value × Row)} {group : List Value × List Row}
    (member : group ∈ runs xs) :
    (∃ row, (group.1, row) ∈ xs) ∧ ∀ row ∈ group.2, ∃ key, (key, row) ∈ xs := by
  induction xs using runs.induct with
  | case1 => simp at member
  | case2 key row rest ih =>
    rw [runs, List.mem_cons] at member
    rcases member with rfl | later
    · refine ⟨⟨row, List.mem_cons_self⟩, fun r inside => ?_⟩
      rcases List.mem_cons.mp inside with rfl | inside
      · exact ⟨key, List.mem_cons_self⟩
      · obtain ⟨pair, taken, rfl⟩ := List.mem_map.mp inside
        exact ⟨pair.1, List.mem_cons_of_mem _ ((List.takeWhile_sublist _).subset taken)⟩
    · have among {pair : List Value × Row}
          (inside : pair ∈ rest.dropWhile fun r => Value.allEqual key r.1) :
          pair ∈ (key, row) :: rest :=
        List.mem_cons_of_mem _ ((List.dropWhile_sublist _).subset inside)
      obtain ⟨⟨r, there⟩, rows⟩ := ih later
      exact ⟨⟨r, among there⟩, fun r inside => (rows r inside).imp fun _ => among⟩

namespace Layout

variable {c : AggregateSpec} {s : Schema} {l : Layout} {row : Row} {rows results : List Row}
  {key values : List Value}

/-- A key has a value of its type in each place, or the list that is written out there. -/
theorem key_typed (laid : c.layout s = .ok l) (admitted : s.Admits row)
    (keyed : l.key row = .ok key) :
    List.Forall₂ (fun k v => ∃ t, k.expr.dataType s = .ok t ∧
      (v.fits t = true ∨ ∃ items, k.expr = .literal (.list items) ∧ v = .list items))
      c.groupBy key := by
  obtain ⟨keys, calls, boundKeys, -, rfl⟩ := AggregateSpec.layout_ok laid
  have values := mapM_eq_ok.mp keyed
  rw [List.forall₂_map_left_iff] at values
  refine (forall₂_comp (mapM_eq_ok.mp boundKeys) values).imp ?_
  rintro k v ⟨⟨e, field⟩, lay, value⟩
  obtain ⟨e, bound, lay⟩ := bind_eq_ok.mp lay
  obtain ⟨t, typed, lay⟩ := bind_eq_ok.mp lay
  obtain ⟨rfl, rfl⟩ := Prod.mk.inj (pure_eq_ok.mp lay)
  exact ⟨t, typed, Expr.eval_fits admitted typed bound (mapError_eq_ok.mp value)⟩

theorem keyFields_typed (laid : c.layout s = .ok l) :
    List.Forall₂ (fun k (f : Field) => k.expr.dataType s = .ok f.dataType) c.groupBy
      (l.output.fields.take c.groupBy.length) := by
  obtain ⟨keys, calls, boundKeys, -, rfl⟩ := AggregateSpec.layout_ok laid
  have lays := mapM_eq_ok.mp boundKeys
  have count : c.groupBy.length = (keys.map Prod.snd).length := by
    rw [List.length_map, lays.length_eq]
  rw [count, List.take_left, List.forall₂_map_right_iff]
  refine lays.imp fun k lay made => ?_
  obtain ⟨e, -, made⟩ := bind_eq_ok.mp made
  obtain ⟨t, typed, made⟩ := bind_eq_ok.mp made
  obtain rfl := pure_eq_ok.mp made
  exact typed

theorem key_fits (laid : c.layout s = .ok l) (flat : c.ListFree) (admitted : s.Admits row)
    (keyed : l.key row = .ok key) :
    List.Forall₂ (fun (f : Field) v => v.fits f.dataType = true)
      (l.output.fields.take c.groupBy.length) key := by
  have values := List.forall₂_and_left _ _ |>.mpr ⟨flat.1, key_typed laid admitted keyed⟩
  refine (forall₂_comp (keyFields_typed laid).flip values).imp ?_
  rintro f v ⟨k, typed, plain, t, typed', fits | ⟨items, list, -⟩⟩
  · rwa [Except.ok.inj (typed.symm.trans typed')]
  · exact absurd ⟨items, list⟩ plain

theorem call_fits {a : AggregateCall} {arg : Option Expr} {field : Field} {acc : Accumulator}
    (lay : GroupFold.layCall s a = .ok (arg, field)) (flat : ∀ e ∈ a.args, ¬e.IsList)
    (admitted : ∀ row ∈ rows, s.Admits row)
    (folded : Accumulator.foldRows a.func arg rows = .ok acc) :
    acc.result.fits field.dataType = true := by
  have func : acc.func = a.func := Accumulator.foldRows_func folded
  unfold GroupFold.layCall at lay
  split at lay
  next all =>
    obtain ⟨rfl, rfl⟩ := Prod.mk.inj (Except.ok.inj lay)
    have holds : acc.Holds (.integer .medium) := by
      refine Accumulator.foldRows_holds (fun row _ v value => ?_) folded
      obtain rfl := Except.ok.inj value
      simp
    have fits := holds.result_fits
    rw [func, all] at fits
    exact fits
  · cases lay
  next e rest args _ =>
    obtain ⟨t, typed, lay⟩ := bind_eq_ok.mp lay
    obtain ⟨b, bound, lay⟩ := bind_eq_ok.mp lay
    obtain ⟨rfl, rfl⟩ := Prod.mk.inj (pure_eq_ok.mp lay)
    have holds : acc.Holds t := by
      refine Accumulator.foldRows_holds (fun row member v value => ?_) folded
      refine (Expr.eval_fits (admitted row member) typed bound value).resolve_right ?_
      rintro ⟨items, list, -⟩
      exact flat e (args ▸ List.mem_cons_self) ⟨items, list⟩
    have fits := holds.result_fits
    rw [func] at fits
    exact fits

theorem callValues_fit (laid : c.layout s = .ok l) (flat : c.ListFree)
    (admitted : ∀ row ∈ rows, s.Admits row) (comes : l.callValues rows = .ok values) :
    List.Forall₂ (fun (f : Field) v => v.fits f.dataType = true)
      (l.output.fields.drop c.groupBy.length) values := by
  obtain ⟨keys, calls, boundKeys, boundCalls, rfl⟩ := AggregateSpec.layout_ok laid
  have count : (keys.map Prod.snd).length = c.groupBy.length := by
    rw [List.length_map, (mapM_eq_ok.mp boundKeys).length_eq]
  rw [← count, List.drop_left]
  have values := mapM_eq_ok.mp comes
  have bound := mapM_eq_ok.mp boundCalls
  rw [List.zip_map, List.forall₂_map_left_iff] at values
  rw [List.forall₂_map_left_iff]
  have lays := List.forall₂_and_left _ _ |>.mpr ⟨flat.2, bound⟩
  refine (forall₂_of_zip lays values).imp ?_
  rintro ⟨arg, field⟩ v ⟨a, ⟨plain, lay⟩, value⟩
  obtain ⟨acc, folded, rfl⟩ := map_eq_ok.mp (mapError_eq_ok.mp value)
  exact call_fits lay plain admitted folded

/-- The row of a group fits the output schema. -/
theorem groupRow_fits (laid : c.layout s = .ok l) (flat : c.ListFree)
    (admitted : ∀ row ∈ rows, s.Admits row)
    (fits : List.Forall₂ (fun (f : Field) v => v.fits f.dataType = true)
      (l.output.fields.take c.groupBy.length) key)
    (comes : l.groupRow (key, rows) = .ok row) : l.output.Admits row := by
  obtain ⟨values, called, rfl⟩ := map_eq_ok.mp comes
  have whole : List.Forall₂ _ (_ ++ _) (_ ++ _) :=
    List.rel_append fits (callValues_fit laid flat admitted called)
  rwa [List.take_append_drop] at whole

/-- What rows of the input schema come to fits the output schema. -/
theorem results_fit (laid : c.layout s = .ok l) (flat : c.ListFree) {asked : Bool}
    (keyless : asked = true → c.groupBy = []) (admitted : ∀ row ∈ rows, s.Admits row)
    (comes : l.results rows asked = .ok results) : ∀ row ∈ results, l.output.Admits row := by
  intro result member
  obtain ⟨keyed, pairs, comes⟩ := bind_eq_ok.mp comes
  have origin {key : List Value} {row : Row} (inside : (key, row) ∈ keyed) :
      row ∈ rows ∧ l.key row = .ok key := by
    obtain ⟨r, there, same⟩ := exists_left_of_mem (mapM_eq_ok.mp pairs) inside
    obtain ⟨k, keyOf, same⟩ := map_eq_ok.mp same
    obtain ⟨rfl, rfl⟩ := Prod.mk.inj same
    exact ⟨there, keyOf⟩
  obtain ⟨⟨key, group⟩, there, made⟩ := exists_left_of_mem (mapM_eq_ok.mp comes) member
  rcases List.mem_append.mp there with run | default
  · obtain ⟨⟨first, inside⟩, among⟩ := mem_runs run
    obtain ⟨inRows, keyOf⟩ := origin inside
    refine groupRow_fits laid flat (fun row inGroup => ?_)
      (key_fits laid flat (admitted first inRows) keyOf) made
    obtain ⟨_, inKeyed⟩ := among row inGroup
    exact admitted row (origin inKeyed).1
  · cases asked with
    | false => simp at default
    | true =>
      obtain ⟨rfl, rfl⟩ : key = [] ∧ group = [] := by simpa using default
      refine groupRow_fits laid flat (by simp) ?_ made
      simp [keyless rfl]

end Layout
end BatchFlow

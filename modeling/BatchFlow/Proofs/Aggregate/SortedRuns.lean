import BatchFlow.Proofs.Aggregate.Typing
import BatchFlow.Proofs.Value.Ordering
import Mathlib.Data.List.Chain
import Mathlib.Data.List.TakeWhile

/-!
Runs of rows that come in the order of their keys. Each key has one run, with all of its rows, and
the runs come in ascending order, also after a batch has given them back.
-/
namespace BatchFlow

open Std

def Value.Below (a b : List Value) : Prop := Value.compareAll a b = .lt

theorem Value.Below.allEqual_eq_false {a b : List Value} (below : Below a b) :
    allEqual a b = false ∧ allEqual b a = false := by
  have other : compareAll b a = .gt := OrientedCmp.gt_of_lt below
  simp [allEqual, other, show compareAll a b = .lt from below]

def Ascends (pairs : List (List Value × Row)) : Prop :=
  (pairs.map Prod.fst).IsChain fun a b => (Value.compareAll a b).isLE

instance (pairs : List (List Value × Row)) : Decidable (Ascends pairs) :=
  inferInstanceAs (Decidable (List.IsChain _ _))

abbrev SortableKeys (K : List Value → Prop) : Prop :=
  TransCmp fun a b : Subtype K => Value.compareAll a.1 b.1

section

variable {K : List Value → Prop} {key : List Value} {row : Row}
  {xs rest : List (List Value × Row)}

theorem filter_of_unequal (apart : ∀ p ∈ xs, Value.allEqual key p.1 = false) :
    xs.filter (fun p => Value.allEqual key p.1) = [] :=
  List.filter_eq_nil_iff.mpr fun p member => by simp [apart p member]

theorem below_of_dropWhile (sortable : SortableKeys K) (first : K key) (inside : ∀ p ∈ xs, K p.1)
    (least : ∀ p ∈ xs, (Value.compareAll key p.1).isLE)
    (sorted : xs.Pairwise fun p q => (Value.compareAll p.1 q.1).isLE) :
    ∀ p ∈ xs.dropWhile fun r => Value.allEqual key r.1, Value.Below key p.1 := by
  induction xs with
  | nil => simp
  | cons x xs ih =>
    obtain ⟨smaller, sorted⟩ := List.pairwise_cons.mp sorted
    rw [List.dropWhile_cons]
    split
    · exact ih (fun p member => inside p (List.mem_cons_of_mem x member))
        (fun p member => least p (List.mem_cons_of_mem x member)) sorted
    next other =>
      have below : Value.Below key x.1 := by
        have le := least x List.mem_cons_self
        rw [Value.allEqual, decide_eq_true_eq] at other
        cases order : Value.compareAll key x.1 <;> simp_all [Value.Below]
      intro p member
      rcases List.mem_cons.mp member with rfl | later
      · exact below
      · exact sortable.lt_of_lt_of_isLE (a := ⟨key, first⟩) (b := ⟨x.1, inside x List.mem_cons_self⟩)
          (c := ⟨p.1, inside p member⟩) below (smaller p later)

theorem below_of_later_run (sortable : SortableKeys K) (inside : ∀ p ∈ (key, row) :: rest, K p.1)
    (sorted : ((key, row) :: rest).Pairwise fun p q => (Value.compareAll p.1 q.1).isLE)
    {group : List Value × List Row}
    (later : group ∈ runs (rest.dropWhile fun r => Value.allEqual key r.1)) :
    Value.Below key group.1 := by
  obtain ⟨⟨r, there⟩, -⟩ := mem_runs later
  obtain ⟨least, sorted⟩ := List.pairwise_cons.mp sorted
  exact below_of_dropWhile sortable (inside _ List.mem_cons_self)
    (fun p member => inside p (List.mem_cons_of_mem _ member)) least sorted _ there

/-- If the rows come in the order of their keys, so do the runs, and no key has two of them. -/
theorem runs_ascending (sortable : SortableKeys K) (inside : ∀ p ∈ xs, K p.1)
    (sorted : xs.Pairwise fun p q => (Value.compareAll p.1 q.1).isLE) :
    ((runs xs).map Prod.fst).Pairwise Value.Below := by
  induction xs using runs.induct with
  | case1 => simp
  | case2 key row rest ih =>
    have fewer := (List.dropWhile_sublist (l := rest) fun r => Value.allEqual key r.1).trans
      (List.sublist_cons_self (key, row) rest)
    rw [runs, List.map_cons, List.pairwise_cons]
    refine ⟨fun k member => ?_,
      ih (fun p member => inside p (fewer.subset member)) (sorted.sublist fewer)⟩
    obtain ⟨group, later, rfl⟩ := List.mem_map.mp member
    exact below_of_later_run sortable inside sorted later

theorem runs_whole (sortable : SortableKeys K) (inside : ∀ p ∈ xs, K p.1)
    (sorted : xs.Pairwise fun p q => (Value.compareAll p.1 q.1).isLE) : ∀ group ∈ runs xs,
      group.2 = (xs.filter fun p => Value.allEqual group.1 p.1).map Prod.snd := by
  induction xs using runs.induct with
  | case1 => simp
  | case2 key row rest ih =>
    have first : K key := inside (key, row) List.mem_cons_self
    have inRest : ∀ p ∈ rest, K p.1 := fun p member => inside p (List.mem_cons_of_mem _ member)
    obtain ⟨least, sortedRest⟩ := List.pairwise_cons.mp sorted
    have fewer := List.dropWhile_sublist (l := rest) fun r => Value.allEqual key r.1
    have equal : ∀ p ∈ rest.takeWhile fun r => Value.allEqual key r.1,
        Value.allEqual key p.1 = true := by
      intro p member
      exact List.mem_takeWhile_imp (p := fun r : List Value × Row => Value.allEqual key r.1) member
    have split (p : List Value × Row → Bool) : rest.filter p =
        (rest.takeWhile fun r => Value.allEqual key r.1).filter p ++
          (rest.dropWhile fun r => Value.allEqual key r.1).filter p := by
      rw [← List.filter_append, List.takeWhile_append_dropWhile]
    rw [runs]
    intro group member
    rcases List.mem_cons.mp member with rfl | later
    · have self : Value.allEqual key key = true := by simp [Value.allEqual, ReflCmp.compare_self]
      have above := below_of_dropWhile sortable first inRest least sortedRest
      simp only
      rw [List.filter_cons, if_pos self, split, List.filter_eq_self.mpr equal,
        filter_of_unequal fun p member => (above p member).allEqual_eq_false.1, List.append_nil,
        List.map_cons]
    · have below := below_of_later_run sortable inside sorted later
      obtain ⟨⟨r, there⟩, -⟩ := mem_runs later
      have inGroup : K group.1 := inRest _ (fewer.subset there)
      have apart : ∀ p ∈ rest.takeWhile fun r => Value.allEqual key r.1,
          Value.allEqual group.1 p.1 = false := by
        intro p member
        have here : K p.1 := inRest p ((List.takeWhile_sublist _).subset member)
        have same : Value.compareAll p.1 key = .eq :=
          OrientedCmp.eq_symm (of_decide_eq_true (equal p member))
        have less : Value.Below p.1 group.1 := sortable.lt_of_eq_of_lt (a := ⟨p.1, here⟩)
          (b := ⟨key, first⟩) (c := ⟨group.1, inGroup⟩) same below
        exact less.allEqual_eq_false.2
      rw [ih (fun p member => inRest p (fewer.subset member)) (sortedRest.sublist fewer) group later,
        List.filter_cons_of_neg (by simp [below.allEqual_eq_false.2]), split, filter_of_unequal apart,
        List.nil_append]

theorem exists_run {p : List Value × Row} (member : p ∈ xs) :
    ∃ group ∈ runs xs, Value.allEqual group.1 p.1 = true := by
  induction xs using runs.induct with
  | case1 => cases member
  | case2 key row rest ih =>
    rw [runs]
    have parts := List.takeWhile_append_dropWhile
      (p := fun r : List Value × Row => Value.allEqual key r.1) (l := rest)
    rcases List.mem_cons.mp member with rfl | later
    · exact ⟨_, List.mem_cons_self, by simp [Value.allEqual, ReflCmp.compare_self]⟩
    · rw [← parts] at later
      rcases List.mem_append.mp later with same | others
      · exact ⟨_, List.mem_cons_self,
          List.mem_takeWhile_imp (p := fun r : List Value × Row => Value.allEqual key r.1) same⟩
      · obtain ⟨group, there, equal⟩ := ih others
        exact ⟨group, List.mem_cons_of_mem _ there, equal⟩

/-- Rows of which none is below the one before it are in the order of their keys. -/
theorem Ascends.pairwise_isLE (sortable : SortableKeys K) (inside : ∀ p ∈ xs, K p.1)
    (sorted : Ascends xs) : xs.Pairwise fun p q => (Value.compareAll p.1 q.1).isLE := by
  induction xs with
  | nil => exact .nil
  | cons x xs ih =>
    obtain ⟨first, sorted⟩ := List.isChain_cons.mp sorted
    have inRest : ∀ p ∈ xs, K p.1 := fun p member => inside p (List.mem_cons_of_mem x member)
    have others := ih inRest sorted
    refine List.pairwise_cons.mpr ⟨fun p member => ?_, others⟩
    cases xs with
    | nil => cases member
    | cons y xs =>
      have le := first y.1 rfl
      rcases List.mem_cons.mp member with rfl | later
      · exact le
      · exact sortable.isLE_trans (a := ⟨x.1, inside x List.mem_cons_self⟩)
          (b := ⟨y.1, inRest y List.mem_cons_self⟩) (c := ⟨p.1, inRest p member⟩) le
          ((List.pairwise_cons.mp others).1 p later)

end

namespace Expr

variable {s : Schema} {e e' : Expr} {t : DataType}

/-- The values of one expression can be sorted: they are of its type, or it is one list that is
written out. -/
theorem sortable_values (typed : e.dataType s = .ok t) (bound : e.bind s = .ok e') :
    Value.Sortable fun v => ∃ row, s.Admits row ∧ e'.eval row = .ok v := by
  by_cases list : e.IsList
  · obtain ⟨items, rfl⟩ := list
    obtain rfl := Except.ok.inj bound
    refine (Value.sortable_eq (.list items)).mono ?_
    rintro v ⟨row, -, value⟩
    exact (Except.ok.inj value).symm
  · refine (Value.sortable_fits t).mono ?_
    rintro v ⟨row, admitted, value⟩
    refine (eval_fits admitted typed bound value).resolve_right ?_
    rintro ⟨items, same, -⟩
    exact list ⟨items, same⟩

theorem compare_readBack {row row' : Row} {v w : Value} {f : Field}
    (typed : e.dataType s = .ok f.dataType) (bound : e.bind s = .ok e') (given : s.Gives row) (given' : s.Gives row')
    (value : e'.eval row = .ok v) (value' : e'.eval row' = .ok w) :
    Value.compare (f.readBack v) (f.readBack w) = Value.compare v w := by
  cases many : f.dataType.isRepeated with
  | false => rw [Field.readBack_of_flat many, Field.readBack_of_flat many]
  | true =>
    rcases eval_lists bound with lists | never
    · obtain ⟨items, rfl⟩ := lists row v given value
      obtain ⟨items', rfl⟩ := lists row' w given' value'
      simp [Field.readBack]
    · have null {row : Row} {v : Value} (given : s.Gives row) (value : e'.eval row = .ok v) :
          v = .null := by
        have fits := (eval_fits given.admitted typed bound value).resolve_right (by
          rintro ⟨items, -, list⟩
          exact never row v given value items list)
        by_contra some
        cases type : f.dataType with
        | array u =>
          rw [type] at fits
          obtain ⟨items, list, -⟩ := Value.form_of_fits fits some
          exact never row v given value items list
        | _ => simp [type, DataType.isRepeated] at many
      rw [null given value, null given' value']
      simp [Field.readBack, many, Value.compare, Value.compareAll, Value.numeric?, Value.rank]

end Expr

namespace Layout

variable {c : AggregateSpec} {s : Schema} {l : Layout} {row : Row} {key : List Value}

def IsKey (l : Layout) (s : Schema) (key : List Value) : Prop :=
  ∃ row, s.Gives row ∧ l.key row = .ok key

/-- The value in a place of a key is that of the expression there, which has the type of the output
field there. -/
theorem key_place (laid : c.layout s = .ok l) (keyed : l.key row = .ok key) {i : Nat} {v : Value}
    (there : key[i]? = some v) :
    ∃ k e f, c.groupBy[i]? = some k ∧ k.expr.bind s = .ok e ∧
      k.expr.dataType s = .ok f.dataType ∧ e.eval row = .ok v ∧ l.output.fields[i]? = some f := by
  obtain ⟨keys, calls, boundKeys, -, rfl⟩ := AggregateSpec.layout_ok laid
  have values := mapM_eq_ok.mp keyed
  rw [List.forall₂_map_left_iff] at values
  obtain ⟨⟨e, f⟩, place, value⟩ := exists_left_of_getElem? values there
  obtain ⟨k, expr, lay⟩ := exists_left_of_getElem? (mapM_eq_ok.mp boundKeys) place
  obtain ⟨e', bound, lay⟩ := bind_eq_ok.mp lay
  obtain ⟨t, typed, lay⟩ := bind_eq_ok.mp lay
  obtain ⟨rfl, rfl⟩ := Prod.mk.inj (pure_eq_ok.mp lay)
  refine ⟨k, e', ⟨k.name, t, true⟩, expr, bound, typed, mapError_eq_ok.mp value, ?_⟩
  have inside : i < (keys.map Prod.snd).length := by
    rw [List.length_map]
    exact (List.getElem?_eq_some_iff.mp place).1
  rw [List.getElem?_append_left inside, List.getElem?_map, place]
  rfl

theorem sortable_isKey (laid : c.layout s = .ok l) : SortableKeys (l.IsKey s) := by
  refine { eq_swap := Value.compareAll_swap _ _, isLE_trans := ?_ }
  rintro ⟨as, r, given, keyed⟩ ⟨bs, r', given', keyed'⟩ ⟨cs, r'', given'', keyed''⟩
  refine Value.compareAll_isLE_trans fun i a b c ha hb hc => ?_
  obtain ⟨k, e, f, expr, bound, typed, value, -⟩ := key_place laid keyed ha
  obtain ⟨k', e', f', expr', bound', -, value', -⟩ := key_place laid keyed' hb
  obtain ⟨k'', e'', f'', expr'', bound'', -, value'', -⟩ := key_place laid keyed'' hc
  obtain rfl := Option.some.inj (expr.symm.trans expr')
  obtain rfl := Option.some.inj (expr.symm.trans expr'')
  obtain rfl := Except.ok.inj (bound.symm.trans bound')
  obtain rfl := Except.ok.inj (bound.symm.trans bound'')
  exact ⟨_, Expr.sortable_values typed bound, ⟨r, given.admitted, value⟩,
    ⟨r', given'.admitted, value'⟩, ⟨r'', given''.admitted, value''⟩⟩

theorem length_key_le (laid : c.layout s = .ok l) (keyed : l.key row = .ok key) :
    key.length ≤ l.output.fields.length := by
  by_contra longer
  have there := List.getElem?_eq_getElem (Nat.not_le.mp longer)
  obtain ⟨-, -, f, -, -, -, -, field⟩ := key_place laid keyed there
  simp at field

def readBackKey (l : Layout) (key : List Value) : List Value :=
  List.zipWith Field.readBack l.output.fields key

theorem compareAll_zipWith {fields : List Field} {as bs : List Value}
    (wide : as.length ≤ fields.length) (wide' : bs.length ≤ fields.length)
    (places : ∀ (i : Nat) (v w : Value), as[i]? = some v → bs[i]? = some w →
      ∃ f, fields[i]? = some f ∧
        Value.compare (f.readBack v) (f.readBack w) = Value.compare v w) :
    Value.compareAll (List.zipWith Field.readBack fields as)
      (List.zipWith Field.readBack fields bs) = Value.compareAll as bs := by
  induction fields generalizing as bs with
  | nil =>
    obtain rfl := List.eq_nil_of_length_eq_zero (Nat.le_zero.mp wide)
    obtain rfl := List.eq_nil_of_length_eq_zero (Nat.le_zero.mp wide')
    rfl
  | cons f fields ih =>
    cases as with
    | nil => cases bs <;> rfl
    | cons a as =>
      cases bs with
      | nil => rfl
      | cons b bs =>
        obtain ⟨f', first, same⟩ := places 0 a b rfl rfl
        obtain rfl := Option.some.inj first
        have others := @ih as bs (Nat.le_of_succ_le_succ wide) (Nat.le_of_succ_le_succ wide')
          fun i => places (i + 1)
        rw [List.zipWith_cons_cons, List.zipWith_cons_cons, Value.compareAll, Value.compareAll,
          same, others]

theorem compareAll_readBackKey {a b : List Value} (laid : c.layout s = .ok l) (ha : l.IsKey s a)
    (hb : l.IsKey s b) :
    Value.compareAll (l.readBackKey a) (l.readBackKey b) = Value.compareAll a b := by
  obtain ⟨r, given, keyed⟩ := ha
  obtain ⟨r', given', keyed'⟩ := hb
  refine compareAll_zipWith (length_key_le laid keyed) (length_key_le laid keyed') ?_
  intro i v w hv hw
  obtain ⟨k, e, f, expr, bound, typed, value, field⟩ := key_place laid keyed hv
  obtain ⟨k', e', f', expr', bound', -, value', -⟩ := key_place laid keyed' hw
  obtain rfl := Option.some.inj (expr.symm.trans expr')
  obtain rfl := Except.ok.inj (bound.symm.trans bound')
  exact ⟨f, field, Expr.compare_readBack typed bound given given' value value'⟩

/-- The row of a group starts with its key, also after a batch has given it back. -/
theorem take_readBack {group : List Value × List Row} {result : Row} (laid : c.layout s = .ok l)
    (isKey : l.IsKey s group.1) (comes : l.groupRow group = .ok result) :
    (l.output.readBack result).take c.groupBy.length = l.readBackKey group.1 := by
  obtain ⟨row, given, keyed⟩ := isKey
  have width : c.groupBy.length = group.1.length := (key_typed laid given.admitted keyed).length_eq
  obtain ⟨values, -, rfl⟩ := map_eq_ok.mp comes
  have short : (l.readBackKey group.1).length ≤ group.1.length := by
    rw [readBackKey, List.length_zipWith]
    exact Nat.min_le_right _ _
  rw [width, ← List.take_of_length_le short, Schema.readBack, readBackKey, List.take_zipWith,
    List.take_zipWith, List.take_left, List.take_length]

/-- One row for each key that occurs, in ascending order of the keys, in which every call is folded
over all rows of that key. -/
structure OnePerKey (l : Layout) (pairs : List (List Value × Row)) (ks : List (List Value))
    (results : List Row) : Prop where
  occurring : ∀ k ∈ ks, ∃ row, (k, row) ∈ pairs
  complete : ∀ p ∈ pairs, ∃ k ∈ ks, Value.allEqual k p.1 = true
  ascending : ks.Pairwise Value.Below
  folded : List.Forall₂ (fun k result =>
    l.groupRow (k, (pairs.filter fun p => Value.allEqual k p.1).map Prod.snd) = .ok result) ks results

/-- What rows that come in the order of their keys come to. -/
theorem results_sorted {rows results : List Row} {pairs : List (List Value × Row)}
    (laid : c.layout s = .ok l) (given : ∀ row ∈ rows, s.Gives row)
    (keyed : rows.mapM l.keyed = .ok pairs)
    (sorted : Ascends pairs) (comes : l.results rows false = .ok results) :
    l.OnePerKey pairs ((runs pairs).map Prod.fst) results ∧
      ∀ p ∈ pairs, l.IsKey s p.1 := by
  have inside : ∀ p ∈ pairs, l.IsKey s p.1 := by
    intro p member
    obtain ⟨row, there, made⟩ := exists_left_of_mem (mapM_eq_ok.mp keyed) member
    obtain ⟨key, keyOf, rfl⟩ := map_eq_ok.mp made
    exact ⟨row, given row there, keyOf⟩
  have sortable := sortable_isKey laid
  have ordered := sorted.pairwise_isLE sortable inside
  have whole := runs_whole sortable inside ordered
  refine ⟨⟨?_, ?_, runs_ascending sortable inside ordered, ?_⟩, inside⟩
  · intro k member
    obtain ⟨group, there, rfl⟩ := List.mem_map.mp member
    exact (mem_runs there).1
  · intro p member
    obtain ⟨group, there, equal⟩ := exists_run member
    exact ⟨group.1, List.mem_map.mpr ⟨group, there, rfl⟩, equal⟩
  · obtain ⟨pairs', keyed', comes⟩ := bind_eq_ok.mp comes
    obtain rfl := Except.ok.inj (keyed.symm.trans keyed')
    rw [List.forall₂_map_left_iff]
    have groups := mapM_eq_ok.mp comes
    rw [if_neg Bool.false_ne_true, List.append_nil] at groups
    refine ((List.forall₂_and_left _ _).mpr ⟨whole, groups⟩).imp ?_
    rintro group result ⟨all, made⟩
    rwa [← all]

namespace OnePerKey

variable {pairs : List (List Value × Row)} {ks : List (List Value)} {results : List Row}

theorem isKey (groups : l.OnePerKey pairs ks results) (inside : ∀ p ∈ pairs, l.IsKey s p.1) :
    ∀ k ∈ ks, l.IsKey s k := by
  intro k member
  obtain ⟨row, there⟩ := groups.occurring k member
  exact inside (k, row) there

/-- The rows that a batch gives back start with the keys, as it gives them back. -/
theorem keys_delivered (groups : l.OnePerKey pairs ks results) (laid : c.layout s = .ok l)
    (inside : ∀ p ∈ pairs, l.IsKey s p.1) :
    (results.map l.output.readBack).map (fun row => row.take c.groupBy.length) =
      ks.map l.readBackKey := by
  have each := (List.forall₂_and_left _ _).mpr ⟨groups.isKey inside, groups.folded⟩
  rw [List.map_map, eq_comm]
  refine map_eq_map_of_forall₂ (each.imp ?_)
  rintro k result ⟨isKey, made⟩
  exact (take_readBack laid isKey made).symm

theorem delivered_ascending (groups : l.OnePerKey pairs ks results) (laid : c.layout s = .ok l)
    (inside : ∀ p ∈ pairs, l.IsKey s p.1) : (ks.map l.readBackKey).Pairwise Value.Below := by
  have isKey := groups.isKey inside
  rw [List.pairwise_map]
  refine groups.ascending.imp_of_mem fun ha hb below => ?_
  rw [Value.Below, compareAll_readBackKey laid (isKey _ ha) (isKey _ hb)]
  exact below

end OnePerKey
end Layout
end BatchFlow

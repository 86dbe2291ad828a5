import BatchFlow.Proofs.Aggregate.Offers
import BatchFlow.Proofs.Value.Ordering
import Mathlib.Data.List.Induction

/-!
What counts come to, and the functions that choose one of the values. The least value is the earliest
that is below no other; that there is one takes an order that is transitive, as it is on the values of
one type.
-/
namespace BatchFlow

open Std

namespace Value

/-- The earliest of the values that is before each of them or equal to it. -/
def earliest? (cmp : Value → Value → Ordering) (vs : List Value) : Option Value :=
  vs.find? fun v => vs.all fun w => (cmp v w).isLE

def least? (vs : List Value) : Option Value := earliest? compare vs

def greatest? (vs : List Value) : Option Value := earliest? (fun v w => compare w v) vs

def TransOn (cmp : Value → Value → Ordering) (vs : List Value) : Prop :=
  ∀ a ∈ vs, ∀ b ∈ vs, ∀ c ∈ vs, (cmp a b).isLE → (cmp b c).isLE → (cmp a c).isLE

variable {cmp : Value → Value → Ordering} {vs ws : List Value} {m v : Value}

/-- Of one type, values are ordered transitively in both directions. -/
theorem transOn_of_fits {t : DataType} (fit : ∀ v ∈ vs, v.fits t = true) :
    TransOn compare vs ∧ TransOn (fun v w => compare w v) vs := by
  have trans := sortable_iff.mp (sortable_fits t)
  constructor
  · intro a ha b hb c hc
    exact trans a b c (fit a ha) (fit b hb) (fit c hc)
  · intro a ha b hb c hc first second
    exact trans c b a (fit c hc) (fit b hb) (fit a ha) second first

/-- Every value before `m` is after it in the order, and no later one is below it. -/
def Leads (cmp : Value → Value → Ordering) (m : Value) (vs : List Value) : Prop :=
  ∃ before after, vs = before ++ m :: after ∧ (∀ u ∈ before, cmp m u = .lt) ∧
    ∀ w ∈ after, (cmp m w).isLE

theorem leads_singleton (cmp : Value → Value → Ordering) (v : Value) : Leads cmp v [v] :=
  ⟨[], [], rfl, by simp, by simp⟩

theorem Leads.mem (leads : Leads cmp m vs) : m ∈ vs := by
  obtain ⟨before, after, rfl, -, -⟩ := leads
  simp

theorem Leads.isLE [OrientedCmp cmp] (leads : Leads cmp m vs) : ∀ w ∈ vs, (cmp m w).isLE := by
  obtain ⟨before, after, rfl, above, notBelow⟩ := leads
  intro w among
  rw [List.mem_append, List.mem_cons] at among
  rcases among with early | rfl | late
  · rw [above w early]
    rfl
  · have same : cmp w w = .eq := ReflCmp.compare_self
    rw [same]
    rfl
  · exact notBelow w late

theorem Leads.earliest?_eq [OrientedCmp cmp] (leads : Leads cmp m vs) :
    earliest? cmp vs = some m := by
  have least := leads.isLE
  have among := leads.mem
  obtain ⟨before, after, split, above, -⟩ := leads
  refine List.find?_eq_some_iff_append.mpr ⟨?_, before, after, split, ?_⟩
  · rw [List.all_eq_true]
    exact least
  · intro u early
    have after_m : cmp u m = .gt := OrientedCmp.gt_iff_lt.mpr (above u early)
    rw [Bool.not_eq_true', List.all_eq_false]
    exact ⟨m, among, by simp [after_m]⟩

/-- One more value leads if it is below the one that has led, which goes on to lead otherwise. -/
theorem Leads.leads_concat [OrientedCmp cmp] (trans : TransOn cmp (vs ++ [v]))
    (leads : Leads cmp m vs) :
    Leads cmp (if cmp v m = .lt then v else m) (vs ++ [v]) := by
  have among := leads.mem
  have least := leads.isLE
  split
  next below =>
    refine ⟨vs, [], rfl, ?_, by simp⟩
    intro u early
    apply OrientedCmp.lt_of_not_isLE
    -- Else `m` would come before `v` by way of `u`.
    intro back
    have through := trans m (List.mem_append_left _ among) u (List.mem_append_left _ early) v
      (by simp) (least u early) back
    exact OrientedCmp.not_isLE_of_lt below through
  next unbelow =>
    obtain ⟨before, after, rfl, above, notBelow⟩ := leads
    refine ⟨before, after ++ [v], by simp, above, ?_⟩
    rw [List.forall_mem_append, List.forall_mem_singleton]
    exact ⟨notBelow, OrientedCmp.isGE_iff_isLE.mp (Ordering.isGE_iff_ne_lt.mpr unbelow)⟩

theorem TransOn.of_append {us : List Value} (trans : TransOn cmp (us ++ vs)) : TransOn cmp us :=
  fun a ha b hb c hc => trans a (List.mem_append_left _ ha) b (List.mem_append_left _ hb) c
    (List.mem_append_left _ hc)

theorem exists_leads [OrientedCmp cmp] (trans : TransOn cmp vs) (some : vs ≠ []) :
    ∃ m, Leads cmp m vs := by
  induction vs using List.reverseRecOn with
  | nil => exact absurd rfl some
  | append_singleton vs v ih =>
    by_cases none : vs = []
    · subst none
      exact ⟨v, leads_singleton cmp v⟩
    · obtain ⟨m, leads⟩ := ih trans.of_append none
      exact ⟨_, leads.leads_concat trans⟩

theorem isSome_earliest? [OrientedCmp cmp] (trans : TransOn cmp vs) (some : vs ≠ []) :
    (earliest? cmp vs).isSome := by
  obtain ⟨m, leads⟩ := exists_leads trans some
  rw [leads.earliest?_eq, Option.isSome_some]

def better (cmp : Value → Value → Ordering) (v : Value) : Option Value → Value
  | none => v
  | some m => if cmp v m = .lt then v else m

theorem earliest?_concat [OrientedCmp cmp] (trans : TransOn cmp (vs ++ [v])) :
    earliest? cmp (vs ++ [v]) = some (better cmp v (earliest? cmp vs)) := by
  by_cases none : vs = []
  · subst none
    exact (leads_singleton cmp v).earliest?_eq
  · obtain ⟨m, leads⟩ := exists_leads trans.of_append none
    rw [(leads.leads_concat trans).earliest?_eq, leads.earliest?_eq, better]

/-- In another order of the values another may be the earliest, but an equal one. -/
theorem earliest?_perm [OrientedCmp cmp] (trans : TransOn cmp vs) (perm : vs.Perm ws) :
    cmp ((earliest? cmp vs).getD null) ((earliest? cmp ws).getD null) = .eq := by
  have trans' : TransOn cmp ws := fun a ha b hb c hc =>
    trans a (perm.mem_iff.mpr ha) b (perm.mem_iff.mpr hb) c (perm.mem_iff.mpr hc)
  by_cases none : vs = []
  · subst none
    obtain rfl := perm.nil_eq
    exact ReflCmp.compare_self
  · obtain ⟨m, leads⟩ := exists_leads trans none
    obtain ⟨m', leads'⟩ := exists_leads trans' fun none' => none (none' ▸ perm).eq_nil
    rw [leads.earliest?_eq, leads'.earliest?_eq]
    exact OrientedCmp.isLE_antisymm (leads.isLE m' (perm.mem_iff.mpr leads'.mem))
      (leads'.isLE m (perm.mem_iff.mp leads.mem))

theorem least?_perm {t : DataType} (fit : ∀ v ∈ vs, v.fits t = true) (perm : vs.Perm ws) :
    ((least? vs).getD null).equal ((least? ws).getD null) = true :=
  decide_eq_true (earliest?_perm (transOn_of_fits fit).1 perm)

theorem greatest?_perm {t : DataType} (fit : ∀ v ∈ vs, v.fits t = true) (perm : vs.Perm ws) :
    ((greatest? vs).getD null).equal ((greatest? ws).getD null) = true := by
  have turned := earliest?_perm (transOn_of_fits fit).2 perm
  exact decide_eq_true (OrientedCmp.eq_symm turned)

end Value

namespace Accumulator

open Value (least? greatest?)

variable {f : AggregateOp} {a : Accumulator} {vs ws : List Value} {v : Value} {t : DataType}
  {st : List Value → Accumulator}

/-- If every value that fits a type takes the accumulator from `st` of the values before it to `st` of
them and itself, all values together take it to `st` of them, and none is refused. -/
theorem afterOffers_eq (fit : ∀ v ∈ vs, v.fits t = true)
    (takes : ∀ us v, (∀ u ∈ us ++ [v], u.fits t = true) →
      (st us).accumulate v = .ok (st (us ++ [v]))) :
    (st []).afterOffers vs = st vs ∧ ∀ r ∈ (st []).answers vs, r = .ok () := by
  induction vs using List.reverseRecOn with
  | nil => exact ⟨rfl, by simp [answers]⟩
  | append_singleton vs v ih =>
    have taken := offer_taken (takes vs v fit)
    rw [List.forall_mem_append] at fit
    obtain ⟨after, answered⟩ := ih fit.1
    rw [afterOffers_append, answers_append, after, answers, taken, List.forall_mem_append]
    exact ⟨congrArg Prod.snd taken, answered, by simp [answers]⟩

theorem present_concat_null (vs : List Value) : present (vs ++ [.null]) = present vs := by
  simp [present, Value.isNull]

theorem present_concat (vs : List Value) (some : v.isNull = false) :
    present (vs ++ [v]) = present vs ++ [v] := by
  simp [present, some]

theorem afterOffers_present (fit : ∀ v ∈ vs, v.fits t = true)
    (skips : ∀ us, (st us).func ≠ .countAll)
    (takes : ∀ us v, (∀ u ∈ us ++ [v], u.fits t = true) → (st us).takeIn v = .ok (st (us ++ [v]))) :
    (st []).afterOffers vs = st (present vs) ∧ ∀ r ∈ (st []).answers vs, r = .ok () := by
  refine @afterOffers_eq vs t (fun us => st (present us)) fit ?_
  intro us v fit
  cases null : v.isNull with
  | true =>
    obtain rfl : v = .null := by
      cases v with
      | null => rfl
      | _ => cases null
    rw [present_concat_null, accumulate, if_pos (by simp [null, skips])]
  | false =>
    rw [present_concat us null, offer_present null]
    apply takes
    intro u among
    apply fit u
    rw [List.mem_append] at among ⊢
    exact among.imp_left fun kept => (List.mem_filter.mp kept).1

/-! The functions one by one. -/

theorem count_offers (fit : ∀ v ∈ vs, v.fits t = true) :
    (start .count).afterOffers vs = count (present vs).length ∧
      ∀ r ∈ (start .count).answers vs, r = .ok () := by
  refine @afterOffers_present vs t (fun us => count us.length) fit (by simp [func]) ?_
  intro us v _
  rw [takeIn, List.length_append, List.length_singleton]

theorem countAll_offers (fit : ∀ v ∈ vs, v.fits t = true) :
    (start .countAll).afterOffers vs = countAll vs.length ∧
      ∀ r ∈ (start .countAll).answers vs, r = .ok () := by
  refine @afterOffers_eq vs t (fun us => countAll us.length) fit ?_
  intro us v _
  simp [accumulate, func, takeIn]

theorem first_offers (fit : ∀ v ∈ vs, v.fits t = true) :
    (start .first).afterOffers vs = first (present vs).head? ∧
      ∀ r ∈ (start .first).answers vs, r = .ok () := by
  refine @afterOffers_present vs t (fun us => first us.head?) fit (by simp [func]) ?_
  intro us v _
  cases us <;> rfl

theorem last_offers (fit : ∀ v ∈ vs, v.fits t = true) :
    (start .last).afterOffers vs = last (present vs).getLast? ∧
      ∀ r ∈ (start .last).answers vs, r = .ok () := by
  refine @afterOffers_present vs t (fun us => last us.getLast?) fit (by simp [func]) ?_
  intro us v _
  rw [takeIn, List.getLast?_concat]

theorem min_offers (fit : ∀ v ∈ vs, v.fits t = true) :
    (start .min).afterOffers vs = min (least? (present vs)) ∧
      ∀ r ∈ (start .min).answers vs, r = .ok () := by
  refine @afterOffers_present vs t (fun us => min (least? us)) fit (by simp [func]) ?_
  intro us v fit
  rw [least?, least?, Value.earliest?_concat (Value.transOn_of_fits fit).1]
  cases Value.earliest? Value.compare us <;> rfl

theorem max_offers (fit : ∀ v ∈ vs, v.fits t = true) :
    (start .max).afterOffers vs = max (greatest? (present vs)) ∧
      ∀ r ∈ (start .max).answers vs, r = .ok () := by
  refine @afterOffers_present vs t (fun us => max (greatest? us)) fit (by simp [func]) ?_
  intro us v fit
  rw [greatest?, greatest?, Value.earliest?_concat (Value.transOn_of_fits fit).2]
  cases Value.earliest? (fun v w => Value.compare w v) us with
  | none => rfl
  | some m => simp only [takeIn, Value.better, OrientedCmp.gt_iff_lt]

/-- A count, or the choice of a value, refuses no value. -/
theorem answers_ok (fit : ∀ v ∈ vs, v.fits t = true) (f : AggregateOp) (notSum : f ≠ .sum)
    (notAvg : f ≠ .avg) : ∀ r ∈ (start f).answers vs, r = .ok () := by
  cases f with
  | count => exact (count_offers fit).2
  | countAll => exact (countAll_offers fit).2
  | sum => exact absurd rfl notSum
  | avg => exact absurd rfl notAvg
  | min => exact (min_offers fit).2
  | max => exact (max_offers fit).2
  | first => exact (first_offers fit).2
  | last => exact (last_offers fit).2

theorem present_fits (fit : ∀ v ∈ vs, v.fits t = true) : ∀ v ∈ present vs, v.fits t = true :=
  fun v among => fit v (List.mem_filter.mp among).1

/-- For a count, the least and the greatest value, the order of the values does not matter. -/
theorem result_perm (fit : ∀ v ∈ vs, v.fits t = true) (perm : vs.Perm ws)
    (among : f ∈ [AggregateOp.count, .min, .max]) :
    ((start f).afterOffers vs).result.equal ((start f).afterOffers ws).result = true := by
  have fit' : ∀ w ∈ ws, w.fits t = true := fun w among => fit w (perm.mem_iff.mpr among)
  have perm_present : (present vs).Perm (present ws) := perm.filter _
  rw [List.mem_cons, List.mem_cons, List.mem_singleton] at among
  rcases among with rfl | rfl | rfl
  · rw [(count_offers fit).1, (count_offers fit').1, perm_present.length_eq]
    exact decide_eq_true ReflCmp.compare_self
  · rw [(min_offers fit).1, (min_offers fit').1]
    exact Value.least?_perm (present_fits fit) perm_present
  · rw [(max_offers fit).1, (max_offers fit').1]
    exact Value.greatest?_perm (present_fits fit) perm_present

/-- `count` and `countAll` count the values other than NULL and all values, as long as 64 bits hold
their number. `first` and `last` give the first and the last value other than NULL, `min` and `max` the
earliest that no other is below, or above; NULL if there is none. Of what was offered before a reset
nothing is left, and for `count`, `min` and `max` the order of the values does not matter. -/
theorem counted_or_chosen {vs : List Value} {t : DataType} (fit : ∀ v ∈ vs, v.fits t = true)
    (acc : AggregateOp → Accumulator) (fresh : ∀ f, Fresh f (acc f)) :
    let come (f : AggregateOp) (vs : List Value) : Value := ((acc f).afterOffers vs).result
    (∀ f, f ≠ .sum → f ≠ .avg → ∀ r ∈ (acc f).answers vs, r = .ok ()) ∧
      come .count vs = .integer .big (Whole.wrap .big (present vs).length) ∧
      come .countAll vs = .integer .big (Whole.wrap .big vs.length) ∧
      (vs.length < IntWidth.big.bound →
        (Whole.wrap .big (present vs).length).toInt = (present vs).length ∧
          (Whole.wrap .big vs.length).toInt = vs.length) ∧
      come .first vs = (present vs).head?.getD .null ∧
      come .last vs = (present vs).getLast?.getD .null ∧
      come .min vs = (least? (present vs)).getD .null ∧
      come .max vs = (greatest? (present vs)).getD .null ∧
      (present vs ≠ [] → (least? (present vs)).isSome ∧ (greatest? (present vs)).isSome) ∧
      ∀ ws, vs.Perm ws → ∀ f ∈ [AggregateOp.count, .min, .max],
        (come f vs).equal (come f ws) = true := by
  obtain rfl : acc = start := funext fun f => (fresh f).eq_start
  intro come
  have counts (n : Nat) (few : n < IntWidth.big.bound) : (Whole.wrap .big n).toInt = n :=
    Whole.wrap_toInt ⟨by have := IntWidth.bound_pos .big; omega, few⟩
  have fewer : (present vs).length ≤ vs.length := List.length_filter_le ..
  have trans := Value.transOn_of_fits (present_fits fit)
  refine ⟨answers_ok fit, congrArg result (count_offers fit).1, congrArg result (countAll_offers fit).1,
    fun few => ⟨counts _ (by omega), counts _ few⟩, congrArg result (first_offers fit).1,
    congrArg result (last_offers fit).1, congrArg result (min_offers fit).1,
    congrArg result (max_offers fit).1, ?found, ?permuted⟩
  case found =>
    intro some
    exact ⟨Value.isSome_earliest? trans.1 some, Value.isSome_earliest? trans.2 some⟩
  case permuted =>
    intro ws perm f among
    exact result_perm fit perm among

/-- Lists and NULL, in lists and beside them, after a text that a reset has taken back. -/
theorem lists_chosen :
    let one : Value := .integer .big ⟨1, by decide⟩
    let vs : List Value := [.null, .list [one, .null], .list [.null], .list [one], .null]
    let come (f : AggregateOp) : Value :=
      (((start f).offer (.text "former")).2.reset.afterOffers vs).result
    (∀ v ∈ vs, v.fits (.array (.integer .big)) = true) ∧
      come .first = .list [one, .null] ∧ come .last = .list [one] ∧
        come .min = .list [.null] ∧ come .max = .list [one, .null] ∧
        come .count = .integer .big (Whole.wrap .big 3) ∧
        come .countAll = .integer .big (Whole.wrap .big 5) := by
  intro one vs come
  have fit : ∀ v ∈ vs, v.fits (.array (.integer .big)) = true := by decide
  obtain ⟨-, counted, rows, -, first, last, least, greatest, -⟩ := counted_or_chosen fit
    (fun f => ((start f).offer (.text "former")).2.reset) fun f =>
      .inr ⟨_, .offer (.text "former") .start, rfl⟩
  refine ⟨fit, first, last, ?_, ?_, counted, rows⟩
  · exact least.trans (by decide +kernel)
  · exact greatest.trans (by decide +kernel)

end Accumulator
end BatchFlow

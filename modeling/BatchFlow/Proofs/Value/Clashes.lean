import BatchFlow.Proofs.Number.Rounding
import BatchFlow.Proofs.Value.Ordering

/-!
Where the order of values is transitive. Two whole numbers compare exactly, and a whole number and a
floating-point one compare at double precision. So two different whole numbers may both be equal to
one floating-point number. This is the only way in which three values violate transitivity, and it
takes a whole number beyond `2 ^ 53`: rounding keeps the order, and it keeps the smaller ones apart.
-/
namespace BatchFlow.Value

/-- Two different whole numbers, and a floating-point number that is both of them at double
precision. -/
def Clash (P : Value → Prop) : Prop :=
  ∃ (v w : IntWidth) (m : Whole v) (n : Whole w) (p : Precision) (x : Binary p),
    P (integer v m) ∧ P (integer w n) ∧ P (floating p x) ∧ m.toInt ≠ n.toInt ∧
      Binary.ofInt .double m.toInt = x.toDouble ∧ Binary.ofInt .double n.toInt = x.toDouble

variable {P : Value → Prop} {a b c : Value} {x y z : Binary .double}

/-! Numbers by themselves. -/

theorem form_of_numeric (number : a.numeric? = some x) :
    (∃ w n, a = integer w n ∧ x = .ofInt .double n.toInt) ∨
      ∃ p y, a = floating p y ∧ x = y.toDouble := by
  cases a with
  | integer w n => exact .inl ⟨w, n, rfl, (Option.some.inj number).symm⟩
  | floating p y => exact .inr ⟨p, y, rfl, (Option.some.inj number).symm⟩
  | _ => cases number

/-- Numbers are ordered as at double precision, unless both are whole. -/
theorem compare_of_numeric (ha : a.numeric? = some x) (hb : b.numeric? = some y)
    (mixed : ¬(a.isIntegral = true ∧ b.isIntegral = true)) :
    compare a b = Ord.compare x.orderKey y.orderKey := by
  rcases form_of_numeric ha with ⟨v, m, rfl, rfl⟩ | ⟨p, x, rfl, rfl⟩ <;>
    rcases form_of_numeric hb with ⟨w, n, rfl, rfl⟩ | ⟨q, y, rfl, rfl⟩
  · exact absurd ⟨rfl, rfl⟩ mixed
  all_goals rfl

theorem orderKey_le_of_isLE (ha : a.numeric? = some x) (hb : b.numeric? = some y)
    (le : (compare a b).isLE) : x.orderKey ≤ y.orderKey := by
  by_cases whole : a.isIntegral = true ∧ b.isIntegral = true
  · rcases form_of_numeric ha with ⟨v, m, rfl, rfl⟩ | ⟨p, x, rfl, rfl⟩
    · rcases form_of_numeric hb with ⟨w, n, rfl, rfl⟩ | ⟨q, y, rfl, rfl⟩
      · exact Binary.orderKey_ofInt_mono .double (Int.isLE_compare.mp le)
      · cases whole.2
    · cases whole.1
  · rw [compare_of_numeric ha hb whole] at le
    exact Int.isLE_compare.mp le

/-- Numbers can be sorted where none clash. The outer two of three are in order at double precision.
If they are whole, they might still be the other way round; then all three are one number at double
precision, and the middle one is not whole. -/
theorem sortable_numeric (clashless : ¬Clash P) :
    Sortable fun v => P v ∧ ∃ x, v.numeric? = some x := by
  rw [sortable_iff]
  rintro a b c ⟨ha, x, hx⟩ ⟨hb, y, hy⟩ ⟨hc, z, hz⟩ first second
  have lower := orderKey_le_of_isLE hx hy first
  have upper := orderKey_le_of_isLE hy hz second
  by_cases whole : a.isIntegral = true ∧ c.isIntegral = true
  · rcases form_of_numeric hx with ⟨v, m, rfl, rfl⟩ | ⟨_, _, rfl, -⟩
    · rcases form_of_numeric hz with ⟨w, n, rfl, rfl⟩ | ⟨_, _, rfl, -⟩
      · refine Int.isLE_compare.mpr (Int.not_lt.mp fun less => ?_)
        have back := Binary.orderKey_ofInt_mono .double (Int.le_of_lt less)
        rcases form_of_numeric hy with ⟨u, k, rfl, rfl⟩ | ⟨p, y, rfl, rfl⟩
        · have := Int.isLE_compare.mp first
          have := Int.isLE_compare.mp second
          omega
        · exact clashless ⟨v, w, m, n, p, y, ha, hc, hb, by omega,
            Binary.orderKey_inj (by omega), Binary.orderKey_inj (by omega)⟩
      · cases whole.2
    · cases whole.1
  · rw [compare_of_numeric hx hz whole]
    exact Int.isLE_compare.mpr (Int.le_trans lower upper)

/-! Values of different kinds compare by their ranks. -/

theorem compare_of_rank (apart : a.rank ≠ b.rank) : compare a b = Ord.compare a.rank b.rank := by
  cases a <;> cases b <;> first | rfl | exact absurd rfl apart

theorem rank_le_of_isLE (le : (compare a b).isLE) : a.rank ≤ b.rank := by
  by_cases same : a.rank = b.rank
  · exact Nat.le_of_eq same
  · rw [compare_of_rank same] at le
    exact Nat.isLE_compare.mp le

theorem sortable_of_rank (kinds : ∀ r, Sortable fun v => P v ∧ v.rank = r) : Sortable P := by
  rw [sortable_iff]
  intro a b c ha hb hc first second
  have lower := rank_le_of_isLE first
  have upper := rank_le_of_isLE second
  by_cases same : a.rank = c.rank
  · exact sortable_iff.mp (kinds a.rank) a b c ⟨ha, rfl⟩ ⟨hb, by omega⟩ ⟨hc, by omega⟩ first second
  · rw [compare_of_rank same]
    exact Nat.isLE_compare.mpr (Nat.le_trans lower upper)

theorem form_of_rank (v : Value) :
    match v.rank with
    | 0 => v = null
    | 1 => ∃ b, v = boolean b
    | 2 => ∃ x, v.numeric? = some x
    | 3 => ∃ s, v = text s
    | _ => ∃ items, v = list items := by
  cases v <;> first | rfl | exact ⟨_, rfl⟩

/-- Where no numbers clash and lists can be sorted, all values can. -/
theorem sortable_of_lists (clashless : ¬Clash P)
    (lists : Sortable fun v => P v ∧ ∃ items, v = list items) : Sortable P := by
  refine sortable_of_rank fun r => ?_
  have form {v : Value} (kind : v.rank = r) := kind ▸ form_of_rank v
  match r with
  | 0 => exact (sortable_eq null).mono fun v h => form h.2
  | 1 => exact sortable_of_form (compareOn Bool.toNat) boolean (fun v h => form h.2) fun x y => rfl
  | 2 => exact (sortable_numeric clashless).mono fun v h => ⟨h.1, form h.2⟩
  | 3 => exact sortable_of_form compareText text (fun v h => form h.2) fun x y => rfl
  | r + 4 => exact lists.mono fun v h => ⟨h.1, form h.2⟩

/-! Lists, by induction on what they hold. -/

theorem alike_of_mem {Q : Value → Prop} (sortable : Sortable Q) {as bs cs : List Value}
    (ha : ∀ v ∈ as, Q v) (hb : ∀ v ∈ bs, Q v) (hc : ∀ v ∈ cs, Q v) : Alike as bs cs := by
  intro i a b c at_a at_b at_c
  exact ⟨Q, sortable, ha a (List.mem_of_getElem? at_a), hb b (List.mem_of_getElem? at_b),
    hc c (List.mem_of_getElem? at_c)⟩

/-- The induction is on a bound for the size, since a list is ordered by its elements. -/
theorem sortable_below (closed : ∀ items, P (list items) → ∀ v ∈ items, P v) (clashless : ¬Clash P)
    (n : Nat) : Sortable fun v => P v ∧ sizeOf v < n := by
  induction n with
  | zero => exact sortable_iff.mpr fun a _ _ ha => absurd ha.2 (Nat.not_lt_zero _)
  | succ n ih =>
    have smaller : ∀ items, P (list items) → sizeOf (list items) < n + 1 →
        ∀ v ∈ items, P v ∧ sizeOf v < n := by
      intro items member bound v inside
      have := List.sizeOf_lt_of_mem inside
      rw [list.sizeOf_spec] at bound
      exact ⟨closed items member v inside, by omega⟩
    refine sortable_of_lists (fun ⟨v, w, m, n, p, x, hm, hn, hx, rest⟩ =>
      clashless ⟨v, w, m, n, p, x, hm.1, hn.1, hx.1, rest⟩) (sortable_iff.mpr ?_)
    rintro _ _ _ ⟨ha, as, rfl⟩ ⟨hb, bs, rfl⟩ ⟨hc, cs, rfl⟩ first second
    exact compareAll_isLE_trans (alike_of_mem ih (smaller as ha.1 ha.2) (smaller bs hb.1 hb.2)
      (smaller cs hc.1 hc.2)) first second

theorem sortable_of_clashless (closed : ∀ items, P (list items) → ∀ v ∈ items, P v)
    (clashless : ¬Clash P) : Sortable P := by
  rw [sortable_iff]
  intro a b c ha hb hc
  exact sortable_iff.mp (sortable_below closed clashless (sizeOf a + sizeOf b + sizeOf c + 1)) a b c
    ⟨ha, by omega⟩ ⟨hb, by omega⟩ ⟨hc, by omega⟩

/-! The other way round, numbers that clash are equal to a third one and not to each other. -/

def Joins (P : Value → Prop) : Prop :=
  ∀ a b c, P a → P b → P c → equal a b = true → equal b c = true → equal a c = true

theorem Sortable.joins (sortable : Sortable P) : Joins P := by
  intro a b c ha hb hc first second
  rw [equal, decide_eq_true_eq] at first second ⊢
  exact sortable.eq_trans (a := ⟨a, ha⟩) (b := ⟨b, hb⟩) (c := ⟨c, hc⟩) first second

theorem Joins.not_clash (joins : Joins P) : ¬Clash P := by
  rintro ⟨v, w, m, n, p, x, hm, hn, hx, differ, left, right⟩
  have first : compare (integer v m) (floating p x) = .eq := by
    rw [compare_of_numeric rfl rfl (fun whole => by cases whole.2), left]
    exact Int.compare_eq_eq.mpr rfl
  have second : compare (floating p x) (integer w n) = .eq := by
    rw [compare_of_numeric rfl rfl (fun whole => by cases whole.1), right]
    exact Int.compare_eq_eq.mpr rfl
  have third := joins _ _ _ hm hx hn (decide_eq_true first) (decide_eq_true second)
  exact differ (Int.compare_eq_eq.mp (of_decide_eq_true third))

/-- It takes a whole number beyond those that a double counts one by one. -/
theorem Clash.exists_beyond (clash : Clash P) : ∃ w n, P (integer w n) ∧ 2 ^ 53 < n.toInt.natAbs := by
  obtain ⟨v, w, m, n, p, x, hm, hn, hx, differ, left, right⟩ := clash
  rcases Binary.lt_natAbs_of_ofInt_eq (left.trans right.symm) differ with beyond | beyond
  · exact ⟨v, m, hm, beyond⟩
  · exact ⟨w, n, hn, beyond⟩

/-- On values that come with all that their lists hold, the order is transitive exactly if no numbers
among them clash, and so is equality. Numbers clash only beyond `2 ^ 53`. -/
theorem transitive_iff (closed : ∀ items, P (list items) → ∀ v ∈ items, P v) :
    ((∀ a b c, P a → P b → P c → (compare a b).isLE → (compare b c).isLE → (compare a c).isLE) ↔
        ¬Clash P) ∧
      ((∀ a b c, P a → P b → P c → equal a b = true → equal b c = true → equal a c = true) ↔
        ¬Clash P) ∧
      (Clash P → ∃ w n, P (integer w n) ∧ 2 ^ 53 < n.toInt.natAbs) := by
  have sortable : ¬Clash P → Sortable P := sortable_of_clashless closed
  refine ⟨⟨fun trans => ?_, fun clashless => ?_⟩, ⟨?_, fun clashless => ?_⟩, Clash.exists_beyond⟩
  · exact (sortable_iff.mpr trans).joins.not_clash
  · exact sortable_iff.mp (sortable clashless)
  · exact Joins.not_clash
  · exact (sortable clashless).joins

def sevens : List Value :=
  let whole := integer .big ⟨7, by decide⟩
  let double := floating .double (.ofInt .double 7)
  [whole, double, list [whole, double]]

/-- Numbers of this size do not clash. -/
theorem sevens_transitive : ¬Clash (· ∈ sevens) ∧ Sortable (· ∈ sevens) ∧ Joins (· ∈ sevens) := by
  have closed : ∀ items, list items ∈ sevens → ∀ v ∈ items, v ∈ sevens := by
    intro items member v inside
    simp only [sevens, List.mem_cons, List.not_mem_nil, or_false, reduceCtorEq, false_or,
      list.injEq] at member ⊢
    subst member
    simp only [List.mem_cons, List.not_mem_nil, or_false] at inside
    exact inside.elim .inl fun double => .inr (.inl double)
  have laws := transitive_iff (P := (· ∈ sevens)) closed
  have clashless : ¬Clash (· ∈ sevens) := by
    intro clash
    obtain ⟨w, n, member, beyond⟩ := laws.2.2 clash
    simp only [sevens, List.mem_cons, List.not_mem_nil, or_false, reduceCtorEq,
      integer.injEq] at member
    obtain ⟨rfl, same⟩ := member
    obtain rfl := eq_of_heq same
    exact absurd beyond (by decide)
  exact ⟨clashless, sortable_iff.mpr (laws.1.mpr clashless), laws.2.1.mpr clashless⟩

/-- Both laws fail for `2 ^ 53`, the double that is that number, and the whole number after it. -/
theorem next_whole_clashes :
    (¬∀ a b c, (compare a b).isLE → (compare b c).isLE → (compare a c).isLE) ∧
      ¬∀ a b c, equal a b = true → equal b c = true → equal a c = true := by
  let last := integer .big ⟨2 ^ 53, by decide⟩
  let next := integer .big ⟨2 ^ 53 + 1, by decide⟩
  let double := floating .double (.ofInt .double (2 ^ 53))
  have first : compare last double = .eq := by decide +kernel
  have second : compare double next = .eq := by decide +kernel
  have order : compare last next = .lt := by decide +kernel
  constructor
  · intro trans
    have back := trans next double last
    rw [compare_swap double next, compare_swap last double, compare_swap last next, first, second,
      order] at back
    exact absurd (back rfl rfl) (by decide)
  · intro joins
    have same := joins last double next (decide_eq_true first) (decide_eq_true second)
    rw [equal, order] at same
    cases same

end BatchFlow.Value

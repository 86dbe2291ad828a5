import BatchFlow.Proofs.Expr.Typing
import BatchFlow.Value.Order

/-!
The order of values. Any two values compare, and the other way round the answer is turned around;
but only values of one type are ordered transitively. A whole number and one with a fraction compare
at double precision, at which different whole numbers are equal.
-/
namespace BatchFlow.Value

open Std

instance : TransCmp (fun c d : Char => Ord.compare c.toNat d.toNat) :=
  inferInstanceAs (TransCmp (compareOn Char.toNat))

instance : TransCmp compareText where
  eq_swap := by
    unfold compareText
    exact OrientedCmp.eq_swap
  isLE_trans := by
    unfold compareText
    exact TransCmp.isLE_trans

mutual

theorem compare_swap : ∀ a b : Value, compare b a = (compare a b).swap
  | list as, list bs => compareAll_swap as bs
  | boolean x, b | integer _ x, b | floating _ x, b | text x, b | null, b => by
    cases b <;> simp only [compare, numeric?, toDouble?, Binary.totalCompare] <;>
      exact OrientedCmp.eq_swap
  | list as, null | list as, boolean _ | list as, integer .. | list as, floating ..
  | list as, text _ => by
    simp only [compare, numeric?, toDouble?]
    exact OrientedCmp.eq_swap

theorem compareAll_swap : ∀ as bs : List Value, compareAll bs as = (compareAll as bs).swap
  | [], [] | [], _ :: _ | _ :: _, [] => rfl
  | a :: as, b :: bs => by
    rw [compareAll, compareAll, Ordering.swap_then, compare_swap a b, compareAll_swap as bs]

end

instance : OrientedCmp compare := ⟨compare_swap _ _⟩
instance : OrientedCmp compareAll := ⟨compareAll_swap _ _⟩

/-- Values that can be sorted: on them the order is transitive. -/
abbrev Sortable (P : Value → Prop) : Prop := TransCmp fun a b : Subtype P => compare a.1 b.1

theorem sortable_iff {P : Value → Prop} :
    Sortable P ↔ ∀ a b c, P a → P b → P c → (compare a b).isLE → (compare b c).isLE →
      (compare a c).isLE := by
  constructor
  · intro sortable a b c ha hb hc
    exact @TransCmp.isLE_trans _ _ sortable ⟨a, ha⟩ ⟨b, hb⟩ ⟨c, hc⟩
  · intro trans
    exact { eq_swap := compare_swap _ _, isLE_trans := fun {a b c} => trans a b c a.2 b.2 c.2 }

theorem Sortable.mono {P Q : Value → Prop} (sortable : Sortable P) (within : ∀ v, Q v → P v) :
    Sortable Q := by
  rw [sortable_iff] at sortable ⊢
  exact fun a b c ha hb hc => sortable a b c (within a ha) (within b hb) (within c hc)

/-- In each place, three lists have values that can be sorted. -/
def Alike (as bs cs : List Value) : Prop :=
  ∀ (i : Nat) (a b c : Value), as[i]? = some a → bs[i]? = some b → cs[i]? = some c →
    ∃ P, Sortable P ∧ P a ∧ P b ∧ P c

theorem compareAll_isLE_trans {as bs cs : List Value} (alike : Alike as bs cs)
    (first : (compareAll as bs).isLE) (second : (compareAll bs cs).isLE) :
    (compareAll as cs).isLE := by
  induction as generalizing bs cs with
  | nil => cases cs <;> rfl
  | cons a as ih =>
    cases bs with
    | nil => cases first
    | cons b bs =>
      cases cs with
      | nil => cases second
      | cons c cs =>
        obtain ⟨P, sortable, ha, hb, hc⟩ := alike 0 a b c rfl rfl rfl
        have := sortable
        let a' : Subtype P := ⟨a, ha⟩
        let b' : Subtype P := ⟨b, hb⟩
        let c' : Subtype P := ⟨c, hc⟩
        have lists := @ih bs cs fun i => alike (i + 1)
        simp only [compareAll, Ordering.isLE_then_iff_or] at first second ⊢
        rcases first with less | ⟨equal, first⟩ <;> rcases second with less' | ⟨equal', second⟩
        · exact .inl (sortable.lt_trans (a := a') (b := b') (c := c') less less')
        · exact .inl (sortable.lt_of_lt_of_eq (a := a') (b := b') (c := c') less equal')
        · exact .inl (sortable.lt_of_eq_of_lt (a := a') (b := b') (c := c') equal less')
        · exact .inr ⟨sortable.eq_trans (a := a') (b := b') (c := c') equal equal',
            lists first second⟩

/-! NULL is below everything else. -/

theorem compare_null {v : Value} (some : v ≠ null) : compare null v = .lt := by
  cases v with
  | null => exact absurd rfl some
  | _ => rfl

theorem sortable_of_some {P : Value → Prop} (sortable : Sortable fun v => P v ∧ v ≠ null) :
    Sortable P := by
  rw [sortable_iff] at sortable ⊢
  intro a b c ha hb hc first second
  by_cases na : a = null
  · subst na
    by_cases nc : c = null
    · subst nc
      rfl
    · rw [compare_null nc]
      rfl
  · have nb : b ≠ null := by
      rintro rfl
      rw [compare_swap, compare_null na] at first
      cases first
    have nc : c ≠ null := by
      rintro rfl
      rw [compare_swap, compare_null nb] at second
      cases second
    exact sortable a b c ⟨ha, na⟩ ⟨hb, nb⟩ ⟨hc, nc⟩ first second

theorem sortable_of_form {κ : Type} (cmp : κ → κ → Ordering) [TransCmp cmp] {P : Value → Prop}
    (form : κ → Value) (all : ∀ v, P v → ∃ x, v = form x)
    (same : ∀ x y, compare (form x) (form y) = cmp x y) : Sortable P := by
  rw [sortable_iff]
  intro a b c ha hb hc
  obtain ⟨x, rfl⟩ := all a ha
  obtain ⟨y, rfl⟩ := all b hb
  obtain ⟨z, rfl⟩ := all c hc
  rw [same, same, same]
  exact TransCmp.isLE_trans

theorem form_of_fits {v : Value} {t : DataType} (fit : v.fits t = true) (some : v ≠ null) :
    match t with
    | .boolean => ∃ b, v = boolean b
    | .integer w => ∃ n, v = integer w n
    | .floating p => ∃ x, v = floating p x
    | .text => ∃ s, v = text s
    | .array u => ∃ items, v = list items ∧ allFit items u = true := by
  cases v with
  | null => exact absurd rfl some
  | list items =>
    obtain ⟨u, rfl, all⟩ := fits_list.mp fit
    exact ⟨items, rfl, all⟩
  | _ =>
    simp only [fits_boolean, fits_integer, fits_floating, fits_text] at fit
    subst fit
    exact ⟨_, rfl⟩

theorem alike_of_allFit {as bs cs : List Value} {t : DataType}
    (sortable : Sortable fun v => v.fits t = true) (fa : allFit as t = true)
    (fb : allFit bs t = true) (fc : allFit cs t = true) : Alike as bs cs := by
  rw [allFit_eq_all, List.all_eq_true] at fa fb fc
  intro i a b c ha hb hc
  exact ⟨_, sortable, fa a (List.mem_of_getElem? ha), fb b (List.mem_of_getElem? hb),
    fc c (List.mem_of_getElem? hc)⟩

/-- Values of one type can be sorted. -/
theorem sortable_fits (t : DataType) : Sortable fun v => v.fits t = true := by
  induction t with
  | array u ih =>
    refine sortable_of_some (sortable_iff.mpr ?_)
    rintro a b c ⟨fa, na⟩ ⟨fb, nb⟩ ⟨fc, nc⟩ first second
    obtain ⟨as, rfl, fa⟩ := form_of_fits fa na
    obtain ⟨bs, rfl, fb⟩ := form_of_fits fb nb
    obtain ⟨cs, rfl, fc⟩ := form_of_fits fc nc
    exact compareAll_isLE_trans (alike_of_allFit ih fa fb fc) first second
  | boolean =>
    exact sortable_of_some <| sortable_of_form (compareOn Bool.toNat) boolean
      (fun v fits => form_of_fits fits.1 fits.2) fun x y => rfl
  | integer w =>
    exact sortable_of_some <| sortable_of_form (compareOn Whole.toInt) (integer w)
      (fun v fits => form_of_fits fits.1 fits.2) fun x y => rfl
  | floating p =>
    exact sortable_of_some <| sortable_of_form (compareOn fun x => x.toDouble.orderKey) (floating p)
      (fun v fits => form_of_fits fits.1 fits.2) fun x y => rfl
  | text =>
    exact sortable_of_some <| sortable_of_form compareText text
      (fun v fits => form_of_fits fits.1 fits.2) fun x y => rfl

theorem sortable_eq (v : Value) : Sortable (· = v) := by
  rw [sortable_iff]
  rintro a b c rfl rfl rfl first second
  exact first

end BatchFlow.Value

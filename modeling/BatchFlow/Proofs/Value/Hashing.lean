import BatchFlow.Proofs.Value.Clashes

/-!
Hashes of equal values. A hash takes in every number at double precision; two whole numbers are equal
only if they are the same, and two other numbers if they are the same at double precision. So what is
equal is hashed alike, of whatever kinds it is, and lists by what they hold.
-/
namespace BatchFlow.Value

open Std

variable {a b : Value} {x y : Binary .double}

theorem hashPieces_of_numeric (number : a.numeric? = some x) :
    a.hashPieces = [.byte 2, .word x.toBits] := by
  rcases form_of_numeric number with ⟨w, n, rfl, rfl⟩ | ⟨p, y, rfl, rfl⟩ <;> rfl

theorem isLE_of_eq (same : compare a b = .eq) : (compare a b).isLE ∧ (compare b a).isLE := by
  rw [compare_swap a b, same]
  exact ⟨rfl, rfl⟩

theorem numeric_of_eq (ha : a.numeric? = some x) (hb : b.numeric? = some y)
    (same : compare a b = .eq) : x = y := by
  obtain ⟨le, ge⟩ := isLE_of_eq same
  exact Binary.orderKey_inj
    (Int.le_antisymm (orderKey_le_of_isLE ha hb le) (orderKey_le_of_isLE hb ha ge))

theorem rank_of_eq (same : compare a b = .eq) : a.rank = b.rank := by
  obtain ⟨le, ge⟩ := isLE_of_eq same
  exact Nat.le_antisymm (rank_le_of_isLE le) (rank_le_of_isLE ge)

instance : LawfulEqCmp (fun c d : Char => Ord.compare c.toNat d.toNat) where
  compare_self := Nat.compare_eq_eq.mpr rfl
  eq_of_compare same := Char.toNat_inj.mp (Nat.compare_eq_eq.mp same)

instance : LawfulEqCmp compareText where
  compare_self := ReflCmp.compare_self
  eq_of_compare {s t} same := by
    have lists : List.compareLex (fun c d : Char => Ord.compare c.toNat d.toNat) s.toList t.toList =
        .eq := same
    exact String.toList_inj.mp (LawfulEqCmp.eq_of_compare lists)

mutual

theorem hashPieces_of_eq (a b : Value) (same : compare a b = .eq) :
    a.hashPieces = b.hashPieces := by
  have form := form_of_rank b
  rw [← rank_of_eq same] at form
  match a with
  | null =>
    obtain rfl : b = null := form
    rfl
  | boolean x =>
    obtain ⟨y, rfl⟩ := form
    have bits : x.toNat = y.toNat := Nat.compare_eq_eq.mp same
    rw [hashPieces, hashPieces, bits]
  | integer .. | floating .. =>
    obtain ⟨y, number⟩ := form
    rw [hashPieces_of_numeric rfl, hashPieces_of_numeric number, numeric_of_eq rfl number same]
  | text s =>
    obtain ⟨t, rfl⟩ := form
    have texts : compareText s t = .eq := same
    rw [LawfulEqCmp.eq_of_compare texts]
  | list as =>
    obtain ⟨bs, rfl⟩ := form
    obtain ⟨count, pieces⟩ := allHashPieces_of_eq as bs same
    rw [hashPieces, hashPieces, count, pieces]

theorem allHashPieces_of_eq : ∀ as bs : List Value, compareAll as bs = .eq →
    as.length = bs.length ∧ allHashPieces as = allHashPieces bs
  | [], [], _ => ⟨rfl, rfl⟩
  | [], _ :: _, same | _ :: _, [], same => by cases same
  | a :: as, b :: bs, same => by
    obtain ⟨first, others⟩ := Ordering.then_eq_eq.mp same
    obtain ⟨count, pieces⟩ := allHashPieces_of_eq as bs others
    rw [List.length_cons, List.length_cons, allHashPieces, allHashPieces, count, pieces,
      hashPieces_of_eq a b first]
    exact ⟨rfl, rfl⟩

end

/-- Any two values compare, the other way round with the answer turned around, and a value is equal to
itself. Values that are equal are hashed alike. -/
theorem order_agrees_with_hash (a b : Value) :
    compare a a = .eq ∧ compare a b = (compare b a).swap ∧
      (equal a b = true → a.hashPieces = b.hashPieces) :=
  ⟨ReflCmp.compare_self, compare_swap b a, fun same => hashPieces_of_eq a b (of_decide_eq_true same)⟩

/-- Whole numbers of two widths and one with a fraction field, a zero below zero and a value that is
not a number, in lists. -/
theorem mixed_lists_hashed_alike :
    let zero : Binary .single := .zero .single true
    let a := list [integer .tiny ⟨7, by decide⟩, list [floating .single zero, null],
      floating .single (.nan .single true)]
    let b := list [floating .double (.ofInt .double 7), list [floating .double zero.toDouble, null],
      floating .double (.nan .double true)]
    a ≠ b ∧ equal a b = true ∧ a.hashPieces = b.hashPieces := by
  intro zero a b
  have same : equal a b = true := by decide +kernel
  exact ⟨by decide, same, (order_agrees_with_hash a b).2.2 same⟩

end BatchFlow.Value

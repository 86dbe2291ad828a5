import Mathlib.Data.List.Basic
import BatchFlow.Vector.Lists

/-! The offsets of a list vector keep every list inside the inner values. -/
namespace BatchFlow

theorem rising_cons {a : Nat} {l : List Nat} (h : rising (a :: l) = true) :
    (∀ b ∈ l, a ≤ b) ∧ rising l = true := by
  induction l generalizing a with
  | nil => exact ⟨by simp, rfl⟩
  | cons b l ih =>
    simp only [rising, Bool.and_eq_true, decide_eq_true_eq] at h
    obtain ⟨below, rest⟩ := h
    refine ⟨fun c member => ?_, rest⟩
    rcases List.mem_cons.mp member with rfl | later
    · exact below
    · exact Nat.le_trans below ((ih rest).1 c later)

theorem rising_pairwise {l : List Nat} (h : rising l = true) : l.Pairwise (· ≤ ·) := by
  induction l with
  | nil => exact .nil
  | cons a l ih => exact .cons (rising_cons h).1 (ih (rising_cons h).2)

namespace ListVector

theorem offset_le (v : ListVector) {i start : Nat} (here : v.offsets[i]? = some start) :
    start ≤ v.inner.length := by
  have cut := v.partitions
  simp only [cuts, Bool.and_eq_true, decide_eq_true_eq] at cut
  obtain ⟨⟨-, rising⟩, last⟩ := cut
  have sorted := rising_pairwise rising
  obtain ⟨init, split⟩ := List.getLast?_eq_some_iff.mp last
  rw [split, List.pairwise_append] at sorted
  have member : start ∈ v.offsets.toList :=
    List.mem_of_getElem? ((Array.getElem?_toList ..).trans here)
  rw [split] at member
  rcases List.mem_append.mp member with inside | atEnd
  · exact sorted.2.2 start inside _ (List.mem_singleton.mpr rfl)
  · exact Nat.le_of_eq (List.mem_singleton.mp atEnd)

theorem offsets_le (v : ListVector) {i start stop : Nat} (here : v.offsets[i]? = some start)
    (next : v.offsets[i + 1]? = some stop) : start ≤ stop := by
  have cut := v.partitions
  simp only [cuts, Bool.and_eq_true, decide_eq_true_eq] at cut
  have sorted := List.pairwise_iff_getElem.mp (rising_pairwise cut.1.2)
  rw [← Array.getElem?_toList] at here next
  obtain ⟨inside, rfl⟩ := List.getElem?_eq_some_iff.mp here
  obtain ⟨inside', rfl⟩ := List.getElem?_eq_some_iff.mp next
  exact sorted i (i + 1) inside inside' (Nat.lt_succ_self i)

/-- The values of a row lie inside the inner values. -/
theorem offsetAt_add_countAt_le (v : ListVector) (row : Nat) :
    v.offsetAt row + v.countAt row ≤ v.inner.length := by
  unfold offsetAt countAt
  split
  next start stop here next =>
    have := v.offsets_le here next
    have := v.offset_le next
    simp only [here, Option.getD_some]
    omega
  · cases here : v.offsets[row]? with
    | none => simp
    | some start => simpa using v.offset_le here

theorem length_valuesAt (v : ListVector) (row : Nat) :
    (v.valuesAt row).length = v.countAt row := by
  have := v.offsetAt_add_countAt_le row
  have total : v.inner.toList.length = v.inner.length := Window.length_toList _
  simp only [valuesAt, List.length_take, List.length_drop, total]
  omega

end ListVector
end BatchFlow

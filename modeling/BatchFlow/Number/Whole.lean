/-!
Whole numbers of a fixed width, as the integer they stand for together with the bounds it keeps.
Arithmetic is done on `Int`; `Whole.ofInt?` is the range check that brings a result back.
-/
namespace BatchFlow

inductive IntWidth where
  | tiny
  | small
  | medium
  | big
  deriving DecidableEq, Repr

namespace IntWidth

/-- The first number past the greatest; its negative is the least. The widths have 8, 16, 32 and 64
bits, the sign included. -/
def bound : IntWidth → Int
  | tiny => 0x80
  | small => 0x8000
  | medium => 0x80000000
  | big => 0x8000000000000000

def Holds (w : IntWidth) (n : Int) : Prop := -w.bound ≤ n ∧ n < w.bound

instance (w : IntWidth) (n : Int) : Decidable (w.Holds n) :=
  inferInstanceAs (Decidable (_ ∧ _))

theorem bound_pos (w : IntWidth) : 0 < w.bound := by cases w <;> decide

theorem Holds.big {w : IntWidth} {n : Int} (h : w.Holds n) : IntWidth.big.Holds n := by
  cases w <;> simp only [Holds, bound] at * <;> omega

end IntWidth

/-- A whole number within the bounds of its width. -/
structure Whole (w : IntWidth) where
  toInt : Int
  inRange : w.Holds toInt
  deriving DecidableEq

namespace Whole

theorem ext_toInt {w : IntWidth} {a b : Whole w} (h : a.toInt = b.toInt) : a = b := by
  cases a; cases b; cases h; rfl

def ofInt? (w : IntWidth) (n : Int) : Option (Whole w) :=
  if h : w.Holds n then some ⟨n, h⟩ else none

def saturate (w : IntWidth) (n : Int) : Whole w :=
  ⟨max (-w.bound) (min n (w.bound - 1)), by
    have := w.bound_pos
    simp only [IntWidth.Holds]
    omega⟩

/-- The number that the width holds and that differs from `n` by a multiple of its span. -/
def wrap (w : IntWidth) (n : Int) : Whole w :=
  ⟨(n + w.bound) % (2 * w.bound) - w.bound, by
    have := w.bound_pos
    have := Int.emod_nonneg (n + w.bound) (b := 2 * w.bound) (by omega)
    have := Int.emod_lt_of_pos (n + w.bound) (b := 2 * w.bound) (by omega)
    simp only [IntWidth.Holds]
    omega⟩

def toBig {w : IntWidth} (n : Whole w) : Whole .big := ⟨n.toInt, n.inRange.big⟩

@[simp] theorem ofInt?_toInt {w : IntWidth} (n : Whole w) : ofInt? w n.toInt = some n := by
  simp [ofInt?, n.inRange]

theorem ofInt?_eq_some {w : IntWidth} {n : Int} {m : Whole w} :
    ofInt? w n = some m ↔ m.toInt = n := by
  constructor
  · intro h
    unfold ofInt? at h
    split at h
    · cases h; rfl
    · cases h
  · rintro rfl
    exact ofInt?_toInt m

theorem ofInt?_eq_none {w : IntWidth} {n : Int} : ofInt? w n = none ↔ ¬ w.Holds n := by
  unfold ofInt?
  split <;> simp_all

theorem wrap_toInt {w : IntWidth} {n : Int} (h : w.Holds n) : (wrap w n).toInt = n := by
  have := w.bound_pos
  simp only [IntWidth.Holds] at h
  show (n + w.bound) % (2 * w.bound) - w.bound = n
  rw [Int.emod_eq_of_lt] <;> omega

end Whole
end BatchFlow

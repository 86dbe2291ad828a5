import BatchFlow.Fault

/-!
A bounded count of bytes shared by operators. A request that does not fit is refused whole and
leaves a trace only in the count of refusals.
-/
namespace BatchFlow

structure Budget where
  limit : Nat
  allocated : Nat
  peak : Nat
  failures : Nat
  deriving DecidableEq, Repr

namespace Budget

def ofLimit (limit : Nat) : Budget := ⟨limit, 0, 0, 0⟩

def available (b : Budget) : Nat := b.limit - b.allocated

def charge (b : Budget) (bytes : Nat) : Except Fault Unit × Budget :=
  if b.available < bytes then
    (.error (.allocationFailed bytes b.available b.limit), { b with failures := b.failures + 1 })
  else
    let allocated := b.allocated + bytes
    (.ok (), { b with allocated := allocated, peak := max b.peak allocated })

theorem charge_ok {b b' : Budget} {bytes : Nat} (h : b.charge bytes = (.ok (), b')) :
    bytes ≤ b.available ∧
      b' = { b with allocated := b.allocated + bytes, peak := max b.peak (b.allocated + bytes) } := by
  rw [charge] at h
  split at h
  · cases h
  next fits => exact ⟨Nat.not_lt.mp fits, (Prod.mk.inj h).2.symm⟩

theorem charge_error {b b' : Budget} {bytes : Nat} {e : Fault}
    (h : b.charge bytes = (.error e, b')) :
    b.available < bytes ∧ e = .allocationFailed bytes b.available b.limit ∧
      b' = { b with failures := b.failures + 1 } := by
  rw [charge] at h
  split at h
  next refused =>
    exact ⟨refused, (Except.error.inj (Prod.mk.inj h).1).symm, (Prod.mk.inj h).2.symm⟩
  · cases h

def release (b : Budget) (bytes : Nat) : Budget := { b with allocated := b.allocated - bytes }

def text (b : Budget) : String :=
  s!"BufferAllocator \x7b limit: {b.limit}, allocated: {b.allocated}, peak: {b.peak} \x7d"

end Budget
end BatchFlow

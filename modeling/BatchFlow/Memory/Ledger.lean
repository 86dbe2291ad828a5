import BatchFlow.Memory.Budget

/-!
Named reservations against one budget. A reservation gives its bytes back when it is freed, shrunk
or dropped; reserving under a name in use drops the reservation held before, once the new one has
been granted.
-/
namespace BatchFlow

structure Ledger where
  budget : Budget
  held : List (String × Nat)
  deriving DecidableEq, Repr

namespace Ledger

def ofLimit (limit : Nat) : Ledger := ⟨.ofLimit limit, []⟩

def size? (l : Ledger) (name : String) : Option Nat := l.held.lookup name

def total (l : Ledger) : Nat := (l.held.map Prod.snd).foldr (· + ·) 0

/-- Gives a live reservation another size on paper only. -/
def resize (l : Ledger) (name : String) (size : Nat) : Ledger :=
  { l with held := l.held.map fun (n, s) => if n = name then (n, size) else (n, s) }

/-- Frees a reservation and forgets it; true if there was one. -/
def drop (l : Ledger) (name : String) : Bool × Ledger :=
  match l.size? name with
  | none => (false, l)
  | some size =>
    (true, { budget := l.budget.release size, held := l.held.filter fun (n, _) => n ≠ name })

def reserve (l : Ledger) (name : String) (bytes : Nat) : Except Fault Unit × Ledger :=
  match l.budget.charge bytes with
  | (.error e, b) => (.error e, { l with budget := b })
  | (.ok (), b) =>
    let (_, rest) := { l with budget := b }.drop name
    (.ok (), { rest with held := rest.held ++ [(name, bytes)] })

def grow? (l : Ledger) (name : String) (bytes : Nat) : Option (Except Fault Unit × Ledger) :=
  (l.size? name).map fun size =>
    match l.budget.charge bytes with
    | (.error e, b) => (.error e, { l with budget := b })
    | (.ok (), b) => (.ok (), { l with budget := b }.resize name (size + bytes))

/-- Gives back as many bytes as the reservation still holds. -/
def shrink? (l : Ledger) (name : String) (bytes : Nat) : Option Ledger :=
  (l.size? name).map fun size =>
    let given := min bytes size
    { l with budget := l.budget.release given }.resize name (size - given)

/-- Gives back everything and keeps the empty reservation. -/
def free? (l : Ledger) (name : String) : Option Ledger :=
  (l.size? name).map fun size => { l with budget := l.budget.release size }.resize name 0

end Ledger
end BatchFlow

import BatchFlow.Batch.Basic
import BatchFlow.Memory.Budget
import BatchFlow.Settings

/-!
What the operators of one query share: settings, memory budget, and the position of a lateral join
on its outer side, with a generation that changes with every outer batch.

Rows and generations are counted without a bound, so the cursor always has a next row. The greatest
number of a machine word, to which one cannot be added, is left out.
-/
namespace BatchFlow

structure OuterCursor where
  row : Nat
  generation : Nat
  outer : Option Batch

namespace OuterCursor

def start : OuterCursor := ⟨0, 0, none⟩

def load (c : OuterCursor) (b : Batch) : OuterCursor :=
  ⟨0, c.generation + 1, some b⟩

/-- Goes to the next row; true if the outer batch has it. -/
def next (c : OuterCursor) : Bool × OuterCursor :=
  let row := c.row + 1
  let inside := match c.outer with
    | some b => row < b.numRows
    | none => false
  (inside, { c with row })

def moveTo (c : OuterCursor) (row : Nat) : OuterCursor := { c with row }

def finish (c : OuterCursor) : OuterCursor := { c with outer := none }

end OuterCursor

structure Fragment where
  settings : Settings
  memory : Budget
  cursor : OuterCursor

namespace Fragment

/-- A fragment before its first outer batch. The budget is that of the settings unless another is
given; the settings have to be valid either way. -/
def ofSettings (settings : Settings) (memoryLimit : Option Nat) : Except Fault Fragment := do
  settings.validate
  pure ⟨settings, .ofLimit (memoryLimit.getD settings.memoryLimit), .start⟩

end Fragment
end BatchFlow

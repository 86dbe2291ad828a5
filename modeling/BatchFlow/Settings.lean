import BatchFlow.Fault

/-! Settings that the operators of one query share. -/
namespace BatchFlow

structure Settings where
  batchRows : Nat
  memoryLimit : Nat
  deriving DecidableEq, Repr

namespace Settings

def default : Settings := ⟨Limits.maxRows, Limits.defaultMemory⟩

def trial : Settings := ⟨1024, Limits.trialMemory⟩

/-- The first setting that is out of bounds is the one refused. -/
def validate (s : Settings) : Except Fault Unit :=
  if s.batchRows = 0 then .error (.config .noBatchRows)
  else if Limits.maxRows < s.batchRows then .error (.config .tooManyBatchRows)
  else if s.memoryLimit = 0 then .error (.config .noMemory)
  else .ok ()

end Settings
end BatchFlow

/-! Bounds that every operator keeps. -/
namespace BatchFlow.Limits

/-- Rows that one batch may hold: what two-byte offsets can tell apart. -/
def maxRows : Nat := 65536

def minRows : Nat := 1

def defaultMemory : Nat := 256 * 1024 * 1024

def trialMemory : Nat := 16 * 1024 * 1024

end BatchFlow.Limits

import BatchFlow.Batch.Basic

/-!
What one turn of an operator yields. The first batch is announced by `newSchema`, as is every batch
of another shape than the last one announced; `endOfGroup` closes a group, with rows or without;
after `endOfStream` nothing else comes.
-/
namespace BatchFlow

inductive Outcome where
  | newSchema (b : Batch)
  | data (b : Batch)
  | endOfGroup (b : Batch)
  | notYet
  | endOfStream

namespace Outcome

def batch? : Outcome → Option Batch
  | newSchema b | data b | endOfGroup b => some b
  | notYet | endOfStream => none

def recordCount (o : Outcome) : Nat := (o.batch?.map Batch.numRows).getD 0

@[simp] def totalRecords : List Outcome → Nat
  | [] => 0
  | o :: os => o.recordCount + totalRecords os

def kindText : Outcome → String
  | newSchema _ => "NEW_SCHEMA"
  | data _ => "HAS_DATA"
  | endOfGroup _ => "END_OF_GROUP"
  | notYet => "NO_DATA_YET"
  | endOfStream => "END_OF_STREAM"

end Outcome

def resultText : Except Fault Outcome → String
  | .ok o => o.kindText
  | .error _ => "FAILURE"

inductive Phase where
  | running
  | finished
  | failed
  | closed
  deriving DecidableEq, Repr

end BatchFlow

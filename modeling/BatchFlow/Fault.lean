import BatchFlow.Aggregate.Call
import BatchFlow.Limits
import BatchFlow.Value.Conversion

/-!
Everything that can go wrong, by cause. `Fault.message` holds the wording, `Fault.code` the stable
code, and the code's high byte the category.
-/
namespace BatchFlow

inductive EvalError where
  | unbound (column : String)
  | noSuchPosition (index : Nat)
  | operands (left : Value) (op : BinaryOp) (right : Value)
  | argument (func : AggregateOp) (value : Value)
  | divisionByZero
  | overflow (left : Int) (op : ArithmeticOp) (right : Int)
  | sumOverflow (total next : Int)
  | cast (e : CastError)
  deriving DecidableEq

def EvalError.message : EvalError → String
  | unbound c => s!"column '{c}' is not bound"
  | noSuchPosition i => s!"column index {i} out of range"
  | operands l op r => s!"type mismatch: {l.toText} {op.text} {r.toText}"
  | argument f v => s!"type mismatch: {f.text}({v.toText})"
  | divisionByZero => "division by zero"
  | overflow l op r => s!"integer overflow in {l} {(BinaryOp.arithmetic op).text} {r}"
  | sumOverflow t n => s!"integer overflow in sum {t} + {n}"
  | cast e => "cast error: " ++ e.message

/-- Uses that the operators' contract rules out. -/
inductive Misuse where
  | advancedAfterFailure (operator : String)
  | advancedAfterClose (operator : String)
  | aggregationNotSetUp
  | unreadableRow (index : Nat)
  | noOutputSchema
  | unnestNotSetUp
  | noOutputBatch
  deriving DecidableEq, Repr

def Misuse.message : Misuse → String
  | advancedAfterFailure op => op ++ " advanced after failure"
  | advancedAfterClose op => op ++ " advanced after close"
  | aggregationNotSetUp => "aggregator used before setup"
  | unreadableRow i => s!"input row {i} unreadable"
  | noOutputSchema => "output schema not yet built"
  | unnestNotSetUp => "unnest used before setup"
  | noOutputBatch => "unnest output container missing"

inductive BadArgument where
  | columnCount (columns fields : Nat)
  | columnLength (column : String) (rows expected : Nat)
  | recordCount (count : Nat) (values : Nat) (column : String)
  | rowWidth (width expected : Nat)
  | window (start count : Nat) (column : String) (length : Nat)
  | offsets (column : String)
  | outerRow (row : Nat) (column : String) (rows : Nat)
  deriving DecidableEq, Repr

def BadArgument.message : BadArgument → String
  | columnCount c f => s!"column count {c} doesn't match schema field count {f}"
  | columnLength c n e => s!"column '{c}' has {n} rows, expected {e}"
  | recordCount n v c => s!"record count {n} exceeds the {v} values of column '{c}'"
  | rowWidth n e => s!"row has {n} columns, expected {e}"
  | window s n c l => s!"range [{s}, {s}+{n}) out of bounds for '{c}' with {l} values"
  | offsets c => s!"malformed offsets for repeated column '{c}'"
  | outerRow r c n => s!"lateral row {r} out of range for '{c}' with {n} rows"

inductive BadConfig where
  | noBatchRows
  | tooManyBatchRows
  | noMemory
  | fraction (x : Binary .single)
  | nothingToAggregate
  | noArgument (func : AggregateOp)
  | noUnnestField
  | rowCap (cap : Nat)
  deriving DecidableEq

def BadConfig.message : BadConfig → String
  | noBatchRows => "output_batch_rows must be greater than 0"
  | tooManyBatchRows => s!"output_batch_rows must be at most {Limits.maxRows}"
  | noMemory => "memory_limit_bytes must be greater than 0"
  | fraction x => s!"output_batch_size_fraction must be in (0, 1], got {x.text}"
  | nothingToAggregate =>
    "streaming aggregate needs at least one grouping or aggregate expression"
  | noArgument f => f.text ++ " requires an argument"
  | noUnnestField => "unnest_field must not be empty"
  | rowCap n => s!"output_row_cap must be in [1, {Limits.maxRows}], got {n}"

inductive OpenKind where
  | internal
  | invalidArgument
  | invalidConfig
  | evaluation
  deriving DecidableEq, Repr

/-- A fault. `reported` is one that came from outside and of which only the wording is known. -/
inductive Fault where
  | misuse (cause : Misuse)
  | argument (cause : BadArgument)
  | config (cause : BadConfig)
  | evaluation (cause : EvalError)
  | reported (kind : OpenKind) (message : String)
  | unsupportedSelection (operator mode : String)
  | typeMismatch (column expected actual : String)
  | missingColumn (column place : String)
  | notRepeated (column : String)
  | allocationFailed (requested available limit : Nat)
  deriving DecidableEq

inductive FaultCode where
  | internal
  | invalidArgument
  | unsupportedSelectionVector
  | typeMismatch
  | missingColumn
  | invalidConfig
  | notRepeated
  | allocationFailed
  | evaluationFailed
  deriving DecidableEq, Repr

def FaultCode.number : FaultCode → Nat
  | internal => 0x0001
  | invalidArgument => 0x0003
  | unsupportedSelectionVector => 0x0100
  | typeMismatch => 0x0101
  | missingColumn => 0x0102
  | invalidConfig => 0x0103
  | notRepeated => 0x0200
  | allocationFailed => 0x0300
  | evaluationFailed => 0x0400

def FaultCode.category (c : FaultCode) : String :=
  match c.number / 256 with
  | 1 => "configuration"
  | 2 => "schema inconsistency"
  | 3 => "resource exhaustion"
  | 4 => "execution"
  | _ => "internal"

namespace Fault

def code : Fault → FaultCode
  | misuse _ | reported .internal _ => .internal
  | argument _ | reported .invalidArgument _ => .invalidArgument
  | config _ | reported .invalidConfig _ => .invalidConfig
  | evaluation _ | reported .evaluation _ => .evaluationFailed
  | unsupportedSelection .. => .unsupportedSelectionVector
  | typeMismatch .. => .typeMismatch
  | missingColumn .. => .missingColumn
  | notRepeated _ => .notRepeated
  | allocationFailed .. => .allocationFailed

def message : Fault → String
  | misuse c => "internal error: " ++ c.message
  | reported .internal m => "internal error: " ++ m
  | argument c => "invalid argument: " ++ c.message
  | reported .invalidArgument m => "invalid argument: " ++ m
  | config c => "invalid configuration: " ++ c.message
  | reported .invalidConfig m => "invalid configuration: " ++ m
  | evaluation c => "evaluation failed: " ++ c.message
  | reported .evaluation m => "evaluation failed: " ++ m
  | unsupportedSelection op mode => s!"{op} does not support selection vector mode {mode}"
  | typeMismatch c e a => s!"type mismatch for column '{c}': expected {e}, got {a}"
  | missingColumn c p => s!"column '{c}' not found in {p}"
  | notRepeated c => s!"column '{c}' is not a repeated column"
  | allocationFailed r a l => s!"allocation of {r} bytes failed: {a} of {l} bytes available"

/-- No fault goes away by trying again in place. -/
def isRetryable (_ : Fault) : Bool := false

def isResourceExhaustion (f : Fault) : Bool := f.code = .allocationFailed

end Fault
end BatchFlow

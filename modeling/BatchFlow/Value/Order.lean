import BatchFlow.Value.Conversion

/-!
The order of values and what a hash of a value reads. Whole numbers compare exactly; a whole number
and a floating-point number compare at double precision; values of different kinds compare by the
rank of their kind, NULL lowest. Equality of values is `compare` giving `eq`.
-/
namespace BatchFlow.Value

/-- Kinds in order; all numbers are of one kind. -/
def rank : Value → Nat
  | null => 0
  | boolean _ => 1
  | integer .. | floating .. => 2
  | text _ => 3
  | list _ => 4

def numeric? : Value → Option (Binary .double)
  | v@(integer ..) | v@(floating ..) => v.toDouble?
  | _ => none

/-- Texts compare by their characters, and a text comes after its beginnings. -/
def compareText (a b : String) : Ordering :=
  List.compareLex (fun (c d : Char) => compare c.toNat d.toNat) a.toList b.toList

mutual

def compare : Value → Value → Ordering
  | boolean a, boolean b => Ord.compare a.toNat b.toNat
  | integer _ a, integer _ b => Ord.compare a.toInt b.toInt
  | text a, text b => compareText a b
  | list a, list b => compareAll a b
  | a, b =>
    match a.numeric?, b.numeric? with
    | some x, some y => x.totalCompare y
    | _, _ => Ord.compare a.rank b.rank

/-- Lists compare at their first difference, and a list comes after its beginnings. -/
def compareAll : List Value → List Value → Ordering
  | [], [] => .eq
  | [], _ :: _ => .lt
  | _ :: _, [] => .gt
  | a :: as, b :: bs => (compare a b).then (compareAll as bs)

end

instance : Ord Value := ⟨compare⟩

def equal (a b : Value) : Bool := compare a b = .eq

def allEqual (as bs : List Value) : Bool := compareAll as bs = .eq

inductive HashPiece where
  | byte (n : Nat)
  | word (n : Nat)
  | bytes (s : String)
  deriving DecidableEq, Repr

mutual

/-- What a hash of a value takes in: the rank, then the content. A number is taken at double
precision; a text is closed by a byte that no text holds, a list is opened by its length. -/
def hashPieces : Value → List HashPiece
  | null => [.byte 0]
  | boolean b => [.byte 1, .byte b.toNat]
  | integer _ n => [.byte 2, .word (Binary.ofInt .double n.toInt).toBits]
  | floating _ x => [.byte 2, .word x.toDouble.toBits]
  | text s => [.byte 3, .bytes s, .byte 255]
  | list items => .byte 4 :: .word items.length :: allHashPieces items

def allHashPieces : List Value → List HashPiece
  | [] => []
  | v :: vs => v.hashPieces ++ allHashPieces vs

end

end BatchFlow.Value

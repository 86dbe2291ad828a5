import BatchFlow.Proofs.Stream.Refinement
import Mathlib.Algebra.GroupWithZero.Nat
import Mathlib.Data.List.SplitLengths

/-!
Output cut into sections, batch by batch. How many batches a section takes and how many rows each of
them has follows from the number of its rows; the sections of the input follow from its rows, its
shapes and its boundaries.
-/
namespace BatchFlow

/-- The sizes of the batches in which `m` rows are handed on: full ones, and one with the rest.
Without rows there is a batch only for a boundary. -/
def batchSizes (cap m : Nat) (boundary : Bool) : List Nat :=
  if m = 0 then (if boundary then [0] else [])
  else List.replicate ((m - 1) / cap) cap ++ [(m - 1) % cap + 1]

theorem sum_batchSizes (cap m : Nat) (boundary : Bool) : (batchSizes cap m boundary).sum = m := by
  unfold batchSizes
  split
  next none => cases boundary <;> simp [none]
  next some =>
    have split : cap * ((m - 1) / cap) + (m - 1) % cap = m - 1 := Nat.div_add_mod _ _
    rw [List.sum_append, List.sum_replicate_nat, Nat.mul_comm, List.sum_singleton]
    omega

/-- Full batches and one with one row or more are the batches of their rows. -/
theorem batchSizes_full {cap rest : Nat} (count : Nat) (some : 0 < rest) (room : rest ≤ cap)
    (boundary : Bool) :
    batchSizes cap (count * cap + rest) boundary = List.replicate count cap ++ [rest] := by
  have less : rest - 1 < cap := by omega
  have before : count * cap + rest - 1 = cap * count + (rest - 1) := by
    rw [Nat.mul_comm, Nat.add_sub_assoc some]
  have full : (cap * count + (rest - 1)) / cap = count := by
    rw [Nat.mul_add_div (by omega), Nat.div_eq_of_lt less, Nat.add_zero]
  have left : (cap * count + (rest - 1)) % cap + 1 = rest := by
    rw [Nat.mul_add_mod, Nat.mod_eq_of_lt less]
    omega
  rw [batchSizes, if_neg (by omega), before, full, left]

/-- What is handed on between two cuts, batch by batch, and whether it is a boundary that ends it.
The batch of the boundary comes last. -/
structure Portion where
  boundary : Bool
  batches : List Batch

namespace Portion

def piece (p : Portion) : Piece := ⟨p.boundary, p.batches.flatMap Batch.rows⟩

def shown (p : Portion) : Bool × List (List Row) := (p.boundary, p.batches.map Batch.rows)

end Portion

def Piece.inBatches (cap : Nat) (p : Piece) : Bool × List (List Row) :=
  (p.boundary, (batchSizes cap p.rows.length p.boundary).splitLengths p.rows)

theorem Piece.inBatches_exact (cap : Nat) (p : Piece) :
    (p.inBatches cap).2.flatten = p.rows ∧
      (p.inBatches cap).2.map List.length = batchSizes cap p.rows.length p.boundary := by
  have all := sum_batchSizes cap p.rows.length p.boundary
  exact ⟨List.flatten_splitLengths _ _ (Nat.le_of_eq all.symm),
    List.map_splitLengths_length _ _ (Nat.le_of_eq all)⟩

def AggregateSpec.batched (c : AggregateSpec) (cap : Nat) (s : Section) :
    Except Fault (Bool × List (List Row)) :=
  (c.reference s).map (Piece.inBatches cap)

def Batch.Holds (b : Batch) (n : Nat) : Prop := b.numRows = n ∧ b.rows.length = n

/-- The batches have the sizes due to their rows. -/
def Portion.Sized (cap : Nat) (p : Portion) : Prop :=
  List.Forall₂ Batch.Holds p.batches (batchSizes cap p.piece.rows.length p.boundary)

theorem splitLengths_flatten {α : Type} (parts : List (List α)) :
    (parts.map List.length).splitLengths parts.flatten = parts := by
  induction parts with
  | nil => rfl
  | cons part parts ih => simp [ih]

namespace Portion

variable {cap : Nat} {p : Portion}

theorem Sized.inBatches_eq_shown (sized : p.Sized cap) : p.piece.inBatches cap = p.shown := by
  have sizes : p.batches.map (fun b => b.rows.length) =
      (batchSizes cap p.piece.rows.length p.boundary).map id :=
    map_eq_map_of_forall₂ (sized.imp fun _ _ holds => holds.2)
  have parts : (p.batches.map Batch.rows).map List.length =
      batchSizes cap p.piece.rows.length p.boundary := by
    rw [List.map_map, ← List.map_id (batchSizes ..), ← sizes]
    rfl
  refine Prod.ext rfl ?_
  change (batchSizes cap p.piece.rows.length p.boundary).splitLengths p.piece.rows = _
  rw [← parts]
  exact splitLengths_flatten _

theorem sized_full {full : List Batch} {last : Batch} {rest : Nat}
    (each : ∀ b ∈ full, b.Holds cap) (holds : last.Holds rest) (some : 0 < rest)
    (room : rest ≤ cap) (boundary : Bool) : Sized cap ⟨boundary, full ++ [last]⟩ := by
  have count : (full.flatMap Batch.rows).length = full.length * cap := by
    rw [List.length_flatMap, List.map_congr_left fun b member => (each b member).2]
    simp
  have total : (piece ⟨boundary, full ++ [last]⟩).rows.length = full.length * cap + rest := by
    simp [piece, count, holds.2]
  rw [Sized, total, batchSizes_full _ some room]
  refine List.rel_append ?_ (.cons holds .nil)
  refine List.forall₂_iff_get.mpr ⟨by simp, fun i inside _ => ?_⟩
  simpa using each _ (List.get_mem full ⟨i, inside⟩)

theorem sized_none : Sized cap ⟨false, []⟩ := .nil

theorem sized_boundary {b : Batch} (holds : b.Holds 0) : Sized cap ⟨true, [b]⟩ := by
  have total : (piece ⟨true, [b]⟩).rows.length = 0 := by simp [piece, holds.2]
  rw [Sized, total]
  exact .cons holds .nil

end Portion

/-- Delivered batches being cut, and for the announcements to come whether they are fresh. -/
structure Portions where
  freshness : List Bool
  closed : List Portion
  current : List Batch

namespace Portions

def next (p : Portions) : Outcome → Portions
  | .newSchema _ =>
    match p.freshness with
    | true :: rest => ⟨rest, p.closed ++ [⟨false, p.current⟩], []⟩
    | false :: rest => { p with freshness := rest }
    | [] => p
  | .data b => { p with current := p.current ++ [b] }
  | .endOfGroup b => { p with closed := p.closed ++ [⟨true, p.current ++ [b]⟩], current := [] }
  | .notYet => p
  | .endOfStream => { p with closed := p.closed ++ [⟨false, p.current⟩], current := [] }

def pieces (p : Portions) : Pieces :=
  ⟨p.freshness, p.closed.map Portion.piece, p.current.flatMap Batch.rows⟩

theorem pieces_next (p : Portions) (o : Outcome) : (p.next o).pieces = p.pieces.next o := by
  obtain ⟨fresh, closed, current⟩ := p
  cases o with
  | newSchema b =>
    rcases fresh with _ | ⟨_ | _, rest⟩ <;> simp [next, pieces, Pieces.next, Portion.piece]
  | _ => simp [next, pieces, Pieces.next, Portion.piece]

theorem pieces_foldl (p : Portions) (ds : List Outcome) :
    (ds.foldl next p).pieces = ds.foldl Pieces.next p.pieces := by
  induction ds generalizing p with
  | nil => rfl
  | cons d ds ih => rw [List.foldl_cons, ih, pieces_next, List.foldl_cons]

end Portions

/-- What outcomes deliver in each closed section, batch by batch, if the announcements answer those
of `us`. -/
def portions (us ds : List Outcome) : List Portion :=
  (ds.foldl Portions.next ⟨freshness (events none us), [], []⟩).closed

/-- Batch by batch the same is delivered as row by row. -/
theorem delivered_eq (us ds : List Outcome) :
    delivered us ds = (portions us ds).map Portion.piece :=
  congrArg Pieces.closed (Portions.pieces_foldl ⟨freshness (events none us), [], []⟩ ds).symm

/-- Whether an event has a part in what is to be delivered: waits and announcements of the known
shape have none. -/
def Event.counts : Event → Bool
  | wait | announce false _ => false
  | _ => true

/-- What outcomes say that has a part in what is to be delivered, without the batches it came in. -/
def said (us : List Outcome) : List Event := (events none us).filter Event.counts

theorem sections_eq (us : List Outcome) :
    sections us = ((said us).foldl Sections.next .start).closed := by
  have skips : (fun s e => if e.counts then Sections.next s e else s) = Sections.next := by
    funext s e
    rcases e with ⟨_ | _, _⟩ | _ | _ | _ | _ <;> rfl
  rw [said, List.foldl_filter, skips, sections]

/-- Two rows in one batch, or in two with a wait and an announcement between them. -/
example : said [.data (sampleBatch "x" [true, false])] =
    said [.data (sampleBatch "x" [true]), .notYet, .newSchema (sampleBatch "x" []),
      .data (sampleBatch "x" [false])] := rfl

end BatchFlow

import Mathlib.Logic.Function.Basic
import BatchFlow.Proofs.Results
import BatchFlow.Vector.Pool

/-!
A pool whose vectors look at shared storage answers, and shows values, as one in which each vector is a
list of its own. The origins of the storage keep the vectors apart that were made new: two vectors look
at the same storage exactly if what they have came from the same one of those.
-/
namespace BatchFlow

namespace Pool

/-! What is asked of a pool. -/

inductive Request where
  | new (name : String) (field : Field) (values : List Value)
  | newFitting (name : String) (field : Field) (values : List Value)
  | clone (place source : Place)
  | slice (place source : Place) (start count : Nat)
  | transfer (source target : Place)
  | take (place source : Place)
  | clear (place : Place)
  | newSlicer (name : String) (source : Place) (field : Field)
  | sliceWith (name : String) (start count : Nat)
  | clearSlicer (name : String)

inductive Reply where
  | done
  | missing
  | refused (e : Fault)
  deriving DecidableEq

def answer (p : Pool) : Request → Answer
  | .new name field values => some (.ok (p.newVector name field values))
  | .newFitting name field values => some (p.newFitting name field values)
  | .clone place source => (p.cloneAt place source).map .ok
  | .slice place source start count => p.sliceAt place source start count
  | .transfer source target => p.transferAt source target
  | .take place source => (p.takeAt place source).map .ok
  | .clear place => (p.clearAt place).map .ok
  | .newSlicer name source field => p.newSlicerAt name source field
  | .sliceWith name start count => p.sliceWith name start count
  | .clearSlicer name => (p.clearSlicer name).map .ok

/-- The reply to a request, and the state after it, which stays as it was unless something comes of the
request. -/
def settle {σ : Type} (s : σ) : Option (Except Fault σ) → Reply × σ
  | none => (.missing, s)
  | some (.error e) => (.refused e, s)
  | some (.ok s') => (.done, s')

def serve (p : Pool) (q : Request) : Reply × Pool := settle p (p.answer q)

def run {σ : Type} (serve : σ → Request → Reply × σ) (s : σ) : List Request → List Reply × σ
  | [] => ([], s)
  | q :: qs => ((serve s q).1 :: (run serve (serve s q).2 qs).1, (run serve (serve s q).2 qs).2)

end Pool

/-! The same requests where each vector is a list of its own. -/

/-- A vector that is a list of its own. -/
structure PlainVector where
  field : Field
  values : List Value
  original : Nat

structure PlainSlicer where
  source : PlainVector
  target : PlainVector

structure PlainPool where
  made : Nat
  vectors : String → Option PlainVector
  slicers : String → Option PlainSlicer

namespace PlainVector

def emptied (l : PlainVector) (original : Nat) : PlainVector := ⟨l.field, [], original⟩

def slice (l : PlainVector) (start count : Nat) : Except Fault PlainVector :=
  if start + count ≤ l.values.length then
    .ok { l with values := (l.values.drop start).take count }
  else .error (.argument (.window start count l.field.name l.values.length))

def movedTo (l target : PlainVector) : Except Fault PlainVector :=
  if target.field.dataType = l.field.dataType then .ok { l with field := target.field }
  else .error (.ofTypes target.field.name target.field.dataType l.field.dataType)

end PlainVector

def PlainSlicer.slice (t : PlainSlicer) (start count : Nat) : Except Fault PlainSlicer :=
  (t.source.slice start count).map fun part =>
    { t with target := { part with field := t.target.field } }

namespace PlainPool

def empty : PlainPool := ⟨0, fun _ => none, fun _ => none⟩

def counting (s : PlainPool) (k : Nat) : PlainPool := { s with made := s.made + k }

def putVector (s : PlainPool) (name : String) (l : PlainVector) : PlainPool :=
  { s with vectors := Function.update s.vectors name (some l) }

def putSlicer (s : PlainPool) (name : String) (t : PlainSlicer) : PlainPool :=
  { s with slicers := Function.update s.slicers name (some t) }

def newVector (s : PlainPool) (name : String) (field : Field) (values : List Value) : PlainPool :=
  (s.counting 1).putVector name ⟨field, values, s.made⟩

def vectorAt (s : PlainPool) : Place → Option PlainVector
  | .vector name => s.vectors name
  | .target name => (s.slicers name).map PlainSlicer.target

def putAt (s : PlainPool) (l : PlainVector) : Place → Option PlainPool
  | .vector name => some (s.putVector name l)
  | .target name => (s.slicers name).map fun t => s.putSlicer name { t with target := l }

def answer (s : PlainPool) : Pool.Request → Option (Except Fault PlainPool)
  | .new name field values => some (.ok (s.newVector name field values))
  | .newFitting name field values =>
    match values.find? (fun v => !v.fits field.dataType) with
    | some v => some (.error (.ofTypes field.name field.dataType v.dataType))
    | none => some (.ok (s.newVector name field values))
  | .clone place source =>
    Option.map .ok do
      let l ← s.vectorAt source
      s.putAt l place
  | .slice place source start count => do
    let l ← s.vectorAt source
    match l.slice start count with
    | .ok part => (s.putAt part place).map .ok
    | .error e => some (.error e)
  | .transfer source target => do
    let l ← s.vectorAt source
    let t ← s.vectorAt target
    match l.movedTo t with
    | .ok moved => do
      let s' ← (s.counting 1).putAt (l.emptied s.made) source
      (s'.putAt moved target).map .ok
    | .error e => some (.error e)
  | .take place source =>
    Option.map .ok do
      let l ← s.vectorAt source
      let s' ← (s.counting 1).putAt (l.emptied s.made) source
      s'.putAt l place
  | .clear place =>
    Option.map .ok do
      let l ← s.vectorAt place
      (s.counting 1).putAt (l.emptied s.made) place
  | .newSlicer name source field =>
    (s.vectorAt source).map fun l =>
      if field.dataType = l.field.dataType then
        .ok ((s.counting 1).putSlicer name ⟨l, ⟨field, [], s.made⟩⟩)
      else .error (.ofTypes field.name field.dataType l.field.dataType)
  | .sliceWith name start count =>
    (s.slicers name).map fun t => (t.slice start count).map (s.putSlicer name)
  | .clearSlicer name =>
    Option.map .ok <| (s.slicers name).map fun t =>
      (s.counting 2).putSlicer name ⟨t.source.emptied s.made, t.target.emptied (s.made + 1)⟩

def serve (s : PlainPool) (q : Pool.Request) : Pool.Reply × PlainPool := Pool.settle s (s.answer q)

/-- Whether what is in two places came there from one vector that was made new. -/
def sameOriginal (s : PlainPool) (a b : Place) : Option Bool := do
  let l ← s.vectorAt a
  let m ← s.vectorAt b
  some (l.original = m.original)

end PlainPool

/-! Shared storage shows what the lists have. -/

/-- The vector shows the list, from storage with the origin of the list's original; `births` has the
origins of the vectors that were made new, in order. -/
structure FlatVector.Shows (births : List Nat) (v : FlatVector) (l : PlainVector) : Prop where
  field : v.field = l.field
  values : v.toList = l.values
  origin : ∃ n, births[l.original]? = some n ∧ v.window.buffer.origin = some n

structure Slicer.Shows (births : List Nat) (t : Slicer) (u : PlainSlicer) : Prop where
  source : t.source.Shows births u.source
  target : t.target.Shows births u.target

/-- Origins that were given away before `next`, to as many vectors as were made. -/
structure Births (births : List Nat) (next made : Nat) : Prop where
  distinct : births.Nodup
  earlier : ∀ n ∈ births, n < next
  counted : births.length = made

structure Pool.Shows (births : List Nat) (p : Pool) (s : PlainPool) : Prop where
  born : Births births p.nextOrigin s.made
  vectors : ∀ name, Option.Rel (FlatVector.Shows births) (p.vectors.lookup name) (s.vectors name)
  slicers : ∀ name, Option.Rel (Slicer.Shows births) (p.slicers.lookup name) (s.slicers name)

namespace FlatVector.Shows

variable {births : List Nat} {v w : FlatVector} {l m : PlainVector}

theorem mono (shown : v.Shows births l) (more : List Nat) : v.Shows (births ++ more) l := by
  obtain ⟨n, born, origin⟩ := shown.origin
  refine ⟨shown.field, shown.values, n, ?_, origin⟩
  rw [List.getElem?_append_left (List.getElem?_eq_some_iff.mp born).1, born]

theorem length_eq (shown : v.Shows births l) : v.length = l.values.length := by
  rw [← shown.values]
  exact (Window.length_toList v.window).symm

theorem slice_shows (shown : v.Shows births l) (start count : Nat) :
    Agree (FlatVector.Shows births) (v.slice start count) (l.slice start count) := by
  have length := shown.length_eq
  unfold FlatVector.slice PlainVector.slice
  by_cases inside : start + count ≤ v.window.length
  · rw [dif_pos inside, if_pos (length ▸ inside)]
    refine .ok ⟨shown.field, ?_, shown.origin⟩
    rw [FlatVector.toList, Window.toList_slice]
    exact congrArg (fun vs => (vs.drop start).take count) shown.values
  · rw [dif_neg inside, if_neg (length ▸ inside), shown.field, length]
    exact .error _

theorem transfer_shows (shown : v.Shows births l) (target : w.Shows births m) (origin : Option Nat) :
    Agree (fun r moved => r.1 = v.clear origin ∧ r.2.Shows births moved) (v.transfer w origin)
      (l.movedTo m) := by
  unfold FlatVector.transfer PlainVector.movedTo
  rw [shown.field, target.field]
  split
  · exact .ok ⟨rfl, rfl, shown.values, shown.origin⟩
  · exact .error _

theorem shares_eq (distinct : births.Nodup) (shown : v.Shows births l) (other : w.Shows births m) :
    v.shares w = decide (l.original = m.original) := by
  obtain ⟨n, born, origin⟩ := shown.origin
  obtain ⟨n', born', origin'⟩ := other.origin
  have inside : l.original < births.length := (List.getElem?_eq_some_iff.mp born).1
  have same : births[l.original]? = births[m.original]? ↔ l.original = m.original :=
    List.getElem?_inj inside distinct
  rw [born, born'] at same
  simp only [FlatVector.shares, Window.shares, origin, origin', Option.isSome_some, Bool.true_and, same]

end FlatVector.Shows

theorem Slicer.Shows.mono {births : List Nat} {t : Slicer} {u : PlainSlicer} (shown : t.Shows births u)
    (more : List Nat) : t.Shows (births ++ more) u :=
  ⟨shown.source.mono more, shown.target.mono more⟩

theorem Slicer.Shows.slice_shows {births : List Nat} {t : Slicer} {u : PlainSlicer}
    (shown : t.Shows births u) (start count : Nat) :
    Agree (Slicer.Shows births) (t.slice start count) (u.slice start count) :=
  (shown.source.slice_shows start count).agree_map fun _ _ part =>
    ⟨shown.source, shown.target.field, part.values, part.origin⟩

/-- Of the next origins, `k` go to vectors that are made new. -/
theorem Births.append_range {births : List Nat} {next made : Nat} (h : Births births next made)
    {k j : Nat} (few : k ≤ j) : Births (births ++ List.range' next k) (next + j) (made + k) where
  distinct := by
    refine List.nodup_append.mpr ⟨h.distinct, List.nodup_range', fun n old n' new same => ?_⟩
    have := h.earlier n old
    have := (List.mem_range'_1.mp new).1
    omega
  earlier n member := by
    rcases List.mem_append.mp member with old | new
    · exact Nat.lt_add_right j (h.earlier n old)
    · have := (List.mem_range'_1.mp new).2
      omega
  counted := by rw [List.length_append, List.length_range', h.counted]

theorem no_births (births : List Nat) (next : Nat) : births ++ List.range' next 0 = births :=
  List.append_nil births

theorem Births.shows_ofList {births : List Nat} {next made : Nat} (h : Births births next made)
    {i k : Nat} (inside : i < k) (field : Field) (values : List Value) :
    (FlatVector.ofList field values (some (next + i))).Shows (births ++ List.range' next k)
      ⟨field, values, made + i⟩ := by
  refine ⟨rfl, Window.toList_ofList _ _, next + i, ?_, rfl⟩
  rw [List.getElem?_append_right (by simp [h.counted]), h.counted, Nat.add_sub_cancel_left,
    List.getElem?_range' inside, Nat.one_mul]

theorem Births.shows_clear {births : List Nat} {next made : Nat} (h : Births births next made)
    {i k : Nat} (inside : i < k) {v : FlatVector} {l : PlainVector} (shown : v.Shows births l) :
    (v.clear (some (next + i))).Shows (births ++ List.range' next k) (l.emptied (made + i)) := by
  rw [FlatVector.clear, shown.field]
  exact h.shows_ofList inside l.field []

namespace Pool.Shows

variable {births : List Nat} {p : Pool} {s : PlainPool} {v : FlatVector} {l : PlainVector}
  {t : Slicer} {u : PlainSlicer} {k : Nat}

theorem vectorAt_shows (h : p.Shows births s) (place : Place) :
    Option.Rel (FlatVector.Shows births) (p.vectorAt place) (s.vectorAt place) := by
  cases place with
  | vector name => exact h.vectors name
  | target name => exact rel_map (h.slicers name) fun _ _ shown => shown.target

theorem putVector_shows (h : p.Shows births s) (few : k ≤ 1)
    (shown : v.Shows (births ++ List.range' p.nextOrigin k) l) (name : String) :
    (p.putVector name v).Shows (births ++ List.range' p.nextOrigin k)
      ((s.counting k).putVector name l) where
  born := h.born.append_range few
  vectors other := by
    simp only [Pool.putVector, PlainPool.putVector, Register.lookup_put, Function.update_apply]
    split
    · exact .some shown
    · exact rel_mono (h.vectors other) fun _ _ shown => shown.mono _
  slicers other := rel_mono (h.slicers other) fun _ _ shown => shown.mono _

theorem newVector_shows (h : p.Shows births s) (name : String) (field : Field) (values : List Value) :
    (p.newVector name field values).Shows (births ++ [p.nextOrigin]) (s.newVector name field values) :=
  h.putVector_shows (Nat.le_refl 1) (h.born.shows_ofList Nat.one_pos field values) name

theorem putSlicer_shows (h : p.Shows births s) (few : k ≤ 2)
    (shown : t.Shows (births ++ List.range' p.nextOrigin k) u) (name : String) :
    (p.putSlicer name t).Shows (births ++ List.range' p.nextOrigin k)
      ((s.counting k).putSlicer name u) where
  born := h.born.append_range few
  vectors other := rel_mono (h.vectors other) fun _ _ shown => shown.mono _
  slicers other := by
    simp only [Pool.putSlicer, PlainPool.putSlicer, Register.lookup_put, Function.update_apply]
    split
    · exact .some shown
    · exact rel_mono (h.slicers other) fun _ _ shown => shown.mono _

theorem putAt_shows (h : p.Shows births s) (few : k ≤ 1)
    (shown : v.Shows (births ++ List.range' p.nextOrigin k) l) (place : Place) :
    Option.Rel (Pool.Shows (births ++ List.range' p.nextOrigin k)) (p.putAt v place)
      ((s.counting k).putAt l place) := by
  cases place with
  | vector name => exact .some (h.putVector_shows few shown name)
  | target name =>
    refine rel_map (h.slicers name) fun t u both => ?_
    have replaced : ({ t with target := v } : Slicer).Shows (births ++ List.range' p.nextOrigin k)
        { u with target := l } := ⟨both.source.mono _, shown⟩
    exact h.putSlicer_shows (Nat.le_succ_of_le few) replaced name

theorem putAt_old (h : p.Shows births s) (shown : v.Shows births l) (place : Place) :
    Option.Rel (Pool.Shows births) (p.putAt v place) (s.putAt l place) := by
  rw [← no_births births p.nextOrigin] at shown ⊢
  exact h.putAt_shows (Nat.zero_le 1) shown place

theorem putAt_clear (h : p.Shows births s) (shown : v.Shows births l) (place : Place) :
    Option.Rel (Pool.Shows (births ++ [p.nextOrigin])) (p.putAt (v.clear p.origin) place)
      ((s.counting 1).putAt (l.emptied s.made) place) :=
  h.putAt_shows (Nat.le_refl 1) (h.born.shows_clear Nat.one_pos shown) place

/-- A pool answers as the pool of plain lists that it shows, and what it comes to shows what that
comes to. -/
theorem answer_shows (h : p.Shows births s) (q : Request) :
    Option.Rel (Agree fun p s => ∃ births, Pool.Shows births p s) (p.answer q) (s.answer q) := by
  cases q with
  | new name field values =>
    exact .some (.ok ⟨_, h.newVector_shows name field values⟩)
  | newFitting name field values =>
    simp only [Pool.answer, PlainPool.answer, newFitting, FlatVector.ofFitting]
    cases values.find? (fun v => !v.fits field.dataType) with
    | some v => exact .some (.error _)
    | none => exact .some (.ok ⟨_, h.newVector_shows name field values⟩)
  | clone place source =>
    refine rel_map (rel_bind (h.vectorAt_shows source) fun v l shown => ?_) fun _ _ shows => .ok shows
    exact rel_mono (h.putAt_old shown place) fun _ _ shows => ⟨births, shows⟩
  | slice place source start count =>
    refine rel_bind (h.vectorAt_shows source) fun v l shown => ?_
    have parts := shown.slice_shows start count
    generalize v.slice start count = x, l.slice start count = y at parts
    cases parts with
    | ok part => exact rel_map (h.putAt_old part place) fun _ _ shows => .ok ⟨births, shows⟩
    | error e => exact .some (.error e)
  | transfer source target =>
    refine rel_bind (h.vectorAt_shows source) fun v l shown => ?_
    refine rel_bind (h.vectorAt_shows target) fun w m there => ?_
    have parts := shown.transfer_shows there p.origin
    generalize v.transfer w p.origin = x, l.movedTo m = y at parts
    cases parts with
    | ok both =>
      dsimp only
      rw [both.1]
      -- The origin for what is left behind is born before the storage moves on.
      refine rel_bind (h.putAt_clear shown source) fun _ _ shows => ?_
      exact rel_map (shows.putAt_old (both.2.mono _) target) fun _ _ shows => .ok ⟨_, shows⟩
    | error e => exact .some (.error e)
  | take place source =>
    refine rel_map (rel_bind (h.vectorAt_shows source) fun v l shown => ?_) fun _ _ shows => .ok shows
    refine rel_bind (h.putAt_clear shown source) fun _ _ shows => ?_
    exact rel_mono (shows.putAt_old (shown.mono _) place) fun _ _ shows => ⟨_, shows⟩
  | clear place =>
    refine rel_map (rel_bind (h.vectorAt_shows place) fun v l shown => ?_) fun _ _ shows => .ok shows
    exact rel_mono (h.putAt_clear shown place) fun _ _ shows => ⟨_, shows⟩
  | newSlicer name source field =>
    refine rel_map (h.vectorAt_shows source) fun v l shown => ?_
    rw [Slicer.ofSource, shown.field]
    split
    · have target := h.born.shows_ofList Nat.one_pos field []
      exact .ok ⟨_, h.putSlicer_shows (Nat.le_succ 1) ⟨shown.mono _, target⟩ name⟩
    · exact .error _
  | sliceWith name start count =>
    refine rel_map (h.slicers name) fun t u both => ?_
    refine (both.slice_shows start count).agree_map fun _ _ both => ⟨births, ?_⟩
    rw [← no_births births p.nextOrigin] at both ⊢
    exact h.putSlicer_shows (Nat.zero_le 2) both name
  | clearSlicer name =>
    refine rel_map (rel_map (h.slicers name) fun t u both => ?_) fun _ _ shows => .ok shows
    have emptied : (t.clear p.origin p.secondOrigin).Shows (births ++ List.range' p.nextOrigin 2)
        ⟨u.source.emptied s.made, u.target.emptied (s.made + 1)⟩ :=
      ⟨h.born.shows_clear Nat.two_pos both.source, h.born.shows_clear Nat.one_lt_two both.target⟩
    exact ⟨_, h.putSlicer_shows (Nat.le_refl 2) emptied name⟩

theorem serve_shows (h : p.Shows births s) (q : Request) :
    (p.serve q).1 = (s.serve q).1 ∧ ∃ births, (p.serve q).2.Shows births (s.serve q).2 := by
  unfold Pool.serve PlainPool.serve
  match p.answer q, s.answer q, h.answer_shows q with
  | _, _, .none => exact ⟨rfl, births, h⟩
  | _, _, .some (.error e) => exact ⟨rfl, births, h⟩
  | _, _, .some (.ok shows) => exact ⟨rfl, shows⟩

theorem run_shows (h : p.Shows births s) (qs : List Request) :
    (Pool.run Pool.serve p qs).1 = (Pool.run PlainPool.serve s qs).1 ∧
      ∃ births, (Pool.run Pool.serve p qs).2.Shows births (Pool.run PlainPool.serve s qs).2 := by
  induction qs generalizing p s births with
  | nil => exact ⟨rfl, births, h⟩
  | cons q qs ih =>
    obtain ⟨reply, births, shows⟩ := h.serve_shows q
    obtain ⟨replies, later⟩ := ih shows
    exact ⟨congrArg₂ List.cons reply replies, later⟩

theorem sharesAt_eq (h : p.Shows births s) (a b : Place) : p.sharesAt a b = s.sameOriginal a b := by
  unfold Pool.sharesAt PlainPool.sameOriginal
  match p.vectorAt a, s.vectorAt a, h.vectorAt_shows a with
  | _, _, .none => rfl
  | _, _, .some shown =>
    match p.vectorAt b, s.vectorAt b, h.vectorAt_shows b with
    | _, _, .none => rfl
    | _, _, .some other => exact congrArg some (shown.shares_eq h.born.distinct other)

theorem empty_shows : Pool.empty.Shows [] PlainPool.empty where
  born := ⟨.nil, fun _ member => absurd member List.not_mem_nil, rfl⟩
  vectors _ := .none
  slicers _ := .none

end Pool.Shows

namespace Pool

theorem serve_of_refused {p : Pool} {q : Request} (refused : (p.serve q).1 ≠ .done) :
    (p.serve q).2 = p := by
  unfold serve at refused ⊢
  match p.answer q, refused with
  | none, _ | some (.error _), _ => rfl
  | some (.ok _), refused => exact (refused rfl).elim

/-- Whatever is asked of a pool, it replies, and its vectors show the fields and values, as where each
vector is a list of its own. No window reaches past its buffer, part of a vector can be had exactly if
it ends where the vector does or before, and a request that is refused changes nothing. Two vectors
look at the same storage exactly if what they have came from one vector that was made new. -/
theorem vectors_are_lists (qs : List Request) :
    let p := (run serve empty qs).2
    let plain := (run PlainPool.serve .empty qs).2
    (run serve empty qs).1 = (run PlainPool.serve .empty qs).1 ∧
    (∀ place, (p.vectorAt place).map (fun v => (v.field, v.toList)) =
      (plain.vectorAt place).map fun l => (l.field, l.values)) ∧
    (∀ place v, p.vectorAt place = some v →
      v.window.offset + v.window.length ≤ v.window.buffer.items.size ∧
      v.toList.length = v.length ∧ (∀ i, v.get? i = v.toList[i]?) ∧
      ∀ name start count,
        (p.serve (.slice (.vector name) place start count)).1 = .done ↔ start + count ≤ v.length) ∧
    (∀ name t, p.slicers.lookup name = some t →
      t.source.window.offset + t.source.window.length ≤ t.source.window.buffer.items.size ∧
      ∀ start count,
        (p.serve (.sliceWith name start count)).1 = .done ↔ start + count ≤ t.source.length) ∧
    (∀ a b, p.sharesAt a b = plain.sameOriginal a b) ∧
    ∀ q, (p.serve q).1 ≠ .done → (p.serve q).2 = p := by
  intro p plain
  obtain ⟨replies, births, shows⟩ := Shows.empty_shows.run_shows qs
  refine ⟨replies, fun place => ?values, fun place v there => ⟨v.window.inside, ?length, ?get, ?slice⟩,
    fun name t there => ⟨t.source.window.inside, ?sliceWith⟩, shows.sharesAt_eq,
    fun q => serve_of_refused⟩
  case values =>
    match p.vectorAt place, plain.vectorAt place, shows.vectorAt_shows place with
    | _, _, .none => rfl
    | _, _, .some shown => exact congrArg some (Prod.ext shown.field shown.values)
  case length => exact Window.length_toList v.window
  case get => exact fun i => (Window.getElem?_toList v.window i).symm
  case slice =>
    intro name start count
    unfold serve answer sliceAt FlatVector.slice
    by_cases inside : start + count ≤ v.window.length <;>
      simp [there, inside, settle, putAt, FlatVector.length]
  case sliceWith =>
    intro start count
    unfold serve answer sliceWith Slicer.slice FlatVector.slice
    by_cases inside : start + count ≤ t.source.window.length <;>
      simp [there, inside, settle, FlatVector.length, Except.map, pure, Except.pure, bind, Except.bind]

/-- A part of a part, and one that would end past it. The smaller part's end comes into the place of the
larger one by way of a slicer, and the vector they are cut from is emptied. -/
theorem parts_share :
    let f : Field := ⟨"x", .text, true⟩
    let letters : List Value := [.text "a", .text "b", .text "c", .text "d"]
    let qs : List Request :=
      [.new "all" f letters, .slice (.vector "larger") (.vector "all") 1 3,
        .slice (.vector "smaller") (.vector "larger") 1 2,
        .slice (.vector "none") (.vector "smaller") 1 2, .newSlicer "ends" (.vector "smaller") f,
        .sliceWith "ends" 1 1, .transfer (.target "ends") (.vector "larger"), .clear (.vector "all")]
    let p := (run serve empty qs).2
    (run serve empty qs).1 =
        [.done, .done, .done, .refused (.argument (.window 1 2 "x" 2)), .done, .done, .done, .done] ∧
      (p.vectorAt (.vector "larger")).map (fun v => (v.field, v.toList)) = some (f, [.text "d"]) ∧
      p.sharesAt (.vector "larger") (.vector "smaller") = some true ∧
      p.sharesAt (.target "ends") (.vector "smaller") = some false ∧
      p.sharesAt (.vector "all") (.vector "smaller") = some false := by
  intro f letters qs p
  obtain ⟨replies, values, -, -, shares, -⟩ := vectors_are_lists qs
  exact ⟨replies.trans rfl, (values _).trans rfl, (shares _ _).trans rfl, (shares _ _).trans rfl,
    (shares _ _).trans rfl⟩

end Pool
end BatchFlow

import BatchFlow.Vector.Column

/-!
Pools of named flat vectors, slicers, list vectors and columns. Every storage that an operation
makes new gets an origin of its own, so `shares` tells which vectors look at the same storage. An
operation that names a missing vector answers `none`, and one that fails leaves the pool alone.
-/
namespace BatchFlow

/-- Named entries, in the order in which the names first came up. -/
abbrev Register (α : Type) := List (String × α)

namespace Register

/-- Puts an entry in place of the one of that name, or at the end. -/
def put {α : Type} (r : Register α) (name : String) (a : α) : Register α :=
  if (r.lookup name).isSome then r.map fun (n, b) => if n = name then (n, a) else (n, b)
  else r ++ [(name, a)]

variable {α : Type} (r : Register α) (name other : String) (a : α)

theorem lookup_cons_of_ne {n : String} (differ : other ≠ n) (b : α) :
    List.lookup other ((n, b) :: r) = r.lookup other := by
  rw [List.lookup_cons, beq_eq_false_iff_ne.mpr differ]

theorem lookup_replace :
    List.lookup other (r.map fun (n, b) => if n = name then (n, a) else (n, b)) =
      if other = name then (r.lookup name).map fun _ => a else r.lookup other := by
  induction r with
  | nil => simp
  | cons entry r ih =>
    obtain ⟨n, b⟩ := entry
    rw [List.map_cons]
    by_cases asked : other = n
    · subst asked
      by_cases replaced : other = name <;> simp [replaced]
    · by_cases replaced : n = name
      · subst replaced
        simp only [if_pos, lookup_cons_of_ne _ _ asked, ih, if_neg asked]
      · simp only [if_neg replaced, lookup_cons_of_ne _ _ asked, ih,
          lookup_cons_of_ne _ _ (Ne.symm replaced)]

theorem lookup_put :
    (r.put name a).lookup other = if other = name then some a else r.lookup other := by
  unfold put
  split
  next there =>
    obtain ⟨b, found⟩ := Option.isSome_iff_exists.mp there
    rw [lookup_replace, found, Option.map_some]
  next missing =>
    rw [List.lookup_append]
    by_cases asked : other = name
    · subst asked
      simp [Option.not_isSome_iff_eq_none.mp missing]
    · rw [lookup_cons_of_ne _ _ asked, List.lookup_nil, Option.or_none, if_neg asked]

end Register

/-- Where a flat vector stands: under a name of its own, or as the target of a slicer. -/
inductive Place where
  | vector (name : String)
  | target (slicer : String)

structure Pool where
  nextOrigin : Nat
  vectors : Register FlatVector
  slicers : Register Slicer
  lists : Register ListVector
  columns : Register Column

namespace Pool

def empty : Pool := ⟨0, [], [], [], []⟩

abbrev Answer := Option (Except Fault Pool)

def origin (p : Pool) : Option Nat := some p.nextOrigin
def secondOrigin (p : Pool) : Option Nat := some (p.nextOrigin + 1)

def putVector (p : Pool) (name : String) (v : FlatVector) : Pool :=
  { p with vectors := p.vectors.put name v, nextOrigin := p.nextOrigin + 1 }

def putSlicer (p : Pool) (name : String) (v : Slicer) : Pool :=
  { p with slicers := p.slicers.put name v, nextOrigin := p.nextOrigin + 2 }

def putListVector (p : Pool) (name : String) (v : ListVector) : Pool :=
  { p with lists := p.lists.put name v, nextOrigin := p.nextOrigin + 1 }

def putColumn (p : Pool) (name : String) (c : Column) : Pool :=
  { p with columns := p.columns.put name c, nextOrigin := p.nextOrigin + 1 }

/-! Flat vectors, under names of their own or as targets of slicers. -/

def newVector (p : Pool) (name : String) (field : Field) (values : List Value) : Pool :=
  p.putVector name (.ofList field values p.origin)

def newFitting (p : Pool) (name : String) (field : Field) (values : List Value) :
    Except Fault Pool :=
  (FlatVector.ofFitting field values p.origin).map (p.putVector name)

def vectorAt (p : Pool) : Place → Option FlatVector
  | .vector name => p.vectors.lookup name
  | .target name => (p.slicers.lookup name).map Slicer.target

/-- Puts a vector in a place; there is no target without its slicer. -/
def putAt (p : Pool) (v : FlatVector) : Place → Option Pool
  | .vector name => some (p.putVector name v)
  | .target name => (p.slicers.lookup name).map fun t => p.putSlicer name { t with target := v }

def cloneAt (p : Pool) (place source : Place) : Option Pool := do
  let v ← p.vectorAt source
  p.putAt v place

def sliceAt (p : Pool) (place source : Place) (start count : Nat) : Answer := do
  let v ← p.vectorAt source
  match v.slice start count with
  | .ok part => (p.putAt part place).map .ok
  | .error e => some (.error e)

def transferAt (p : Pool) (source target : Place) : Answer := do
  let v ← p.vectorAt source
  let t ← p.vectorAt target
  match v.transfer t p.origin with
  | .ok (left, moved) => do
    let p ← p.putAt left source
    (p.putAt moved target).map .ok
  | .error e => some (.error e)

/-- Moves a vector to another place; an empty one of its field stays. -/
def takeAt (p : Pool) (place source : Place) : Option Pool := do
  let v ← p.vectorAt source
  let (taken, left) := v.take p.origin
  let p ← p.putAt left source
  p.putAt taken place

def clearAt (p : Pool) (place : Place) : Option Pool := do
  let v ← p.vectorAt place
  p.putAt (v.clear p.origin) place

def sharesAt (p : Pool) (a b : Place) : Option Bool := do
  let v ← p.vectorAt a
  let w ← p.vectorAt b
  some (v.shares w)

def cloneVector (p : Pool) (name source : String) : Option Pool :=
  p.cloneAt (.vector name) (.vector source)

def sliceVector (p : Pool) (name source : String) (start count : Nat) : Answer :=
  p.sliceAt (.vector name) (.vector source) start count

def transferVector (p : Pool) (source target : String) : Answer :=
  p.transferAt (.vector source) (.vector target)

def takeVector (p : Pool) (name source : String) : Option Pool :=
  p.takeAt (.vector name) (.vector source)

def clearVector (p : Pool) (name : String) : Option Pool := p.clearAt (.vector name)

def sharesVector (p : Pool) (a b : String) : Option Bool := p.sharesAt (.vector a) (.vector b)

/-! Slicers. -/

def newSlicerAt (p : Pool) (name : String) (source : Place) (field : Field) : Answer :=
  (p.vectorAt source).map fun v =>
    (Slicer.ofSource v field p.origin).map (p.putSlicer name)

def newSlicer (p : Pool) (name source : String) (field : Field) : Answer :=
  p.newSlicerAt name (.vector source) field

def sliceWith (p : Pool) (name : String) (start count : Nat) : Answer :=
  (p.slicers.lookup name).map fun t => (t.slice start count).map (p.putSlicer name)

def transferSlice (p : Pool) (name target : String) : Answer :=
  p.transferAt (.target name) (.vector target)

def sharesSlice (p : Pool) (name vector : String) : Option Bool :=
  p.sharesAt (.target name) (.vector vector)

def clearSlicer (p : Pool) (name : String) : Option Pool :=
  (p.slicers.lookup name).map fun t => p.putSlicer name (t.clear p.origin p.secondOrigin)

/-! List vectors. -/

def newListVector (p : Pool) (name : String) (field : Field) (offsets : List Nat) (inner : String) :
    Answer :=
  (p.vectors.lookup inner).map fun v =>
    (ListVector.ofOffsets field offsets v).map (p.putListVector name)

def newOfLists (p : Pool) (name : String) (field : Field) (lists : List (List Value)) :
    Except Fault Pool :=
  (ListVector.ofLists field lists p.origin).map (p.putListVector name)

def emptyListVector (p : Pool) (name : String) (field : Field) : Pool :=
  p.putListVector name (.empty field p.origin)

def innerVector (p : Pool) (name source : String) : Option Pool :=
  (p.lists.lookup source).map fun v => p.putVector name v.inner

def takeListVector (p : Pool) (name source : String) : Option Pool :=
  (p.lists.lookup source).map fun v =>
    let (taken, left) := v.take p.origin
    (p.putListVector source left).putListVector name taken

def clearListVector (p : Pool) (name : String) : Option Pool :=
  (p.lists.lookup name).map fun v => p.putListVector name (v.clear p.origin)

/-! Columns. -/

def newColumn (p : Pool) (name : String) (field : Field) (values : List Value) :
    Except Fault Pool :=
  (Column.ofValues field values p.origin).map (p.putColumn name)

def emptyColumn (p : Pool) (name : String) (field : Field) : Pool :=
  p.putColumn name (.empty field p.origin)

def listsOfColumn (p : Pool) (name source : String) : Answer :=
  (p.columns.lookup source).map fun c => c.asLists.map (p.putListVector name)

def takeColumn (p : Pool) (name source : String) : Option Pool :=
  (p.columns.lookup source).map fun c =>
    let (taken, left) := c.take p.origin
    (p.putColumn source left).putColumn name taken

def clearColumn (p : Pool) (name : String) : Option Pool :=
  (p.columns.lookup name).map fun c => p.putColumn name (c.clear p.origin)

end Pool
end BatchFlow

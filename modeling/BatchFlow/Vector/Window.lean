import BatchFlow.Value.Basic

/-!
Windows on shared storage. Several windows may look at one buffer; `Window.toList` is what each of
them shows, and its operations are those of lists.
-/
namespace BatchFlow

/-- Values, and the vector for which they were first stored, where that is kept track of. -/
structure Buffer where
  origin : Option Nat
  items : Array Value

structure Window where
  buffer : Buffer
  offset : Nat
  length : Nat
  inside : offset + length ≤ buffer.items.size

namespace Window

def ofList (origin : Option Nat) (values : List Value) : Window :=
  ⟨⟨origin, values.toArray⟩, 0, values.length, by simp⟩

def empty (origin : Option Nat) : Window := ofList origin []

def toList (w : Window) : List Value :=
  (w.buffer.items.extract w.offset (w.offset + w.length)).toList

def get? (w : Window) (i : Nat) : Option Value :=
  if i < w.length then w.buffer.items[w.offset + i]? else none

def slice (w : Window) (start count : Nat) (h : start + count ≤ w.length) : Window :=
  ⟨w.buffer, w.offset + start, count, by have := w.inside; omega⟩

def shares (v w : Window) : Bool := v.buffer.origin.isSome && v.buffer.origin = w.buffer.origin

@[simp] theorem toList_ofList (origin : Option Nat) (values : List Value) :
    (ofList origin values).toList = values := by
  simp [ofList, toList]

@[simp] theorem toList_empty (origin : Option Nat) : (empty origin).toList = [] := by
  simp [empty]

@[simp] theorem length_toList (w : Window) : w.toList.length = w.length := by
  have := w.inside
  simp only [toList, Array.length_toList, Array.size_extract]
  omega

@[simp] theorem toList_slice (w : Window) (start count : Nat) (h : start + count ≤ w.length) :
    (w.slice start count h).toList = (w.toList.drop start).take count := by
  have := w.inside
  apply List.ext_getElem?
  intro i
  simp only [slice, toList, Array.toList_extract, List.extract_eq_take_drop, List.getElem?_take,
    List.getElem?_drop]
  grind

@[simp] theorem getElem?_toList (w : Window) (i : Nat) : w.toList[i]? = w.get? i := by
  have := w.inside
  simp only [toList, get?, Array.getElem?_toList, Array.getElem?_extract]
  grind

end Window
end BatchFlow

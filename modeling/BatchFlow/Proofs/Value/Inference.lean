import BatchFlow.Proofs.Expr.Typing

/-!
The type that is inferred for a value against the types that the value fits. The inferred type is taken
from first elements. If they lead to a value that is no list, it is the only type that the value fits.
If they lead to a list that says nothing of its elements, text is taken for these, and the value fits
only if nothing but text lies as deep anywhere in it.
-/
namespace BatchFlow

namespace DataType

def nest : Nat → DataType → DataType
  | 0, t => t
  | k + 1, t => array (nest k t)

/-- How many arrays deep the innermost elements lie. -/
def depth : DataType → Nat
  | array t => t.depth + 1
  | _ => 0

theorem depth_nest_text (k : Nat) : (nest k text).depth = k := by
  induction k with
  | zero => rfl
  | succ k ih => simp [nest, depth, ih]

end DataType

namespace Value

mutual

/-- Whether its first element that is not NULL, that one's first, and so on, are at last a value that
is no list. -/
def leads : Value → Bool
  | null => false
  | list items => firstLeads items
  | _ => true

def firstLeads : List Value → Bool
  | [] => false
  | v :: vs => if v.isNull then firstLeads vs else v.leads

end

def under : Nat → Value → List Value
  | 0, v => [v]
  | k + 1, list items => items.flatMap (under k)
  | _ + 1, _ => []

/-- The first elements tell the type: they lead to a value that is no list, or only text lies where
they end. -/
def TypedByFirst (v : Value) : Prop :=
  v.leads = true ∨ ∀ x ∈ v.under v.dataType.depth, x = null ∨ ∃ s, x = text s

variable {v : Value} {t u : DataType}

theorem fits_text_iff {x : Value} : x.fits .text = true ↔ x = null ∨ ∃ s, x = text s := by
  cases x <;> simp [fits, dataType?]

/-- Of two types with as many arrays around them, a value that fits one fits the other if the values
under so many lists do. -/
theorem fits_nest {k : Nat} (fit : v.fits (.nest k u) = true) :
    v.fits (.nest k t) = true ↔ ∀ x ∈ v.under k, x.fits t = true := by
  induction k generalizing v with
  | zero => simp [under, DataType.nest]
  | succ k ih =>
    cases v with
    | null => simp [under]
    | list items =>
      have each : ∀ i ∈ items, i.fits (.nest k u) = true := by
        simpa [DataType.nest, fits, allFit_eq_all] using fit
      simp only [DataType.nest, fits, allFit_eq_all, List.all_eq_true, under, List.mem_flatMap]
      constructor
      · rintro fitting x ⟨i, member, there⟩
        exact (ih (each i member)).mp (fitting i member) x there
      · intro below i member
        exact (ih (each i member)).mpr fun x there => below x ⟨i, member, there⟩
    | _ => simp [DataType.nest, fits, dataType?] at fit

/-- What the first elements say of the only type or of all types that a value fits. -/
inductive Infers (inferred u : DataType) : Bool → Prop
  -- They lead to a value of that type.
  | decided (same : inferred = u) : Infers inferred u true
  -- They tell how many arrays are around the type, and text is taken for it.
  | undecided (k : Nat) (t : DataType) (known : u = .nest k t) (taken : inferred = .nest k .text) :
      Infers inferred u false

theorem Infers.infers_array {lead : Bool} (infers : Infers t u lead) :
    Infers (.array t) (.array u) lead := by
  cases infers with
  | decided same => exact .decided (congrArg DataType.array same)
  | undecided k w known taken =>
    exact .undecided (k + 1) w (congrArg DataType.array known) (congrArg DataType.array taken)

theorem dataType?_eq_some (some : v ≠ null) : v.dataType? = .some v.dataType := by
  cases v with
  | null => exact absurd rfl some
  | _ => rfl

theorem elementType?_null (vs : List Value) : elementType? (null :: vs) = elementType? vs := by
  simp [elementType?, dataType?]

theorem firstLeads_cons (some : v ≠ null) (vs : List Value) : firstLeads (v :: vs) = v.leads := by
  cases v with
  | null => exact absurd rfl some
  | _ => rfl

mutual

theorem infers_dataType : ∀ (v : Value) (u : DataType), v.fits u = true →
    Infers v.dataType u v.leads
  | null, u, _ => .undecided 0 u rfl rfl
  | list items, u, fit => by
    obtain ⟨t, rfl, each⟩ := fits_list.mp fit
    exact (infers_elementType items t each).infers_array
  | boolean b, u, fit => .decided ((fits_boolean b).mp fit).symm
  | integer _ n, u, fit => .decided ((fits_integer n).mp fit).symm
  | floating _ x, u, fit => .decided ((fits_floating x).mp fit).symm
  | text s, u, fit => .decided ((fits_text s).mp fit).symm

theorem infers_elementType : ∀ (vs : List Value) (u : DataType), allFit vs u = true →
    Infers ((elementType? vs).getD .text) u (firstLeads vs)
  | [], u, _ => .undecided 0 u rfl rfl
  | v :: vs, u, fit => by
    simp only [allFit, Bool.and_eq_true] at fit
    by_cases missing : v = null
    · subst missing
      rw [elementType?_null]
      exact infers_elementType vs u fit.2
    · rw [elementType?, dataType?_eq_some missing, Option.some_or, Option.getD_some,
        firstLeads_cons missing]
      exact infers_dataType v u fit.1

end

/-- A value that fits some type fits the inferred one exactly if its first elements tell the type. -/
theorem fits_inferred_iff (typed : v.fits u = true) :
    v.fits v.dataType = true ↔ v.TypedByFirst := by
  have infers := infers_dataType v u typed
  rw [TypedByFirst]
  cases lead : v.leads with
  | true =>
    rw [lead] at infers
    obtain ⟨same⟩ := infers
    exact iff_of_true (same ▸ typed) (.inl rfl)
  | false =>
    rw [lead] at infers
    obtain _ | ⟨k, t, rfl, taken⟩ := infers
    rw [taken, DataType.depth_nest_text, fits_nest typed]
    simp only [fits_text_iff, Bool.false_eq_true, false_or]

/-- A value that fits some type fits the type that is inferred for it, and can be stored in a column of
the type that its literal is given, exactly if its first elements tell the type. -/
theorem literal_storable_iff (typed : v.fits u = true) :
    (∀ t, v.dataType? = some t → (v.fits t = true ↔ v.TypedByFirst)) ∧
      ∀ s t name nullable origin, (Expr.literal v).dataType s = .ok t →
        ((∃ c, Column.ofValues ⟨name, t, nullable⟩ [v] origin = .ok c) ↔ v.TypedByFirst) := by
  constructor
  · intro t inferred
    have same : v.dataType = t := by rw [dataType, inferred, Option.getD_some]
    rw [← same]
    exact fits_inferred_iff typed
  · intro s t name nullable origin declared
    obtain rfl : v.dataType = t := Except.ok.inj declared
    rw [Column.ofValues_iff, ← fits_inferred_iff typed]
    simp

/-- A list whose first element is NULL, the second an empty list, and the third a list of a text. -/
theorem texts_storable :
    let v := list [null, list [], list [null, text "a"]]
    v.fits (.array (.array .text)) = true ∧
      ∃ c, Column.ofValues ⟨"a", .array (.array .text), true⟩ [v] none = .ok c := by
  intro v
  have typed : v.fits (.array (.array .text)) = true := by decide
  have texts : v.TypedByFirst := by
    refine .inr fun x deep => ?_
    have member : x ∈ [null, text "a"] := deep
    rw [List.mem_pair] at member
    exact member.imp_right fun same => ⟨"a", same⟩
  exact ⟨typed, ((literal_storable_iff typed).2 ⟨[]⟩ _ "a" true none rfl).mpr texts⟩

/-- For an empty list before a list of truth values the type of lists of lists of text is inferred, and
the value does not fit it. -/
theorem empty_first_misleads :
    ¬∀ v t u, fits v u = true → v.dataType? = some t → v.fits t = true := by
  intro sound
  have unfit : (list [list [], list [boolean true]]).fits (.array (.array .text)) = false := by decide
  have fit := sound (list [list [], list [boolean true]]) (.array (.array .text))
    (.array (.array .boolean)) (by decide) rfl
  rw [unfit] at fit
  cases fit

end Value
end BatchFlow

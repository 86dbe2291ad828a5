import Mathlib.Data.List.Forall2

/-! Results of functions that may fail, taken apart: when a sequence of them gives a value, and what
each member gave. -/
namespace BatchFlow

variable {α β ε : Type}

theorem bind_eq_ok {x : Except ε α} {f : α → Except ε β} {b : β} :
    (x >>= f) = .ok b ↔ ∃ a, x = .ok a ∧ f a = .ok b := by
  cases x <;> simp [bind, Except.bind]

theorem map_eq_ok {x : Except ε α} {f : α → β} {b : β} :
    x.map f = .ok b ↔ ∃ a, x = .ok a ∧ f a = b := by
  cases x <;> simp [Except.map]

theorem exists_ok_of_any {x : Except ε α} {p : α → Bool} (holds : x.toOption.any p = true) :
    ∃ a, x = .ok a ∧ p a = true := by
  cases x with
  | error e => cases holds
  | ok a => exact ⟨a, rfl, holds⟩

theorem mapError_eq_ok {ε' : Type} {x : Except ε α} {f : ε → ε'} {a : α} :
    x.mapError f = .ok a ↔ x = .ok a := by
  cases x <;> simp [Except.mapError]

@[simp] theorem pure_eq_ok {a b : α} : (pure a : Except ε α) = .ok b ↔ a = b := by
  simp [pure, Except.pure]

theorem mapM_cons_eq_ok {f : α → Except ε β} {x : α} {xs : List α} {ys : List β} :
    (x :: xs).mapM f = .ok ys ↔
      ∃ y rest, f x = .ok y ∧ xs.mapM f = .ok rest ∧ ys = y :: rest := by
  rw [List.mapM_cons]
  cases f x <;> cases xs.mapM f <;> simp [bind, Except.bind, pure, Except.pure, eq_comm]

theorem exists_right_of_mem {R : α → β → Prop} {xs : List α} {ys : List β}
    (each : List.Forall₂ R xs ys) {x : α} (member : x ∈ xs) : ∃ y ∈ ys, R x y := by
  induction each with
  | nil => cases member
  | cons first _ ih =>
    rcases List.mem_cons.mp member with rfl | later
    · exact ⟨_, List.mem_cons_self, first⟩
    · obtain ⟨y, there, related⟩ := ih later
      exact ⟨y, List.mem_cons_of_mem _ there, related⟩

theorem exists_left_of_mem {R : α → β → Prop} {xs : List α} {ys : List β}
    (each : List.Forall₂ R xs ys) {y : β} (member : y ∈ ys) : ∃ x ∈ xs, R x y :=
  exists_right_of_mem each.flip member

theorem rel_of_getElem? {R : α → β → Prop} {xs : List α} {ys : List β} (each : List.Forall₂ R xs ys)
    {i : Nat} {x : α} {y : β} (left : xs[i]? = some x) (right : ys[i]? = some y) : R x y := by
  obtain ⟨inLeft, rfl⟩ := List.getElem?_eq_some_iff.mp left
  obtain ⟨inRight, rfl⟩ := List.getElem?_eq_some_iff.mp right
  exact (List.forall₂_iff_get.mp each).2 i inLeft inRight

theorem exists_left_of_getElem? {R : α → β → Prop} {xs : List α} {ys : List β}
    (each : List.Forall₂ R xs ys) {i : Nat} {y : β} (there : ys[i]? = some y) :
    ∃ x, xs[i]? = some x ∧ R x y := by
  have inside : i < xs.length := each.length_eq ▸ (List.getElem?_eq_some_iff.mp there).1
  have here : xs[i]? = some xs[i] := List.getElem?_eq_getElem inside
  exact ⟨xs[i], here, rel_of_getElem? each here there⟩

theorem forall₂_comp {γ : Type} {R : α → β → Prop} {S : β → γ → Prop} {xs : List α} {ys : List β}
    {zs : List γ} (first : List.Forall₂ R xs ys) (second : List.Forall₂ S ys zs) :
    List.Forall₂ (fun x z => ∃ y, R x y ∧ S y z) xs zs := by
  induction first generalizing zs with
  | nil =>
    cases second
    exact .nil
  | cons here _ ih =>
    obtain _ | ⟨there, others⟩ := second
    exact .cons ⟨_, here, there⟩ (ih others)

theorem map_eq_map_of_forall₂ {γ : Type} {f : α → γ} {g : β → γ} {xs : List α} {ys : List β}
    (each : List.Forall₂ (fun x y => f x = g y) xs ys) : xs.map f = ys.map g := by
  induction each with
  | nil => rfl
  | cons here _ ih => rw [List.map_cons, List.map_cons, here, ih]

theorem forall₂_of_zip {γ : Type} {R : α → β → Prop} {S : α × β → γ → Prop} {xs : List α}
    {ys : List β} {zs : List γ} (pairs : List.Forall₂ R xs ys)
    (related : List.Forall₂ S (xs.zip ys) zs) :
    List.Forall₂ (fun y z => ∃ x, R x y ∧ S (x, y) z) ys zs := by
  induction pairs generalizing zs with
  | nil =>
    cases related
    exact .nil
  | cons here _ ih =>
    obtain _ | ⟨there, others⟩ := related
    exact .cons ⟨_, here, there⟩ (ih others)

/-- A list is answered as a whole exactly if each member is. -/
theorem mapM_eq_ok {f : α → Except ε β} {xs : List α} {ys : List β} :
    xs.mapM f = .ok ys ↔ List.Forall₂ (fun x y => f x = .ok y) xs ys := by
  induction xs generalizing ys with
  | nil => cases ys <;> simp
  | cons x xs ih =>
    rw [mapM_cons_eq_ok]
    constructor
    · rintro ⟨y, rest, first, others, rfl⟩
      exact .cons first (ih.mp others)
    · rintro (_ | ⟨first, others⟩)
      exact ⟨_, _, first, ih.mpr others, rfl⟩

theorem mapM_id_eq_ok {xs : List (Except ε α)} {ys : List α} :
    xs.mapM id = .ok ys ↔ xs = ys.map .ok := by
  rw [mapM_eq_ok]
  constructor
  · intro each
    have same : xs.map id = ys.map .ok := map_eq_map_of_forall₂ each
    rwa [List.map_id] at same
  · rintro rfl
    rw [List.forall₂_map_left_iff]
    exact List.forall₂_same.mpr fun _ _ => rfl

theorem exists_mapM_ok {f : α → Except ε β} {xs : List α} (each : ∀ x ∈ xs, ∃ y, f x = .ok y) :
    ∃ ys, xs.mapM f = .ok ys := by
  induction xs with
  | nil => exact ⟨[], rfl⟩
  | cons x xs ih =>
    obtain ⟨y, first⟩ := each x List.mem_cons_self
    obtain ⟨ys, others⟩ := ih fun x member => each x (List.mem_cons_of_mem _ member)
    exact ⟨y :: ys, mapM_cons_eq_ok.mpr ⟨y, ys, first, others, rfl⟩⟩

theorem mapM_append_eq_ok {f : α → Except ε β} {xs xs' : List α} {ys : List β} :
    (xs ++ xs').mapM f = .ok ys ↔
      ∃ zs zs', xs.mapM f = .ok zs ∧ xs'.mapM f = .ok zs' ∧ ys = zs ++ zs' := by
  rw [List.mapM_append]
  cases xs.mapM f <;> cases xs'.mapM f <;> simp [bind, Except.bind, pure, Except.pure, eq_comm]

theorem option_mapM_eq_some {f : α → Option β} {xs : List α} {ys : List β}
    (each : List.Forall₂ (fun x y => f x = some y) xs ys) : xs.mapM f = some ys := by
  induction each with
  | nil => rfl
  | cons first _ ih => simp [List.mapM_cons, first, ih]

/-! When such a function refuses, and what for. -/

theorem bind_eq_error {x : Except ε α} {f : α → Except ε β} {e : ε} :
    (x >>= f) = .error e ↔ x = .error e ∨ ∃ a, x = .ok a ∧ f a = .error e := by
  cases x <;> simp [bind, Except.bind]

theorem mapError_eq_error {ε' : Type} {x : Except ε α} {f : ε → ε'} {e : ε'} :
    x.mapError f = .error e ↔ ∃ e', x = .error e' ∧ f e' = e := by
  cases x <;> simp [Except.mapError]

/-- A list is refused for one of its members. -/
theorem mapM_eq_error {f : α → Except ε β} {xs : List α} {e : ε} (h : xs.mapM f = .error e) :
    ∃ x ∈ xs, f x = .error e := by
  induction xs with
  | nil => cases h
  | cons x xs ih =>
    rw [List.mapM_cons, bind_eq_error] at h
    rcases h with first | ⟨y, -, others⟩
    · exact ⟨x, List.mem_cons_self, first⟩
    · rcases bind_eq_error.mp others with others | ⟨_, _, none⟩
      · obtain ⟨x', member, failed⟩ := ih others
        exact ⟨x', List.mem_cons_of_mem x member, failed⟩
      · cases none

/-! Results that are related. -/

/-- Both fail in the same way, or they come to values that are related. -/
inductive Agree {γ δ : Type} (R : γ → δ → Prop) : Except ε γ → Except ε δ → Prop where
  | ok {c d} (related : R c d) : Agree R (.ok c) (.ok d)
  | error (e) : Agree R (.error e) (.error e)

section Related

variable {γ δ : Type} {R : α → β → Prop} {S : γ → δ → Prop} {x : Option α} {y : Option β}

theorem Agree.agree_map {x : Except ε α} {y : Except ε β} {f : α → γ} {g : β → δ} (agree : Agree R x y)
    (step : ∀ a b, R a b → S (f a) (g b)) : Agree S (x.map f) (y.map g) := by
  cases agree with
  | ok related => exact .ok (step _ _ related)
  | error e => exact .error e

theorem rel_bind {f : α → Option γ} {g : β → Option δ} (related : Option.Rel R x y)
    (step : ∀ a b, R a b → Option.Rel S (f a) (g b)) : Option.Rel S (x >>= f) (y >>= g) := by
  cases related with
  | none => exact .none
  | some here => exact step _ _ here

theorem rel_map {f : α → γ} {g : β → δ} (related : Option.Rel R x y)
    (step : ∀ a b, R a b → S (f a) (g b)) : Option.Rel S (x.map f) (y.map g) := by
  cases related with
  | none => exact .none
  | some here => exact .some (step _ _ here)

theorem rel_mono {R' : α → β → Prop} (related : Option.Rel R x y) (weaker : ∀ a b, R a b → R' a b) :
    Option.Rel R' x y := by
  cases related with
  | none => exact .none
  | some here => exact .some (weaker _ _ here)

end Related

end BatchFlow

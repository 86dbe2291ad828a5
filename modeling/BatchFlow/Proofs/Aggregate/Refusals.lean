import BatchFlow.Aggregate.GroupFold
import BatchFlow.Proofs.Results

/-! Which faults the keys and calls of an aggregation come to: for a row, those of evaluation; for a
schema, columns that it lacks and calls without an argument. -/
namespace BatchFlow

namespace GroupFold
variable {g : GroupFold} {row : Row} {e : Fault} {s : Schema}

theorem bound_error (h : g.bound = .error e) : e.code = .internal := by
  unfold bound at h
  split at h <;> cases h
  rfl

theorem key_error (h : g.key row = .error e) : e.code = .evaluationFailed ∨ e.code = .internal := by
  rcases bind_eq_error.mp h with unbound | ⟨b, -, failed⟩
  · exact .inr (bound_error unbound)
  · obtain ⟨k, -, failed⟩ := mapM_eq_error failed
    obtain ⟨cause, -, rfl⟩ := mapError_eq_error.mp failed
    exact .inl rfl

theorem accumulate_error (h : (g.accumulate row).1 = .error e) :
    e.code = .evaluationFailed ∨ e.code = .internal := by
  unfold accumulate at h
  split at h
  next unbound =>
    obtain rfl := Except.error.inj h
    exact .inr (bound_error unbound)
  · obtain ⟨cause, -, rfl⟩ := mapError_eq_error.mp h
    exact .inl rfl

end GroupFold

theorem Expr.bind_error {s : Schema} {x : Expr} {e : Fault} (h : x.bind s = .error e) :
    e.code = .missingColumn := by
  induction x with
  | column name index =>
    unfold bind at h
    split at h <;> cases h
    rfl
  | literal v => cases h
  | binary l op r left right =>
    rcases bind_eq_error.mp h with failed | ⟨l', -, failed⟩
    · exact left failed
    · rcases bind_eq_error.mp failed with failed | ⟨r', -, none⟩
      · exact right failed
      · cases none
  | cast x t ih =>
    rcases bind_eq_error.mp h with failed | ⟨x', -, none⟩
    · exact ih failed
    · cases none

theorem Expr.dataType_error {s : Schema} {x : Expr} {e : Fault} (h : x.dataType s = .error e) :
    e.code = .missingColumn := by
  induction x with
  | column name index =>
    unfold dataType at h
    split at h <;> cases h
    rfl
  | literal v => cases h
  | binary l op r left right =>
    cases op with
    | arithmetic op =>
      rcases bind_eq_error.mp h with failed | ⟨t, -, failed⟩
      · exact left failed
      · rcases bind_eq_error.mp failed with failed | ⟨u, -, none⟩
        · exact right failed
        · cases none
    | comparison | logic => cases h
  | cast x t => cases h

theorem GroupFold.setUp_error {g : GroupFold} {s : Schema} {e : Fault} (h : g.setUp s = .error e) :
    e.code = .missingColumn ∨ e.code = .invalidConfig := by
  rcases bind_eq_error.mp h with failed | ⟨keys, -, failed⟩
  · obtain ⟨k, -, failed⟩ := mapM_eq_error failed
    rcases bind_eq_error.mp failed with failed | ⟨x, -, failed⟩
    · exact .inl (Expr.bind_error failed)
    · rcases bind_eq_error.mp failed with failed | ⟨t, -, none⟩
      · exact .inl (Expr.dataType_error failed)
      · cases none
  · rcases bind_eq_error.mp failed with failed | ⟨calls, -, none⟩
    · obtain ⟨a, -, failed⟩ := mapM_eq_error failed
      unfold layCall at failed
      split at failed
      · cases failed
      · obtain rfl := Except.error.inj failed
        exact .inr rfl
      · rcases bind_eq_error.mp failed with failed | ⟨t, -, failed⟩
        · exact .inl (Expr.dataType_error failed)
        · rcases bind_eq_error.mp failed with failed | ⟨x, -, none⟩
          · exact .inl (Expr.bind_error failed)
          · cases none
    · cases none

end BatchFlow

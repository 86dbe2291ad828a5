import BatchFlow.Proofs.Aggregate.Groups

/-!
An accumulator that values are offered to one after another, refused ones among them. What is refused
leaves no trace, and NULL leaves none but in a count of rows.
-/
namespace BatchFlow.Accumulator

/-- Offers a value to the accumulator: what it answers, and the accumulator to go on with. -/
def offer (a : Accumulator) (v : Value) : Except EvalError Unit × Accumulator :=
  match a.accumulate v with
  | .ok a' => (.ok (), a')
  | .error e => (.error e, a)

def afterOffers (a : Accumulator) (vs : List Value) : Accumulator :=
  vs.foldl (fun a v => (a.offer v).2) a

def answers (a : Accumulator) : List Value → List (Except EvalError Unit)
  | [] => []
  | v :: vs => (a.offer v).1 :: (a.offer v).2.answers vs

inductive Made (f : AggregateOp) : Accumulator → Prop
  | start : Made f (start f)
  | offer {a : Accumulator} (v : Value) : Made f a → Made f (a.offer v).2
  | reset {a : Accumulator} : Made f a → Made f a.reset

/-- An accumulator that is new, or was reset after whatever it was used for. -/
def Fresh (f : AggregateOp) (a : Accumulator) : Prop := a = start f ∨ ∃ b, Made f b ∧ a = b.reset

variable {a : Accumulator} {f : AggregateOp} {v : Value} {us vs : List Value} {e : EvalError}

@[simp] theorem afterOffers_nil (a : Accumulator) : a.afterOffers [] = a := rfl

@[simp] theorem afterOffers_cons (a : Accumulator) (v : Value) (vs : List Value) :
    a.afterOffers (v :: vs) = (a.offer v).2.afterOffers vs := rfl

@[simp] theorem afterOffers_append (a : Accumulator) (us vs : List Value) :
    a.afterOffers (us ++ vs) = (a.afterOffers us).afterOffers vs := List.foldl_append

theorem answers_append (a : Accumulator) (us vs : List Value) :
    a.answers (us ++ vs) = a.answers us ++ (a.afterOffers us).answers vs := by
  induction us generalizing a with
  | nil => rfl
  | cons u us ih => rw [List.cons_append, answers, ih, answers, List.cons_append, afterOffers_cons]

theorem offer_refused (refused : a.accumulate v = .error e) : a.offer v = (.error e, a) := by
  rw [offer, refused]

theorem offer_taken {a' : Accumulator} (taken : a.accumulate v = .ok a') :
    a.offer v = (.ok (), a') := by
  rw [offer, taken]

/-- Values offered after one that is refused are answered as if it had not been offered. -/
theorem afterOffers_refused (refused : (a.afterOffers us).accumulate v = .error e) (vs : List Value) :
    a.afterOffers (us ++ v :: vs) = a.afterOffers (us ++ vs) ∧
      a.answers (us ++ v :: vs) = a.answers us ++ .error e :: (a.afterOffers us).answers vs := by
  have offered := offer_refused refused
  constructor
  · rw [afterOffers_append, afterOffers_cons, offered, afterOffers_append]
  · rw [answers_append, answers, offered]

theorem offer_func (a : Accumulator) (v : Value) : (a.offer v).2.func = a.func := by
  unfold offer
  split
  next taken => exact accumulate_func taken
  · rfl

theorem Made.func_eq (made : Made f a) : a.func = f := by
  induction made with
  | start => exact func_start f
  | offer v _ ih => rw [offer_func, ih]
  | reset _ ih => rw [Accumulator.reset, func_start, ih]

/-- Of its uses before, a fresh accumulator knows nothing. -/
theorem Fresh.eq_start (fresh : Fresh f a) : a = start f := by
  obtain rfl | ⟨b, made, rfl⟩ := fresh
  · rfl
  · rw [Accumulator.reset, made.func_eq]

def present (vs : List Value) : List Value := vs.filter fun v => !v.isNull

theorem offer_null (skips : a.func ≠ .countAll) : a.offer .null = (.ok (), a) := by
  apply offer_taken
  simp [accumulate, Value.isNull, skips]

theorem offer_present (some : v.isNull = false) :
    a.accumulate v = a.takeIn v := by
  simp [accumulate, some]

end BatchFlow.Accumulator

import BatchFlow.Proofs.Aggregate.Offers
import Mathlib.Data.List.Induction
import Mathlib.Algebra.BigOperators.Group.List.Basic
import Mathlib.Algebra.Ring.Int.Defs

/-!
Sums of whole numbers. A sum is the exact total of the whole numbers that it has taken in, of whatever
widths they are. It refuses one exactly if 64 bits do not hold the total with it, and goes on from the
total without it. So a list of values is taken in as a whole exactly if 64 bits hold the sum of every
beginning.
-/
namespace BatchFlow

def Value.whole? : Value → Option Int
  | integer _ n => some n.toInt
  | _ => none

def wholes (vs : List Value) : List Int := vs.filterMap Value.whole?

/-- Whether 64 bits hold the sum of every beginning of a list. -/
def SumsHeld (ns : List Int) : Prop := ∀ ms, ms <+: ns → IntWidth.big.Holds ms.sum

/-- Whether a value is the exact sum of a list; there is none of the empty list. -/
def IsTotal (ns : List Int) : Value → Prop
  | .null => ns = []
  | .integer .big t => ns ≠ [] ∧ t.toInt = ns.sum
  | _ => False

variable {ns : List Int} {v : Value} {us vs : List Value}

theorem wholes_concat (vs : List Value) (v : Value) :
    wholes (vs ++ [v]) = wholes vs ++ v.whole?.toList := by
  cases whole : v.whole? <;> simp [wholes, whole]

theorem sumsHeld_nil : SumsHeld [] := by
  intro ms start
  rw [List.prefix_nil.mp start]
  decide

theorem sumsHeld_concat (ns : List Int) (n : Int) :
    SumsHeld (ns ++ [n]) ↔ SumsHeld ns ∧ IntWidth.big.Holds (ns.sum + n) := by
  have last : (ns ++ [n]).sum = ns.sum + n := by simp
  constructor
  · intro held
    exact ⟨fun ms start => held ms (start.trans (List.prefix_append ns [n])),
      last ▸ held _ (List.prefix_refl _)⟩
  · rintro ⟨held, whole⟩ ms start
    rcases List.prefix_concat_iff.mp start with rfl | shorter
    · exact last.symm ▸ whole
    · exact held ms shorter

namespace RunningSum

def Totals (ns : List Int) : RunningSum → Prop
  | empty => ns = []
  | whole t => ns ≠ [] ∧ t.toInt = ns.sum
  | floating _ => False

variable {s : RunningSum} {w : IntWidth}

theorem Totals.isTotal_result (totals : s.Totals ns) : IsTotal ns s.result := by
  cases s with
  | empty | whole t => exact totals
  | floating t => cases totals

theorem Totals.add_whole (totals : s.Totals ns) (n : Whole w) :
    if IntWidth.big.Holds (ns.sum + n.toInt) then
      ∃ s', s.add (.integer w n) = .ok s' ∧ s'.Totals (ns ++ [n.toInt])
    else s.add (.integer w n) = .error (.sumOverflow ns.sum n.toInt) := by
  cases s with
  | empty =>
    obtain rfl : ns = [] := totals
    have held : IntWidth.big.Holds (([] : List Int).sum + n.toInt) := by
      simpa using n.inRange.big
    rw [if_pos held]
    exact ⟨whole n.toBig, rfl, by simp, by simp [Whole.toBig]⟩
  | whole t =>
    obtain ⟨-, total⟩ := totals
    split
    next held =>
      have fits : Whole.ofInt? .big (ns.sum + n.toInt) = some ⟨_, held⟩ :=
        Whole.ofInt?_eq_some.mpr rfl
      refine ⟨whole ⟨_, held⟩, ?_, ?_⟩
      · rw [RunningSum.add, total, fits]
      · exact ⟨by simp, by simp⟩
    next outside =>
      rw [RunningSum.add, total, Whole.ofInt?_eq_none.mpr outside]
  | floating t => cases totals

theorem add_other (s : RunningSum) (fractionless : v.isFloating = false) (none : v.whole? = none) :
    s.add v = .error (.argument .sum v) := by
  cases v with
  | integer => cases none
  | floating => cases fractionless
  | _ => cases s <;> rfl

end RunningSum

namespace Accumulator

/-- A sum that has taken in exactly these whole numbers. -/
def Sums (ns : List Int) (a : Accumulator) : Prop := ∃ s, a = sum s ∧ s.Totals ns

def refusal? (ns : List Int) : Value → Option EvalError
  | .null => none
  | .integer _ n =>
    if IntWidth.big.Holds (ns.sum + n.toInt) then none else some (.sumOverflow ns.sum n.toInt)
  | v => some (.argument .sum v)

def verdict (ns : List Int) (v : Value) : Except EvalError Unit :=
  (refusal? ns v).elim (.ok ()) .error

def takeWhole (ns : List Int) (v : Value) : List Int :=
  if (refusal? ns v).isNone then ns ++ v.whole?.toList else ns

/-- The whole numbers that a sum takes in of the values offered to it. -/
def taken (vs : List Value) : List Int := vs.foldl takeWhole []

variable {a : Accumulator} {w : IntWidth}

theorem sums_start : (start .sum).Sums [] := ⟨.empty, rfl, rfl⟩

theorem Sums.isTotal_result (sums : a.Sums ns) : IsTotal ns a.result := by
  obtain ⟨s, rfl, totals⟩ := sums
  exact totals.isTotal_result

theorem Sums.offer_null (sums : a.Sums ns) : a.offer .null = (.ok (), a) := by
  obtain ⟨s, rfl, -⟩ := sums
  exact Accumulator.offer_null (by simp [func])

theorem Sums.offer_held {n : Whole w} (sums : a.Sums ns)
    (held : IntWidth.big.Holds (ns.sum + n.toInt)) :
    ∃ a', a.offer (.integer w n) = (.ok (), a') ∧ a'.Sums (ns ++ [n.toInt]) := by
  obtain ⟨s, rfl, totals⟩ := sums
  have added := totals.add_whole n
  rw [if_pos held] at added
  obtain ⟨s', added, totals'⟩ := added
  refine ⟨sum s', offer_taken ?_, s', rfl, totals'⟩
  rw [offer_present rfl, takeIn, added]
  rfl

theorem Sums.offer_outside {n : Whole w} (sums : a.Sums ns)
    (outside : ¬ IntWidth.big.Holds (ns.sum + n.toInt)) :
    a.offer (.integer w n) = (.error (.sumOverflow ns.sum n.toInt), a) := by
  obtain ⟨s, rfl, totals⟩ := sums
  have added := totals.add_whole n
  rw [if_neg outside] at added
  apply offer_refused
  rw [offer_present rfl, takeIn, added]
  rfl

theorem Sums.offer_other (sums : a.Sums ns) (fractionless : v.isFloating = false)
    (some : v.isNull = false) (none : v.whole? = none) :
    a.offer v = (.error (.argument .sum v), a) := by
  obtain ⟨s, rfl, -⟩ := sums
  apply offer_refused
  rw [offer_present some, takeIn, RunningSum.add_other s fractionless none]
  rfl

theorem Sums.offer_verdict (sums : a.Sums ns) (fractionless : v.isFloating = false) :
    (a.offer v).1 = verdict ns v ∧ (a.offer v).2.Sums (takeWhole ns v) := by
  cases v with
  | null =>
    rw [sums.offer_null]
    exact ⟨rfl, by simpa [takeWhole, refusal?, Value.whole?] using sums⟩
  | integer w n =>
    by_cases held : IntWidth.big.Holds (ns.sum + n.toInt)
    · obtain ⟨a', offered, sums'⟩ := sums.offer_held held
      rw [offered]
      exact ⟨by simp [verdict, refusal?, held],
        by simpa [takeWhole, refusal?, held, Value.whole?] using sums'⟩
    · rw [sums.offer_outside held]
      exact ⟨by simp [verdict, refusal?, held], by simpa [takeWhole, refusal?, held] using sums⟩
  | floating => cases fractionless
  | boolean | text | list =>
    rw [sums.offer_other rfl rfl rfl]
    exact ⟨rfl, sums⟩

/-- After values without a fraction, a sum is that of what it has taken in of them. -/
theorem sums_taken (fractionless : ∀ u ∈ us, u.isFloating = false) :
    ((start .sum).afterOffers us).Sums (taken us) := by
  induction us using List.reverseRecOn with
  | nil => exact sums_start
  | append_singleton us u ih =>
    rw [List.forall_mem_append, List.forall_mem_singleton] at fractionless
    rw [afterOffers_append, taken, List.foldl_append]
    exact ((ih fractionless.1).offer_verdict fractionless.2).2

/-! Nothing but NULL and whole numbers. -/

theorem fractionless_of_whole (whole : v.isNull = true ∨ v.isIntegral = true) :
    v.isFloating = false := by
  cases v with
  | floating => simp [Value.isNull, Value.isIntegral] at whole
  | _ => rfl

theorem sumsHeld_wholes_concat (whole : v.isNull = true ∨ v.isIntegral = true) :
    SumsHeld (wholes (vs ++ [v])) ↔ SumsHeld (wholes vs) ∧ refusal? (wholes vs) v = none := by
  rw [wholes_concat]
  cases v with
  | null => simp [Value.whole?, refusal?]
  | integer w n => simp [Value.whole?, refusal?, sumsHeld_concat]
  | _ => simp [Value.isNull, Value.isIntegral] at whole

/-- As long as 64 bits hold every sum, all values are taken in. -/
theorem sums_wholes (whole : ∀ v ∈ vs, v.isNull = true ∨ v.isIntegral = true)
    (held : SumsHeld (wholes vs)) :
    ((start .sum).afterOffers vs).Sums (wholes vs) ∧
      (start .sum).answers vs = vs.map fun _ => .ok () := by
  induction vs using List.reverseRecOn with
  | nil => exact ⟨sums_start, rfl⟩
  | append_singleton vs v ih =>
    rw [List.forall_mem_append, List.forall_mem_singleton] at whole
    obtain ⟨held, welcome⟩ := (sumsHeld_wholes_concat whole.2).mp held
    obtain ⟨sums, answered⟩ := ih whole.1 held
    obtain ⟨verdict_v, sums'⟩ := sums.offer_verdict (fractionless_of_whole whole.2)
    rw [verdict, welcome] at verdict_v
    rw [takeWhole, welcome] at sums'
    constructor
    · rw [afterOffers_append, wholes_concat]
      exact sums'
    · rw [answers_append, answered, answers, verdict_v, answers, List.map_append]
      rfl

/-- If 64 bits do not hold every sum, there is a first number with which they do not. -/
theorem exists_first_outside (whole : ∀ v ∈ vs, v.isNull = true ∨ v.isIntegral = true)
    (outside : ¬ SumsHeld (wholes vs)) :
    ∃ (before : List Value) (w : IntWidth) (n : Whole w) (after : List Value),
      vs = before ++ .integer w n :: after ∧ SumsHeld (wholes before) ∧
        ¬ IntWidth.big.Holds ((wholes before).sum + n.toInt) := by
  induction vs using List.reverseRecOn with
  | nil => exact absurd sumsHeld_nil outside
  | append_singleton vs v ih =>
    rw [List.forall_mem_append, List.forall_mem_singleton] at whole
    by_cases held : SumsHeld (wholes vs)
    · -- Only the last value can be the one, and NULL changes no sum.
      rw [sumsHeld_wholes_concat whole.2] at outside
      cases v with
      | integer w n =>
        have outside : ¬ IntWidth.big.Holds ((wholes vs).sum + n.toInt) := by
          simpa [held, refusal?] using outside
        exact ⟨vs, w, n, [], rfl, held, outside⟩
      | null => exact absurd ⟨held, rfl⟩ outside
      | _ => simp [Value.isNull, Value.isIntegral] at whole
    · obtain ⟨before, w, n, after, rfl, held, outside⟩ := ih whole.1 held
      exact ⟨before, w, n, after ++ [v], by simp, held, outside⟩

/-- The first number with which 64 bits do not hold the sum is refused, and nothing before it is. -/
theorem answers_first_outside {before after : List Value} {n : Whole w}
    (whole : ∀ v ∈ before, v.isNull = true ∨ v.isIntegral = true)
    (held : SumsHeld (wholes before))
    (outside : ¬ IntWidth.big.Holds ((wholes before).sum + n.toInt)) :
    (start .sum).answers (before ++ .integer w n :: after) =
      before.map (fun _ => .ok ()) ++
        .error (.sumOverflow (wholes before).sum n.toInt) ::
          ((start .sum).afterOffers before).answers after := by
  obtain ⟨sums, answered⟩ := sums_wholes whole held
  rw [answers_append, answered, answers, sums.offer_outside outside]

/-- A sum takes in a list of NULL and whole numbers of any widths exactly if 64 bits hold the sum of
every beginning, and then it is the exact sum, or NULL of none. Otherwise the first number with which
they do not hold it is refused. A refused value, of whatever kind, changes nothing: those after it are
answered as if it had not been offered. So, as long as nothing has a fraction, the sum is at any time
that of the whole numbers taken in so far, and takes in what 64 bits hold together with them. -/
theorem sum_exact (vs : List Value) (whole : ∀ v ∈ vs, v.isNull = true ∨ v.isIntegral = true) :
    ((∀ r ∈ (start .sum).answers vs, r = .ok ()) ↔ SumsHeld (wholes vs)) ∧
      (SumsHeld (wholes vs) → IsTotal (wholes vs) ((start .sum).afterOffers vs).result) ∧
      (¬ SumsHeld (wholes vs) →
        ∃ (before : List Value) (w : IntWidth) (n : Whole w) (after : List Value),
          vs = before ++ .integer w n :: after ∧ SumsHeld (wholes before) ∧
            ¬ IntWidth.big.Holds ((wholes before).sum + n.toInt) ∧
            (start .sum).answers vs = before.map (fun _ => .ok ()) ++
              .error (.sumOverflow (wholes before).sum n.toInt) ::
                ((start .sum).afterOffers before).answers after) ∧
      (∀ (us : List Value) (v : Value) (e : EvalError) (rest : List Value),
        ((start .sum).afterOffers us).accumulate v = .error e →
          (start .sum).afterOffers (us ++ v :: rest) = (start .sum).afterOffers (us ++ rest) ∧
            (start .sum).answers (us ++ v :: rest) =
              (start .sum).answers us ++ .error e :: ((start .sum).afterOffers us).answers rest) ∧
      ∀ us : List Value, (∀ u ∈ us, u.isFloating = false) →
        IsTotal (taken us) ((start .sum).afterOffers us).result ∧
          ∀ v, v.isFloating = false →
            (((start .sum).afterOffers us).offer v).1 = verdict (taken us) v := by
  refine ⟨⟨?held, ?accepted⟩, ?total, ?outside, ?refused, ?atAnyTime⟩
  case held =>
    intro accepted
    by_contra outside
    obtain ⟨before, w, n, after, rfl, held, outside⟩ := exists_first_outside whole outside
    rw [List.forall_mem_append] at whole
    rw [answers_first_outside whole.1 held outside, List.forall_mem_append] at accepted
    cases accepted.2 _ List.mem_cons_self
  case accepted =>
    intro held
    rw [(sums_wholes whole held).2]
    simp
  case total =>
    intro held
    exact (sums_wholes whole held).1.isTotal_result
  case outside =>
    intro outside
    obtain ⟨before, w, n, after, rfl, held, outside⟩ := exists_first_outside whole outside
    rw [List.forall_mem_append] at whole
    exact ⟨before, w, n, after, rfl, held, outside, answers_first_outside whole.1 held outside⟩
  case refused =>
    intro us v e rest refused
    exact afterOffers_refused refused rest
  case atAnyTime =>
    intro us fractionless
    have sums := sums_taken fractionless
    exact ⟨sums.isTotal_result, fun v fractionless => (sums.offer_verdict fractionless).1⟩

/-- The greatest number, NULL, 1, which is refused, and -1, which is not. -/
theorem one_past_greatest :
    let one : Whole .tiny := ⟨1, by decide⟩
    let minusOne : Whole .medium := ⟨-1, by decide⟩
    let greatest : Whole .big := ⟨0x7FFFFFFFFFFFFFFF, by decide⟩
    let vs : List Value :=
      [.integer .big greatest, .null, .integer .tiny one, .integer .medium minusOne]
    (∀ v ∈ vs, v.isNull = true ∨ v.isIntegral = true) ∧
      ¬(∀ r ∈ (start .sum).answers vs, r = .ok ()) ∧
      IsTotal [0x7FFFFFFFFFFFFFFF, -1] ((start .sum).afterOffers vs).result := by
  intro one minusOne greatest vs
  have whole : ∀ v ∈ vs, v.isNull = true ∨ v.isIntegral = true := by decide
  obtain ⟨accepted, -, -, -, atAnyTime⟩ := sum_exact vs whole
  refine ⟨whole, fun all => ?_, (atAnyTime vs (by decide)).1⟩
  have held := accepted.mp all [0x7FFFFFFFFFFFFFFF, 1] ⟨[-1], rfl⟩
  exact absurd held (by decide)

end Accumulator
end BatchFlow

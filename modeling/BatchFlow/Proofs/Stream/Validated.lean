import BatchFlow.Proofs.Results
import BatchFlow.Stream.Pipeline

/-! What settings and specs are known to be once they have been accepted, and what operators are
when they have just been built. -/
namespace BatchFlow

theorem Settings.batchRows_pos {s : Settings} (valid : s.validate = .ok ()) : 0 < s.batchRows := by
  unfold validate at valid
  split at valid
  · cases valid
  next some => exact Nat.pos_of_ne_zero some

theorem UnnestSpec.rowCap_pos {spec : UnnestSpec} (valid : spec.validate = .ok ()) :
    0 < spec.rowCap := by
  unfold validate at valid
  split at valid
  · cases valid
  · split at valid
    · cases valid
    next bounds =>
      have := Bool.or_eq_false_iff.mp (Bool.eq_false_iff.mpr bounds)
      exact Nat.pos_of_ne_zero (of_decide_eq_false this.1)

theorem AggregateSpec.not_both_empty {c : AggregateSpec} (valid : c.validate = .ok ()) :
    c.groupBy ≠ [] ∨ c.aggregates ≠ [] := by
  obtain ⟨-, -, valid⟩ := bind_eq_ok.mp valid
  by_contra none
  obtain ⟨keys, calls⟩ := not_or.mp none
  simp [not_ne_iff.mp keys, not_ne_iff.mp calls] at valid

theorem AggregateSpec.rowCap_pos (fraction : Binary .single) (batchRows : Nat) :
    0 < AggregateSpec.rowCap fraction batchRows :=
  Nat.lt_of_lt_of_le Nat.one_pos (Nat.le_max_left ..)

theorem Fragment.ofSettings_ok {settings : Settings} {memoryLimit : Option Nat}
    {fragment : Fragment} (shared : ofSettings settings memoryLimit = .ok fragment) :
    settings.validate = .ok () ∧ fragment.settings = settings ∧ fragment.cursor = .start := by
  obtain ⟨⟨⟩, valid, shared⟩ := bind_eq_ok.mp shared
  obtain rfl := pure_eq_ok.mp shared
  exact ⟨valid, rfl, rfl⟩

theorem Unnest.ofSpec_ok {spec : UnnestSpec} {u : Unnest} (built : ofSpec spec = .ok u) :
    0 < spec.rowCap ∧
      u = ⟨spec, { Expansion.start with rowCap := spec.rowCap }, none, none, none, .running, 0⟩ := by
  obtain ⟨⟨⟩, valid, built⟩ := bind_eq_ok.mp built
  obtain rfl := pure_eq_ok.mp built
  have least := UnnestSpec.rowCap_pos valid
  refine ⟨least, ?_⟩
  simp [Expansion.setRowCap, Limits.minRows, Nat.max_eq_left least]

/-- An aggregation of a spec that has seen nothing. -/
structure Aggregation.Fresh (a : Aggregation) (c : AggregateSpec) : Prop where
  fold : a.fold = .ofCalls c.groupBy c.aggregates
  cap : 0 < a.rowCap
  input : a.inputSchema = none
  output : a.outputSchema = none
  intake : a.intake = .awaiting
  closed : a.openKey = none
  rows : a.rows = []
  quiet : a.groupEmitted = false
  unbounded : a.boundarySeen = false
  running : a.phase = .running

theorem Aggregation.fresh_ofFold {c : AggregateSpec} {settings : Settings} {a : Aggregation}
    (built : ofFold (.ofCalls c.groupBy c.aggregates) c.fraction settings = .ok a) : a.Fresh c := by
  obtain ⟨⟨⟩, -, built⟩ := bind_eq_ok.mp built
  obtain rfl := pure_eq_ok.mp built
  exact ⟨rfl, AggregateSpec.rowCap_pos .., rfl, rfl, rfl, rfl, rfl, rfl, rfl, rfl⟩

/-- What is built for an aggregation: one that has seen nothing, on top of what is built for its
child. -/
theorem Plan.build_aggregate {p : Plan} {c : AggregateSpec} {direct : Bool} {settings : Settings}
    {op : Operator (p.depth + 1)} (built : (Plan.aggregate p c direct).build settings = .ok op) :
    ∃ a child, op = .aggregate a child ∧ p.build settings = .ok child ∧ a.Fresh c ∧
      (direct = false → c.validate = .ok ()) := by
  obtain ⟨child, below, built⟩ := bind_eq_ok.mp built
  cases direct with
  | true =>
    obtain ⟨a, made, built⟩ := bind_eq_ok.mp built
    obtain rfl := pure_eq_ok.mp built
    exact ⟨a, child, rfl, below, Aggregation.fresh_ofFold made, by simp⟩
  | false =>
    obtain ⟨a, made, built⟩ := bind_eq_ok.mp built
    obtain rfl := pure_eq_ok.mp built
    obtain ⟨⟨⟩, valid, made⟩ := bind_eq_ok.mp made
    exact ⟨a, child, rfl, below, Aggregation.fresh_ofFold made, fun _ => valid⟩

theorem Plan.rowCap_aggregate {p : Plan} {c : AggregateSpec} {direct : Bool} {settings : Settings}
    {a : Aggregation} {child : Operator p.depth}
    (built : (Plan.aggregate p c direct).build settings = .ok (.aggregate a child)) :
    a.rowCap = AggregateSpec.rowCap c.fraction settings.batchRows := by
  obtain ⟨child', -, built⟩ := bind_eq_ok.mp built
  have folded : ∃ fold, Aggregation.ofFold fold c.fraction settings = .ok a := by
    cases direct with
    | true =>
      obtain ⟨a', made, built⟩ := bind_eq_ok.mp built
      cases pure_eq_ok.mp built
      exact ⟨_, made⟩
    | false =>
      obtain ⟨a', made, built⟩ := bind_eq_ok.mp built
      cases pure_eq_ok.mp built
      obtain ⟨⟨⟩, -, made⟩ := bind_eq_ok.mp made
      exact ⟨_, made⟩
  obtain ⟨fold, made⟩ := folded
  obtain ⟨⟨⟩, -, made⟩ := bind_eq_ok.mp made
  obtain rfl := pure_eq_ok.mp made
  rfl

end BatchFlow

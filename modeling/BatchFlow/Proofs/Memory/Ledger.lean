import Mathlib.Data.List.Nodup
import Mathlib.Logic.Function.Basic
import Mathlib.Order.Bounds.Basic
import BatchFlow.Memory.Ledger

/-!
Reservations against one budget, whatever is asked of them and in whatever order. The budget counts
what the live reservations hold and no more than its limit, its peak is the most that it ever
counted, and a request that does not fit leaves its trace in the count of refusals alone.
-/
namespace BatchFlow.Ledger

/-! Reservations listed by name. -/

section Held

variable {held : List (String × Nat)} {name : String} {size : Nat}

def sum (held : List (String × Nat)) : Nat := (held.map Prod.snd).foldr (· + ·) 0

def withSize (name : String) (size : Nat) (held : List (String × Nat)) : List (String × Nat) :=
  held.map fun (n, s) => if n = name then (n, size) else (n, s)

@[simp] theorem sum_cons (entry : String × Nat) : sum (entry :: held) = entry.2 + sum held := rfl

@[simp] theorem sum_concat : sum (held ++ [(name, size)]) = sum held + size := by
  induction held with
  | nil => simp [sum]
  | cons entry rest ih => rw [List.cons_append, sum_cons, sum_cons, ih, Nat.add_assoc]

theorem lookup_cons (n first : String) :
    ((first, size) :: held).lookup n = if n = first then some size else held.lookup n := by
  by_cases same : n = first
  · subst same
    rw [List.lookup_cons_self, if_pos rfl]
  · rw [List.lookup_cons, beq_false_of_ne same, if_neg same]

theorem withSize_of_absent (size : Nat) (absent : name ∉ held.map Prod.fst) :
    withSize name size held = held := by
  induction held with
  | nil => rfl
  | cons entry rest ih =>
    obtain ⟨other, later⟩ := not_or.mp (mt List.mem_cons.mpr absent)
    have rest_same := ih later
    simp only [withSize, List.map_cons] at rest_same ⊢
    rw [rest_same, if_neg (Ne.symm other)]

theorem filter_of_absent (absent : name ∉ held.map Prod.fst) :
    (held.filter fun (n, _) => n ≠ name) = held := by
  rw [List.filter_eq_self]
  intro entry member
  apply decide_eq_true
  rintro rfl
  exact absent (List.mem_map_of_mem member)

@[simp] theorem names_withSize : (withSize name size held).map Prod.fst = held.map Prod.fst := by
  rw [withSize, List.map_map]
  apply List.map_congr_left
  intro entry _
  by_cases here : entry.1 = name <;> simp [here]

theorem lookup_withSize (n : String) :
    (withSize name size held).lookup n =
      Function.update (held.lookup ·) name ((held.lookup name).map fun _ => size) n := by
  induction held with
  | nil => by_cases same : n = name <;> simp [withSize, same]
  | cons entry rest ih =>
    obtain ⟨first, s⟩ := entry
    have head : withSize name size ((first, s) :: rest) =
        (first, if first = name then size else s) :: withSize name size rest := by
      by_cases here : first = name <;> simp [withSize, here]
    simp only [Function.update_apply] at ih
    simp only [head, lookup_cons, ih, Function.update_apply]
    grind

theorem lookup_filter (held : List (String × Nat)) (name n : String) :
    (held.filter fun (m, _) => m ≠ name).lookup n = Function.update (held.lookup ·) name none n := by
  induction held with
  | nil => by_cases same : n = name <;> simp [same]
  | cons entry rest ih =>
    obtain ⟨first, s⟩ := entry
    simp only [Function.update_apply] at ih
    by_cases here : first = name
    · rw [List.filter_cons_of_neg (by simpa using here), ih]
      simp only [lookup_cons, Function.update_apply]
      grind
    · rw [List.filter_cons_of_pos (by simpa using here), lookup_cons, ih]
      simp only [lookup_cons, Function.update_apply]
      grind

/-- Each name is listed once, so a new size of one reservation changes the sum by that alone. -/
theorem sum_withSize {old : Nat} (distinct : (held.map Prod.fst).Nodup)
    (there : held.lookup name = some old) :
    sum (withSize name size held) + old = sum held + size := by
  induction held with
  | nil => cases there
  | cons entry rest ih =>
    obtain ⟨first, s⟩ := entry
    obtain ⟨once, distinct⟩ := List.nodup_cons.mp distinct
    by_cases here : first = name
    · subst here
      have others := withSize_of_absent size once
      obtain rfl : s = old := by simpa using there
      simp only [withSize, List.map_cons, if_true, sum_cons] at others ⊢
      rw [others]
      omega
    · have rest_sum := ih distinct (by rwa [lookup_cons, if_neg (Ne.symm here)] at there)
      simp only [withSize, List.map_cons, if_neg here, sum_cons] at rest_sum ⊢
      omega

theorem sum_filter (name : String) (distinct : (held.map Prod.fst).Nodup) :
    sum (held.filter fun (n, _) => n ≠ name) + (held.lookup name).getD 0 = sum held := by
  induction held with
  | nil => rfl
  | cons entry rest ih =>
    obtain ⟨first, s⟩ := entry
    obtain ⟨once, distinct⟩ := List.nodup_cons.mp distinct
    by_cases here : first = name
    · subst here
      rw [List.filter_cons_of_neg (by simp), filter_of_absent once, List.lookup_cons_self, sum_cons]
      exact Nat.add_comm ..
    · have rest_sum := ih distinct
      rw [List.filter_cons_of_pos (by simpa using here), lookup_cons, if_neg (Ne.symm here), sum_cons,
        sum_cons]
      omega

end Held

/-! What is asked, and what it comes to. -/

inductive Request where
  | reserve (name : String) (bytes : Nat)
  | grow (name : String) (bytes : Nat)
  | shrink (name : String) (bytes : Nat)
  | free (name : String)
  | drop (name : String)
  deriving DecidableEq

/-- Answers a request. Of a reservation that is not there nothing is asked. -/
def serve (l : Ledger) : Request → Except Fault Unit × Ledger
  | .reserve name bytes => l.reserve name bytes
  | .grow name bytes => (l.grow? name bytes).getD (.ok (), l)
  | .shrink name bytes => (.ok (), (l.shrink? name bytes).getD l)
  | .free name => (.ok (), (l.free? name).getD l)
  | .drop name => (.ok (), (l.drop name).2)

def asked (l : Ledger) : Request → Nat
  | .reserve _ bytes => bytes
  | .grow name bytes => if (l.size? name).isSome then bytes else 0
  | .shrink .. | .free _ | .drop _ => 0

def Request.resized : Request → (String → Option Nat) → String → Option Nat
  | .reserve name bytes, sizes => Function.update sizes name (some bytes)
  | .grow name bytes, sizes => Function.update sizes name ((sizes name).map (· + bytes))
  | .shrink name bytes, sizes => Function.update sizes name ((sizes name).map (· - bytes))
  | .free name, sizes => Function.update sizes name ((sizes name).map fun _ => 0)
  | .drop name, sizes => Function.update sizes name none

/-- The amounts that the budget counts on the way through a request. A reservation under a name in
use is charged before the one held under it is dropped. -/
def levels (l : Ledger) : Request → List Nat
  | .reserve name bytes =>
    [(l.budget.charge bytes).2.allocated, (l.reserve name bytes).2.budget.allocated]
  | q => [(l.serve q).2.budget.allocated]

variable {l : Ledger} {q : Request} {name : String} {bytes size : Nat}

theorem size?_resize (l : Ledger) (name : String) (size : Nat) :
    (l.resize name size).size? =
      Function.update l.size? name ((l.size? name).map fun _ => size) := by
  funext n
  exact lookup_withSize n

theorem update_absent (absent : l.size? name = none) (f : Nat → Nat) :
    Function.update l.size? name ((l.size? name).map f) = l.size? := by
  rw [Function.update_eq_self_iff, absent]
  rfl

structure Balanced (l : Ledger) : Prop where
  total : l.budget.allocated = l.total
  within : l.budget.allocated ≤ l.budget.limit
  highest : l.budget.allocated ≤ l.budget.peak
  distinct : (l.held.map Prod.fst).Nodup

theorem balanced_ofLimit (limit : Nat) : (ofLimit limit).Balanced :=
  ⟨rfl, Nat.zero_le limit, Nat.le_refl 0, List.nodup_nil⟩

theorem Balanced.size?_le (balanced : l.Balanced) (name : String) :
    (l.size? name).getD 0 ≤ l.budget.allocated := by
  rw [balanced.total]
  exact Nat.le.intro ((Nat.add_comm ..).trans (sum_filter name balanced.distinct))

theorem Balanced.resize_balanced (balanced : l.Balanced) (there : l.size? name = some size)
    {size' : Nat} {b : Budget} (counted : b.allocated + size = l.budget.allocated + size')
    (within : b.allocated ≤ b.limit) (highest : b.allocated ≤ b.peak) :
    (({ l with budget := b } : Ledger).resize name size').Balanced := by
  obtain ⟨total, -, -, distinct⟩ := balanced
  have sums : sum (withSize name size' l.held) + size = sum l.held + size' :=
    sum_withSize distinct there
  refine ⟨?_, within, highest, ?_⟩
  · change l.budget.allocated = sum l.held at total
    change b.allocated = sum (withSize name size' l.held)
    omega
  · change ((withSize name size' l.held).map Prod.fst).Nodup
    rwa [names_withSize]

/-- A dropped reservation is forgotten, and the budget gets its bytes back. -/
theorem drop_eq (l : Ledger) (name : String) : (l.drop name).2 =
    ⟨l.budget.release ((l.size? name).getD 0), l.held.filter fun (n, _) => n ≠ name⟩ := by
  rw [drop]
  cases there : l.size? name with
  | none =>
    have absent : name ∉ l.held.map Prod.fst := by
      intro listed
      obtain ⟨entry, member, rfl⟩ := List.mem_map.mp listed
      exact absurd (List.lookup_eq_none_iff.mp there entry member) (by simp)
    rw [filter_of_absent absent]
    rfl
  | some size => rfl

theorem size?_drop (l : Ledger) (name : String) :
    (l.drop name).2.size? = Function.update l.size? name none := by
  rw [drop_eq]
  funext n
  exact lookup_filter l.held name n

theorem Balanced.drop_balanced (balanced : l.Balanced) (name : String) : (l.drop name).2.Balanced := by
  obtain ⟨total, within, highest, distinct⟩ := balanced
  have sums := sum_filter name distinct
  rw [drop_eq]
  refine ⟨?_, Nat.le_trans (Nat.sub_le ..) within, Nat.le_trans (Nat.sub_le ..) highest,
    distinct.sublist (List.filter_sublist.map Prod.fst)⟩
  change l.budget.allocated = sum l.held at total
  change l.budget.allocated - (l.held.lookup name).getD 0 =
    sum (l.held.filter fun (n, _) => n ≠ name)
  omega

theorem Balanced.concat_balanced (balanced : l.Balanced) (fresh : name ∉ l.held.map Prod.fst)
    {b : Budget} (counted : b.allocated = l.budget.allocated + bytes) (within : b.allocated ≤ b.limit)
    (highest : b.allocated ≤ b.peak) : (⟨b, l.held ++ [(name, bytes)]⟩ : Ledger).Balanced := by
  obtain ⟨total, -, -, distinct⟩ := balanced
  refine ⟨?_, within, highest, ?_⟩
  · change l.budget.allocated = sum l.held at total
    change b.allocated = sum _
    rw [sum_concat, counted, total]
  · rw [List.map_append]
    exact List.concat_eq_append ▸ distinct.concat fresh

/-- A new reservation takes the place of the one of its name, and the budget counts both on the way
there. -/
theorem reserve_ok (name : String) {b : Budget} (charged : l.budget.charge bytes = (.ok (), b)) :
    l.reserve name bytes = (.ok (), ⟨b.release ((l.size? name).getD 0),
      (l.held.filter fun (n, _) => n ≠ name) ++ [(name, bytes)]⟩) := by
  have rest := drop_eq { l with budget := b } name
  simp only [reserve, charged]
  generalize Ledger.drop { l with budget := b } name = dropped at rest ⊢
  obtain ⟨held, after⟩ := dropped
  simp only at rest ⊢
  rw [rest]
  rfl

theorem size?_add (l : Ledger) (name : String) (bytes : Nat) (n : String) :
    ((l.held.filter fun (m, _) => m ≠ name) ++ [(name, bytes)]).lookup n =
      Function.update l.size? name (some bytes) n := by
  have others := lookup_filter l.held name n
  rw [Function.update_apply] at others ⊢
  rw [List.lookup_append, others, lookup_cons]
  by_cases same : n = name
  · simp [same]
  · simp only [if_neg same, List.lookup_nil, Option.or_none]
    rfl

structure Granted (l : Ledger) (q : Request) (l' : Ledger) : Prop where
  fits : l.asked q ≤ l.budget.available
  balanced : l'.Balanced
  sizes : l'.size? = q.resized l.size?
  limit : l'.budget.limit = l.budget.limit
  failures : l'.budget.failures = l.budget.failures
  peak : l'.budget.peak = (l.levels q).foldl max l.budget.peak

def refuse (l : Ledger) : Ledger :=
  { l with budget := { l.budget with failures := l.budget.failures + 1 } }

inductive Served (l : Ledger) (q : Request) : Prop
  | granted (l' : Ledger) (answer : l.serve q = (.ok (), l')) (granted : l.Granted q l')
  | refused (answer : l.serve q =
        (.error (.allocationFailed (l.asked q) l.budget.available l.budget.limit), l.refuse))
      (short : l.budget.available < l.asked q)
      (flat : (l.levels q).foldl max l.budget.peak = l.budget.peak)

/-- A request to a reservation that is not there changes nothing. -/
theorem Balanced.served_absent (balanced : l.Balanced) (answer : l.serve q = (.ok (), l))
    (nothing : l.asked q = 0) (same : q.resized l.size? = l.size?)
    (level : l.levels q = [l.budget.allocated]) : l.Served q := by
  refine .granted l answer ⟨?_, balanced, same.symm, rfl, rfl, ?_⟩
  · rw [nothing]
    exact Nat.zero_le _
  · rw [level]
    exact (Nat.max_eq_left balanced.highest).symm

theorem Balanced.served_reserve (balanced : l.Balanced) (name : String) (bytes : Nat) :
    l.Served (.reserve name bytes) := by
  rcases charged : l.budget.charge bytes with ⟨e | _, b⟩
  · obtain ⟨short, rfl, rfl⟩ := Budget.charge_error charged
    have same : l.reserve name bytes =
        (.error (.allocationFailed bytes l.budget.available l.budget.limit), l.refuse) := by
      rw [reserve, charged]
      rfl
    refine .refused same short ?_
    simp [levels, same, charged, refuse, balanced.highest]
  · have answer := reserve_ok name charged
    obtain ⟨fits, paid⟩ := Budget.charge_ok charged
    have room : bytes ≤ l.budget.limit - l.budget.allocated := fits
    have within := balanced.within
    have kept := balanced.size?_le name
    have fresh : name ∉ (l.held.filter fun (n, _) => n ≠ name).map Prod.fst := by simp
    have others := balanced.drop_balanced name
    rw [drop_eq] at others
    refine .granted _ answer
      ⟨fits, others.concat_balanced fresh ?_ ?_ ?_, funext (size?_add l name bytes), ?_, ?_, ?_⟩
    · rw [paid]
      simp only [Budget.release]
      omega
    · rw [paid]
      simp only [Budget.release]
      omega
    · rw [paid]
      exact Nat.le_trans (Nat.sub_le ..) (Nat.le_max_right ..)
    · rw [paid]
      rfl
    · rw [paid]
      rfl
    · have charge : (l.budget.charge bytes).2.allocated = l.budget.allocated + bytes := by
        rw [charged, paid]
      have given : (l.reserve name bytes).2.budget.allocated ≤ l.budget.allocated + bytes := by
        rw [answer, paid]
        exact Nat.sub_le ..
      change b.peak = max (max l.budget.peak (l.budget.charge bytes).2.allocated)
        (l.reserve name bytes).2.budget.allocated
      rw [charge, paid]
      exact (Nat.max_eq_left (Nat.le_trans given (Nat.le_max_right ..))).symm

theorem Balanced.served_grow (balanced : l.Balanced) (name : String) (bytes : Nat) :
    l.Served (.grow name bytes) := by
  cases there : l.size? name with
  | none =>
    apply balanced.served_absent
    · simp [serve, grow?, there]
    · simp [asked, there]
    · exact update_absent there _
    · simp [levels, serve, grow?, there]
  | some size =>
    have asks : l.asked (.grow name bytes) = bytes := by simp [asked, there]
    rcases charged : l.budget.charge bytes with ⟨e | _, b⟩
    · obtain ⟨short, rfl, rfl⟩ := Budget.charge_error charged
      have same : l.serve (.grow name bytes) =
          (.error (.allocationFailed bytes l.budget.available l.budget.limit), l.refuse) := by
        simp [serve, grow?, there, charged, refuse]
      refine .refused (asks.symm ▸ same) (lt_of_lt_of_eq short asks.symm) ?_
      simp [levels, same, refuse, balanced.highest]
    · have answer : l.serve (.grow name bytes) =
          (.ok (), ({ l with budget := b } : Ledger).resize name (size + bytes)) := by
        simp [serve, grow?, there, charged]
      obtain ⟨fits, paid⟩ := Budget.charge_ok charged
      have room : bytes ≤ l.budget.limit - l.budget.allocated := fits
      have within := balanced.within
      refine .granted _ answer
        ⟨le_of_eq_of_le asks fits, balanced.resize_balanced there ?_ ?_ ?_, ?_, ?_, ?_, ?_⟩
      · rw [paid]
        simp only
        omega
      · rw [paid]
        simp only
        omega
      · rw [paid]
        exact Nat.le_max_right ..
      · rw [size?_resize]
        change Function.update l.size? name ((l.size? name).map _) = _
        simp [Request.resized, there]
      · rw [paid]
        rfl
      · rw [paid]
        rfl
      · simp only [levels, answer, List.foldl_cons, List.foldl_nil]
        rw [paid]
        rfl

theorem Balanced.served_less (balanced : l.Balanced) (there : l.size? name = some size) {given : Nat}
    (some_given : given ≤ size)
    (answer : l.serve q = (.ok (),
      ({ l with budget := l.budget.release given } : Ledger).resize name (size - given)))
    (nothing : l.asked q = 0)
    (sizes : q.resized l.size? = Function.update l.size? name (some (size - given)))
    (level : l.levels q = [(l.serve q).2.budget.allocated]) : l.Served q := by
  have kept := balanced.size?_le name
  rw [there] at kept
  change size ≤ l.budget.allocated at kept
  refine .granted _ answer ⟨?_, balanced.resize_balanced there ?_ ?_ ?_, ?_, rfl, rfl, ?_⟩
  · rw [nothing]
    exact Nat.zero_le _
  · simp only [Budget.release]
    omega
  · exact Nat.le_trans (Nat.sub_le ..) balanced.within
  · exact Nat.le_trans (Nat.sub_le ..) balanced.highest
  · rw [size?_resize, sizes]
    change Function.update l.size? name ((l.size? name).map _) = _
    rw [there]
    rfl
  · rw [level, answer]
    exact (Nat.max_eq_left (Nat.le_trans (Nat.sub_le ..) balanced.highest)).symm

theorem Balanced.serve_balanced (balanced : l.Balanced) (q : Request) : l.Served q := by
  cases q with
  | reserve name bytes => exact balanced.served_reserve name bytes
  | grow name bytes => exact balanced.served_grow name bytes
  | shrink name bytes =>
    cases there : l.size? name with
    | none =>
      apply balanced.served_absent
      · simp [serve, shrink?, there]
      · rfl
      · exact update_absent there _
      · simp [levels, serve, shrink?, there]
    | some size =>
      apply balanced.served_less there (Nat.min_le_right bytes size)
      · simp [serve, shrink?, there]
      · rfl
      · simp only [Request.resized, there, Option.map_some]
        congr 2
        omega
      · rfl
  | free name =>
    cases there : l.size? name with
    | none =>
      apply balanced.served_absent
      · simp [serve, free?, there]
      · rfl
      · exact update_absent there _
      · simp [levels, serve, free?, there]
    | some size =>
      apply balanced.served_less there (Nat.le_refl size)
      · simp [serve, free?, there]
      · rfl
      · simp [Request.resized, there]
      · rfl
  | drop name =>
    have dropped := drop_eq l name
    refine .granted _ rfl ⟨Nat.zero_le _, balanced.drop_balanced name, size?_drop l name, ?_, ?_, ?_⟩
    · rw [dropped]
      rfl
    · rw [dropped]
      rfl
    · change (l.drop name).2.budget.peak =
        max l.budget.peak (l.drop name).2.budget.allocated
      rw [dropped]
      exact (Nat.max_eq_left (Nat.le_trans (Nat.sub_le ..) balanced.highest)).symm

/-! Any number of requests, one after another. -/

/-- A ledger with its past: the amounts that the budget has counted, and how many requests it has
refused. -/
structure Record where
  ledger : Ledger
  levels : List Nat
  refused : Nat

namespace Record

def ofLimit (limit : Nat) : Record := ⟨.ofLimit limit, [0], 0⟩

def serve (r : Record) (q : Request) : Record where
  ledger := (r.ledger.serve q).2
  levels := r.levels ++ r.ledger.levels q
  refused := match (r.ledger.serve q).1 with
    | .ok () => r.refused
    | .error _ => r.refused + 1

def after : List Request → Record → Record
  | [], r => r
  | q :: rest, r => after rest (r.serve q)

structure Kept (limit : Nat) (r : Record) : Prop where
  balanced : r.ledger.Balanced
  limit : r.ledger.budget.limit = limit
  failures : r.ledger.budget.failures = r.refused
  peak : IsGreatest {n | n ∈ r.levels} r.ledger.budget.peak

variable {limit : Nat} {r : Record}

theorem kept_ofLimit (limit : Nat) : (ofLimit limit).Kept limit := by
  refine ⟨balanced_ofLimit limit, rfl, rfl, List.mem_singleton_self 0, ?_⟩
  intro n counted
  exact Nat.le_of_eq (List.mem_singleton.mp counted)

theorem isGreatest_append (new : List Nat) {old : List Nat} {peak : Nat}
    (most : IsGreatest {n | n ∈ old} peak) :
    IsGreatest {n | n ∈ old ++ new} (new.foldl max peak) := by
  induction new generalizing old peak with
  | nil => simpa using most
  | cons n rest ih =>
    have next : IsGreatest {m | m ∈ old ++ [n]} (max peak n) := by
      refine ⟨?_, fun m counted => ?_⟩
      · rcases Nat.le_total n peak with lower | higher
        · rw [Nat.max_eq_left lower]
          exact List.mem_append_left [n] most.1
        · rw [Nat.max_eq_right higher]
          exact List.mem_append_right old (List.mem_singleton_self n)
      · rcases List.mem_append.mp counted with before | now
        · exact Nat.le_trans (most.2 before) (Nat.le_max_left ..)
        · exact List.mem_singleton.mp now ▸ Nat.le_max_right ..
    simpa using ih next

theorem Kept.serve_kept (kept : r.Kept limit) (q : Request) : (r.serve q).Kept limit := by
  obtain ⟨balanced, same, failures, peak⟩ := kept
  cases balanced.serve_balanced q with
  | granted l' answer granted =>
    refine ⟨?_, ?_, ?_, ?_⟩ <;> simp only [Record.serve, answer]
    · exact granted.balanced
    · exact granted.limit.trans same
    · exact granted.failures.trans failures
    · rw [granted.peak]
      exact isGreatest_append _ peak
  | refused answer short flat =>
    refine ⟨?_, ?_, ?_, ?_⟩ <;> simp only [Record.serve, answer]
    · exact ⟨balanced.total, balanced.within, balanced.highest, balanced.distinct⟩
    · exact same
    · exact congrArg (· + 1) failures
    · have most := isGreatest_append (r.ledger.levels q) peak
      rwa [flat] at most

theorem Kept.after_kept (kept : r.Kept limit) (qs : List Request) : (after qs r).Kept limit := by
  induction qs generalizing r with
  | nil => exact kept
  | cons q rest ih => exact ih (kept.serve_kept q)

/-- The account of a ledger is exact. -/
structure Exact (limit : Nat) (r : Record) : Prop where
  total : r.ledger.budget.allocated = r.ledger.total ∧ (r.ledger.held.map Prod.fst).Nodup
  available : r.ledger.budget.limit = limit ∧ r.ledger.budget.allocated ≤ limit ∧
    r.ledger.budget.allocated + r.ledger.budget.available = limit
  peak : IsGreatest {n | n ∈ r.levels} r.ledger.budget.peak
  failures : r.ledger.budget.failures = r.refused
  granted (q : Request) :
    (r.ledger.serve q).1 = .ok () ↔ r.ledger.asked q ≤ r.ledger.budget.available
  sizes (q : Request) : (r.ledger.serve q).1 = .ok () →
    (r.ledger.serve q).2.size? = q.resized r.ledger.size?
  refused (q : Request) (e : Fault) : (r.ledger.serve q).1 = .error e →
    e = .allocationFailed (r.ledger.asked q) r.ledger.budget.available limit ∧
      (r.ledger.serve q).2 = r.ledger.refuse

theorem Kept.kept_exact (kept : r.Kept limit) : r.Exact limit := by
  obtain ⟨balanced, same, failures, peak⟩ := kept
  have within := balanced.within
  rw [same] at within
  refine ⟨⟨balanced.total, balanced.distinct⟩, ⟨same, within, ?_⟩, peak, failures, ?_, ?_, ?_⟩
  · rw [Budget.available, same]
    omega
  · intro q
    cases balanced.serve_balanced q with
    | granted l' answer granted => simp [answer, granted.fits]
    | refused answer short _ => simp [answer, short]
  · intro q ok
    cases balanced.serve_balanced q with
    | granted l' answer granted => rw [answer, granted.sizes]
    | refused answer short _ => rw [answer] at ok; cases ok
  · intro q e no
    cases balanced.serve_balanced q with
    | granted l' answer granted => rw [answer] at no; cases no
    | refused answer short _ =>
      rw [answer] at no ⊢
      exact ⟨(Except.error.inj no).symm.trans (same ▸ rfl), rfl⟩

/-- Whatever is asked of reservations, and in whatever order, the account stays exact. -/
theorem reservations_exact (limit : Nat) (qs : List Request) :
    (after qs (ofLimit limit)).Exact limit :=
  ((kept_ofLimit limit).after_kept qs).kept_exact

/-- While a reservation is replaced, the budget counts the old one and the new one. -/
example :
    let qs := [.reserve "a" 60, .grow "a" 50, .reserve "a" 40, .shrink "a" 90, .free "a"]
    (after qs (ofLimit 100)).levels = [0, 60, 60, 60, 100, 40, 0, 0] ∧
      (after qs (ofLimit 100)).ledger.budget = ⟨100, 0, 100, 1⟩ := by
  decide

end Record

end BatchFlow.Ledger

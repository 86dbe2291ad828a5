import BatchFlow.Proofs.Aggregate.SortedRuns
import BatchFlow.Proofs.Stream.Refinement
import BatchFlow.Proofs.Stream.TypedSections

/-!
On sorted input streaming aggregation is aggregation by hashing. However the rows of a section are
cut into batches, each of its keys is delivered once.
-/
namespace BatchFlow

namespace AggregateSpec

def keyed (c : AggregateSpec) (x : Section) : Except Fault (List (List Value × Row)) :=
  match x.schema with
  | none => .ok []
  | some schema => do
    let l ← c.layout schema
    let rows ← x.rows.mapM id
    rows.mapM l.keyed

def Sorted (c : AggregateSpec) (x : Section) : Prop := ∀ pairs, c.keyed x = .ok pairs → Ascends pairs

instance (c : AggregateSpec) (x : Section) : Decidable (c.Sorted x) :=
  match keyed : c.keyed x with
  | .ok pairs => decidable_of_iff (Ascends pairs) (by simp [Sorted, keyed])
  | .error _ => .isTrue (by simp [Sorted, keyed])

def deliveredKeys (c : AggregateSpec) (piece : Piece) : List (List Value) :=
  piece.rows.map fun row => row.take c.groupBy.length

/-- What hashing makes of a section: nothing before the first batch, then one row for each key. -/
inductive Hashes (c : AggregateSpec) (x : Section) (piece : Piece) : Prop
  | unannounced (schema : x.schema = none) (taken : x.rows = []) (given : piece.rows = [])
  | grouped {schema : Schema} {l : Layout} {pairs : List (List Value × Row)} {ks : List (List Value)}
      {results : List Row} (announced : x.schema = some schema) (laid : c.layout schema = .ok l)
      (keyed : c.keyed x = .ok pairs) (groups : l.OnePerKey pairs ks results)
      (given : piece.rows = results.map l.output.readBack)
      (keys : c.deliveredKeys piece = ks.map l.readBackKey)
      (ascending : (c.deliveredKeys piece).Pairwise Value.Below)

variable {c : AggregateSpec} {x : Section} {piece : Piece}

/-- What a sorted section comes to is what hashing makes of it. -/
theorem hashes_of_reference (grouping : c.groupBy ≠ []) (typed : x.Typed) (sorted : c.Sorted x)
    (reference : c.reference x = .ok piece) : c.Hashes x piece := by
  cases announced : x.schema with
  | none =>
    simp only [AggregateSpec.reference, announced] at reference
    obtain rfl := Except.ok.inj reference
    refine .unannounced announced (List.eq_nil_iff_forall_not_mem.mpr fun r member => ?_) rfl
    obtain ⟨schema, row, there, -⟩ := typed r member
    rw [announced] at there
    cases there
  | some schema =>
    simp only [AggregateSpec.reference, announced] at reference
    obtain ⟨l, laid, reference⟩ := bind_eq_ok.mp reference
    obtain ⟨rows, read, reference⟩ := bind_eq_ok.mp reference
    obtain ⟨results, comes, reference⟩ := bind_eq_ok.mp reference
    obtain rfl := pure_eq_ok.mp reference
    have types : Schema.Types x.schema x.rows := typed
    rw [announced, mapM_id_eq_ok.mp read] at types
    have unasked : (x.asked && c.groupBy.isEmpty) = false := by simp [grouping]
    rw [unasked] at comes
    obtain ⟨pairs, keyed, -⟩ := bind_eq_ok.mp comes
    have withKeys : c.keyed x = .ok pairs := by
      simp only [AggregateSpec.keyed, announced]
      exact bind_eq_ok.mpr ⟨l, laid, bind_eq_ok.mpr ⟨rows, read, keyed⟩⟩
    obtain ⟨groups, inside⟩ :=
      Layout.results_sorted laid types.gives keyed (sorted pairs withKeys) comes
    have keys := groups.keys_delivered laid inside
    refine .grouped announced laid withKeys groups rfl keys ?_
    rw [deliveredKeys, keys]
    exact groups.delivered_ascending laid inside

end AggregateSpec

namespace Operator

variable {settings : Settings} {fs : List Fragment} {ds : List Outcome}

/-- In a run without faults over sorted sections an aggregation delivers, section by section, what
hashing makes of the rows. A batch gives a NULL back as an empty list where the type is that of
lists, and so do the rows delivered. -/
theorem aggregate_sorted {p : Plan} {c : AggregateSpec} {op : Operator (p.depth + 1)}
    (valid : settings.validate = .ok ())
    (built : (Plan.aggregate p c false).build settings = .ok op)
    (shared : ∀ f ∈ fs, f.settings = settings) (grouping : c.groupBy ≠ [])
    (made : ∀ u, .ok u ∈ op.upstream fs → u.MadeOfRows)
    (sorted : ∀ us, op.upstream fs = us.map .ok → ∀ x ∈ sections us, c.Sorted x)
    (run : (op.turns fs).1 = ds.map .ok) :
    ∃ us first later, op.upstream fs = us.map .ok ∧ sections us = first ++ later ∧
      List.Forall₂ c.Hashes first (delivered us (Outcome.throughEnd ds)) ∧
      (.endOfStream ∈ ds → later = []) := by
  have positive := batchRows_shared valid shared
  obtain ⟨a, child, rfl, below, fresh, accepted⟩ := Plan.build_aggregate built
  obtain ⟨us, es, w, given, steps⟩ :=
    fresh_run positive (built_sound below) fresh run (.ofLimit 0)
  obtain ⟨first, later, cut, references, complete⟩ := fresh.run_refines (accepted rfl) steps
  have typed : ∀ x ∈ sections us, x.Typed := by
    refine sections_typed fun u member => made u ?_
    rw [given]
    exact List.mem_map.mpr ⟨u, member, rfl⟩
  have inside : ∀ x ∈ first, x ∈ sections us := fun x member =>
    cut ▸ List.mem_append_left later member
  refine ⟨us, first, later, given, cut, ?_,
    fun ended => complete (Outcome.mem_throughEnd.mpr ended)⟩
  refine ((List.forall₂_and_left _ _).mpr ⟨inside, mapM_eq_ok.mp references⟩).imp ?_
  rintro x piece ⟨there, reference⟩
  exact AggregateSpec.hashes_of_reference grouping (typed x there) (sorted us given x there) reference

end Operator

def sampleOrdered : List Outcome :=
  [.data (sampleBatch "x" [false, true]), .data (sampleBatch "x" [true]),
    .endOfGroup (sampleBatch "x" [true]), .data (sampleBatch "x" [false])]

theorem sampleOrdered_made : ∀ u ∈ sampleOrdered, u.MadeOfRows := by
  have made (values : List Bool) (built : ∃ rows,
      Batch.ofRows ⟨[⟨"x", .boolean, true⟩]⟩ rows = .ok (sampleBatch "x" values)) :
      (sampleBatch "x" values).OfRows := ⟨_, built⟩
  intro u member b batch
  simp only [sampleOrdered, List.mem_cons, List.not_mem_nil, or_false] at member
  rcases member with rfl | rfl | rfl | rfl <;> cases batch
  · exact made _ ⟨[[.boolean false], [.boolean true]], rfl⟩
  · exact made _ ⟨[[.boolean true]], rfl⟩
  · exact made _ ⟨[[.boolean true]], rfl⟩
  · exact made _ ⟨[[.boolean false]], rfl⟩

def sampleByKey : AggregateSpec :=
  ⟨[⟨.column "x" none, "k"⟩], [⟨.countAll, [], "n"⟩], AggregateSpec.fullFraction⟩

def sampleNarrow : Settings := ⟨1, Limits.trialMemory⟩

theorem aggregate_sorted_sample :
    let fs := List.replicate 5 ⟨sampleNarrow, .ofLimit 4096, .start⟩
    ∃ (op : Operator 1) (ds us : List Outcome),
      (Plan.aggregate (.replay sampleOrdered none) sampleByKey false).build sampleNarrow = .ok op ∧
      (op.turns fs).1 = (ds ++ [Outcome.endOfStream]).map .ok ∧ op.upstream fs = us.map .ok ∧
      List.Forall₂ sampleByKey.Hashes (sections us) (delivered us (ds ++ [Outcome.endOfStream])) ∧
      (delivered us (ds ++ [Outcome.endOfStream])).map sampleByKey.deliveredKeys =
        [[], [[.boolean false], [.boolean true]], [[.boolean false]]] := by
  intro fs
  have checked : ((Plan.aggregate (.replay sampleOrdered none) sampleByKey false).build
      sampleNarrow).toOption.any (fun op : Operator 1 =>
        reachesEnd (op.turns fs).1 &&
        decide (∀ x ∈ sections (received (op.upstream fs)), sampleByKey.Sorted x) &&
        decide ((delivered (received (op.upstream fs)) (received (op.turns fs).1)).map
          sampleByKey.deliveredKeys =
            [[], [[.boolean false], [.boolean true]], [[.boolean false]]])) = true := by
    decide +kernel
  rcases built : (Plan.aggregate (.replay sampleOrdered none) sampleByKey false).build
    sampleNarrow with e | (op : Operator 1)
  · rw [built] at checked
    cases checked
  · rw [built] at checked
    obtain ⟨both, delivers⟩ := Bool.and_eq_true_iff.mp checked
    obtain ⟨ends, ordered⟩ := Bool.and_eq_true_iff.mp both
    obtain ⟨ds, run, once⟩ := reachesEnd_iff.mp ends
    have valid : Settings.validate sampleNarrow = .ok () := rfl
    have sorted : ∀ us, op.upstream fs = us.map .ok → ∀ x ∈ sections us, sampleByKey.Sorted x := by
      rintro us given
      rw [← received_eq given]
      exact of_decide_eq_true ordered
    have grouping : sampleByKey.groupBy ≠ [] := by simp [sampleByKey]
    obtain ⟨us, first, later, given, cut, hashes, complete⟩ :=
      Operator.aggregate_sorted valid built (by simp [fs]) grouping
        (fun u => Plan.madeOfRows_upstream built sampleOrdered_made fs) sorted run
    rw [complete (by simp), List.append_nil] at cut
    rw [Outcome.throughEnd_ending once] at hashes
    refine ⟨op, ds, us, rfl, run, given, cut ▸ hashes, ?_⟩
    rw [← received_eq given, ← received_eq run]
    exact of_decide_eq_true delivers

def sampleNull : List Outcome :=
  [.data ⟨⟨[⟨"t", .text, true⟩]⟩, [.flat (.ofList ⟨"t", .text, true⟩ [.null] none)], 1, none, 0⟩]

theorem sampleNull_made : ∀ u ∈ sampleNull, u.MadeOfRows := by
  intro u member b batch
  obtain rfl := List.mem_singleton.mp member
  obtain rfl := Option.some.inj batch
  exact ⟨⟨[⟨"t", .text, true⟩]⟩, [[.null]], rfl⟩

def sampleByList : AggregateSpec :=
  ⟨[⟨.cast (.column "t" none) (.array (.integer .medium)), "k"⟩], [⟨.countAll, [], "n"⟩],
    AggregateSpec.fullFraction⟩

/-- Where the type of a key is that of lists, NULL occurs and the empty list is delivered. -/
theorem null_key_delivered_empty :
    let fs := List.replicate 3 ⟨.trial, .ofLimit 4096, .start⟩
    ∃ (op : Operator 1) (ds us : List Outcome),
      (Plan.aggregate (.replay sampleNull none) sampleByList false).build .trial = .ok op ∧
      (op.turns fs).1 = (ds ++ [Outcome.endOfStream]).map .ok ∧
      op.upstream fs = (us ++ [Outcome.endOfStream]).map .ok ∧
      (∀ u, .ok u ∈ op.upstream fs → u.MadeOfRows) ∧
      (∀ x ∈ sections (us ++ [Outcome.endOfStream]), sampleByList.Sorted x) ∧
      (sections (us ++ [Outcome.endOfStream])).map sampleByList.keyed =
        [.ok [], .ok [([.null], [.null])]] ∧
      (delivered (us ++ [Outcome.endOfStream]) (ds ++ [Outcome.endOfStream])).map
        sampleByList.deliveredKeys = [[], [[.list []]]] ∧
      Value.allEqual [.null] [.list []] = false := by
  intro fs
  have checked : ((Plan.aggregate (.replay sampleNull none) sampleByList false).build
      .trial).toOption.any (fun op : Operator 1 =>
        reachesEnd (op.turns fs).1 && (reachesEnd (op.upstream fs) &&
          (decide (∀ x ∈ sections (received (op.upstream fs)), sampleByList.Sorted x) &&
            (decide ((sections (received (op.upstream fs))).map sampleByList.keyed =
                [.ok [], .ok [([.null], [.null])]]) &&
              decide ((delivered (received (op.upstream fs)) (received (op.turns fs).1)).map
                sampleByList.deliveredKeys = [[], [[.list []]]]))))) = true := by
    decide +kernel
  rcases built : (Plan.aggregate (.replay sampleNull none) sampleByList false).build
    .trial with e | (op : Operator 1)
  · rw [built] at checked
    cases checked
  · rw [built] at checked
    obtain ⟨ends, checked⟩ := Bool.and_eq_true_iff.mp checked
    obtain ⟨comes, checked⟩ := Bool.and_eq_true_iff.mp checked
    obtain ⟨ordered, checked⟩ := Bool.and_eq_true_iff.mp checked
    obtain ⟨occurs, delivers⟩ := Bool.and_eq_true_iff.mp checked
    obtain ⟨ds, run, -⟩ := reachesEnd_iff.mp ends
    obtain ⟨us, given, -⟩ := reachesEnd_iff.mp comes
    refine ⟨op, ds, us, rfl, run, given,
      fun u => Plan.madeOfRows_upstream built sampleNull_made fs, ?_⟩
    rw [← received_eq given, ← received_eq run]
    exact ⟨of_decide_eq_true ordered, of_decide_eq_true occurs, of_decide_eq_true delivers, rfl⟩

end BatchFlow

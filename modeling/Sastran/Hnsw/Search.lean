/-
What a search finds.

* `search_sound` - whatever the graph, as long as no call gets lost in it: at most `k` live nodes, each
  once and with its distance, the closest first.
* `searchLayer_exact`, `search_exact` - where the beam is as wide as the set of nodes that can be reached
  from where the descent ends: all of them are found, and none left out is closer than a hit.

The beam search is followed by its rule (`beamLoop_rule`): `Measured` holds of every search, and
`Sweeping` of one whose beam is never full, so that nothing is trimmed and the search only ends when no
candidate is left.
-/

import Mathlib.Data.Set.Card
import Mathlib.Logic.Relation
import Sastran.Hnsw.Reachable

namespace Sastran

open Partial Device

namespace HnswIndex

variable {index : HnswIndex} {id : NodeId} {layer : Nat}

section Search

variable {D : Type} [LinearOrder D] (ops : FloatOps D) (query : List F32)

/-- **The rule of the beam search**: it ends without candidates, or with one farther than all
results. -/
theorem beamLoop_rule {ef : Nat} (inv : Beam D → Prop) (post : List (Candidate D) → Prop)
    (done : ∀ beam, inv beam → beam.candidates = [] → post beam.results)
    (cut : ∀ beam closest rest, inv beam → Heap.popMax fartherBelow beam.candidates = some (closest, rest) →
      worst ops beam.results < closest.dist → post beam.results)
    (expand : ∀ beam closest rest neighbors next, inv beam →
      Heap.popMax fartherBelow beam.candidates = some (closest, rest) →
      index.neighborsAt closest.id layer = some neighbors →
      neighbors.foldlM (index.visitNeighbor ops query ef) { beam with candidates := rest } = some next →
      inv next) :
    ∀ (fuel : Nat) (beam : Beam D) (results : List (Candidate D)), inv beam →
      index.beamLoop ops query layer ef fuel beam = some results → post results := by
  intro fuel
  induction fuel with
  | zero => exact nofun
  | succ fuel ih =>
    intro beam results holds run
    unfold beamLoop at run
    cases popped : Heap.popMax fartherBelow beam.candidates with
    | none =>
      rw [popped] at run
      cases run
      exact done beam holds (Heap.popMax_eq_none.mp popped)
    | some top =>
      obtain ⟨closest, rest⟩ := top
      rw [popped] at run
      simp only at run
      split at run
      · rename_i farther
        cases run
        exact cut beam closest rest holds popped farther
      · simp only [Option.bind_eq_bind, Option.bind_eq_some_iff] at run
        obtain ⟨neighbors, found, next, expanded, run⟩ := run
        exact ih next results (expand beam closest rest neighbors next holds popped found expanded) run

/-! ### Every search -/

/-- The results are different nodes that were visited, each with its distance. -/
structure Measured (index : HnswIndex) (beam : Beam D) : Prop where
  distinct : (beam.results.map Candidate.id).Nodup
  visited : ∀ result ∈ beam.results, result.id ∈ beam.visited
  dist : ∀ result ∈ beam.results, index.distance ops query result.id = some result.dist

/-- Trimming takes one result away. -/
theorem trimmed_distinct {results : List (Candidate D)} {ef : Nat}
    (distinct : (results.map Candidate.id).Nodup) :
    ((if results.length > ef then
      match Heap.popMax closerBelow results with
      | some (_, rest) => rest
      | none => results
      else results).map Candidate.id).Nodup := by
  split
  · split
    · rename_i popped
      have perm := (Heap.popMax_perm popped).map Candidate.id
      exact (List.nodup_cons.mp (perm.nodup_iff.mp distinct)).2
    · exact distinct
  · exact distinct

theorem visitNeighbor_measured {beam next : Beam D} {neighbor : NodeId} {ef : Nat}
    (measured : Measured ops query index beam)
    (run : index.visitNeighbor ops query ef beam neighbor = some next) :
    Measured ops query index next := by
  unfold visitNeighbor at run
  split at run
  · cases run
    exact measured
  · rename_i unvisited
    simp only [Option.bind_eq_bind, Option.bind_eq_some_iff] at run
    obtain ⟨dist, found, run⟩ := run
    split at run
    · have grown : ((⟨neighbor, dist⟩ :: beam.results).map Candidate.id).Nodup := by
        refine List.nodup_cons.mpr ⟨fun member => unvisited ?_, measured.distinct⟩
        obtain ⟨result, inside, rfl⟩ := List.mem_map.mp member
        exact measured.visited result inside
      have visited : ∀ result ∈ (⟨neighbor, dist⟩ :: beam.results : List (Candidate D)),
          result.id ∈ neighbor :: beam.visited := by
        refine List.forall_mem_cons.mpr ⟨List.mem_cons_self .., fun result member => ?_⟩
        exact List.mem_cons_of_mem _ (measured.visited result member)
      have dists : ∀ result ∈ (⟨neighbor, dist⟩ :: beam.results : List (Candidate D)),
          index.distance ops query result.id = some result.dist :=
        List.forall_mem_cons.mpr ⟨found, measured.dist⟩
      cases run
      exact ⟨trimmed_distinct grown, fun result member => visited result (mem_trimmed member),
        fun result member => dists result (mem_trimmed member)⟩
    · cases run
      exact ⟨measured.distinct, fun result member =>
        List.mem_cons_of_mem _ (measured.visited result member), measured.dist⟩

/-- **Every beam search** finds different nodes, with their distances. -/
theorem searchLayer_measured {start : NodeId} {ef : Nat} {results : List (Candidate D)}
    (run : index.searchLayer ops query start layer ef = some results) :
    (results.map Candidate.id).Nodup ∧
      ∀ result ∈ results, index.distance ops query result.id = some result.dist := by
  unfold searchLayer at run
  simp only [Option.bind_eq_bind, Option.bind_eq_some_iff] at run
  obtain ⟨dist, found, run⟩ := run
  have first : Measured ops query index (⟨[start], [⟨start, dist⟩], [⟨start, dist⟩]⟩ : Beam D) := by
    refine ⟨List.nodup_singleton _, ?_, ?_⟩ <;> simp [found]
  refine beamLoop_rule ops query (Measured ops query index)
    (fun results => (results.map Candidate.id).Nodup ∧
      ∀ result ∈ results, index.distance ops query result.id = some result.dist)
    (fun beam holds _ => ⟨holds.distinct, holds.dist⟩)
    (fun beam _ _ holds _ _ => ⟨holds.distinct, holds.dist⟩) ?_ _ _ results first run
  intro beam closest rest neighbors next holds _ _ expanded
  exact foldlM_rule (fun _ beam => Measured ops query index beam)
    (fun _ _ _ _ holds visited => visitNeighbor_measured ops query holds visited)
    neighbors { beam with candidates := rest } next ⟨holds.distinct, holds.visited, holds.dist⟩ expanded

/-- Live nodes of a beam search. -/
theorem searchLayerSkippingDeleted_measured {start : NodeId} {ef : Nat} {hits : List (Candidate D)}
    (run : index.searchLayerSkippingDeleted ops query start layer ef = some hits) :
    ∃ results, index.searchLayer ops query start layer ef = some results ∧
      (results.map Candidate.id).Nodup ∧
      (∀ result ∈ results, index.distance ops query result.id = some result.dist) ∧
      hits = results.filter fun result => !index.isDeleted result.id := by
  unfold searchLayerSkippingDeleted at run
  simp only [Option.bind_eq_bind, Option.bind_eq_some_iff] at run
  obtain ⟨results, searched, filtered⟩ := run
  obtain ⟨distinct, dist⟩ := searchLayer_measured ops query searched
  have inside : ∀ result ∈ results, ∃ node, index.nodes[result.id]? = some node := by
    intro result member
    have measured := dist result member
    simp only [distance, Option.bind_eq_bind, Option.bind_eq_some_iff] at measured
    obtain ⟨node, here, _⟩ := measured
    exact ⟨node, here⟩
  have each : ∀ result ∈ results, ∃ live, (do
      let node ← index.nodes[result.id]?
      some (!node.deleted)) = some live := by
    intro result member
    obtain ⟨node, here⟩ := inside result member
    exact ⟨_, by rw [here]; rfl⟩
  have whole := filterM_some each
  simp only [Option.bind_eq_bind] at whole
  rw [whole] at filtered
  refine ⟨results, searched, distinct, dist, ?_⟩
  rw [← Option.some.inj filtered]
  refine List.filter_congr fun result member => ?_
  obtain ⟨node, here⟩ := inside result member
  simp [here, isDeleted]

end Search

/-! ### Beams that are wide enough -/

/-- The edges of a layer. -/
def Edge (index : HnswIndex) (layer : Nat) (one two : NodeId) : Prop :=
  ∃ list, index.neighborsAt one layer = some list ∧ two ∈ list

/-- The nodes the edges of a layer lead to. -/
def reached (index : HnswIndex) (layer : Nat) (start : NodeId) : Set NodeId :=
  {id | Relation.ReflTransGen (index.Edge layer) start id}

/-- The nodes that search may return. -/
def liveReached (index : HnswIndex) (layer : Nat) (start : NodeId) : Set NodeId :=
  {id | id ∈ index.reached layer start ∧ index.isDeleted id = false}

theorem start_mem_reached (index : HnswIndex) (layer : Nat) (start : NodeId) :
    start ∈ index.reached layer start :=
  Relation.ReflTransGen.refl

/-- A closed set of nodes is not left. -/
theorem Closed.reached {within : NodeId → Prop} (closed : index.Closed layer within) {start : NodeId}
    (begin : within start) (member : id ∈ index.reached layer start) : within id := by
  induction (show Relation.ReflTransGen (index.Edge layer) start id from member) with
  | refl => exact begin
  | tail before edge ih =>
    obtain ⟨list, found, all⟩ := closed _ (ih before)
    obtain ⟨list', found', inside⟩ := edge
    rw [found, Option.some.injEq] at found'
    subst found'
    exact all _ inside

theorem Edged.reached (edged : index.Edged) {start : NodeId} (has : index.HasLayer start layer)
    (member : id ∈ index.reached layer start) : index.HasLayer id layer :=
  (edged.closed layer).reached has member

theorem Edged.reached_finite (edged : index.Edged) {start : NodeId}
    (has : index.HasLayer start layer) : (index.reached layer start).Finite :=
  (Set.finite_lt_nat index.nodes.length).subset fun _ member => (edged.reached has member).inside

theorem Edged.reached_ncard_le (edged : index.Edged) {start : NodeId}
    (has : index.HasLayer start layer) : (index.reached layer start).ncard ≤ index.nodes.length := by
  have few := Set.ncard_le_ncard (t := (Finset.range index.nodes.length : Set Nat))
    fun id member => Finset.mem_coe.mpr (Finset.mem_range.mpr (edged.reached has member).inside)
  rwa [Set.ncard_coe_finset, Finset.card_range] at few

/-- Different members are at most as many as the set has. -/
theorem length_le_ncard {α : Type} [DecidableEq α] {set : Set α} (finite : set.Finite) {items : List α}
    (distinct : items.Nodup) (members : ∀ item ∈ items, item ∈ set) : items.length ≤ set.ncard := by
  rw [← List.toFinset_card_of_nodup distinct, ← Set.ncard_coe_finset]
  exact Set.ncard_le_ncard (fun item member => members item (by simpa using member)) finite

/-- Different members that are all of a set are as many as the set has. -/
theorem length_eq_ncard {α : Type} [DecidableEq α] {set : Set α} {items : List α}
    (distinct : items.Nodup) (all : ∀ item, item ∈ items ↔ item ∈ set) : items.length = set.ncard := by
  rw [← List.toFinset_card_of_nodup distinct, ← Set.ncard_coe_finset]
  congr 1
  ext item
  simpa using all item

/-- The members that pass are as many as their positions. -/
theorem length_filter_range {α : Type} (passes : α → Bool) (items : List α) :
    ((List.range items.length).filter fun i => (items[i]?).any passes).length =
      (items.filter passes).length := by
  induction items using List.reverseRecOn with
  | nil => rfl
  | append_singleton items item ih =>
    have before : (List.range items.length).filter (fun i => ((items ++ [item])[i]?).any passes) =
        (List.range items.length).filter fun i => (items[i]?).any passes := by
      refine List.filter_congr fun i member => ?_
      rw [List.getElem?_append_left (List.mem_range.mp member)]
    have last : (items ++ [item])[items.length]? = some item := List.getElem?_concat_length
    rw [List.length_append, List.length_singleton, List.range_succ, List.filter_append, before,
      List.length_append, ih, List.filter_append, List.length_append]
    congr 1
    rw [List.filter_singleton, List.filter_singleton, last, Option.any_some]
    cases passes item <;> rfl

/-- Different live nodes are at most as many as are counted. -/
theorem length_le_liveLen (index : HnswIndex) {ids : List NodeId} (distinct : ids.Nodup)
    (live : ∀ id ∈ ids, index.isDeleted id = false) : ids.length ≤ index.liveLen := by
  rw [liveLen, ← length_filter_range]
  refine (List.subperm_of_subset distinct fun id member => ?_).length_le
  have alive := live id member
  unfold isDeleted at alive
  cases here : index.nodes[id]? with
  | none =>
    rw [here] at alive
    cases alive
  | some node =>
    rw [here] at alive
    rw [List.mem_filter, List.mem_range]
    refine ⟨(List.getElem?_eq_some_iff.mp here).1, ?_⟩
    simpa [here] using alive

section Sweep

variable {D : Type} [LinearOrder D] (ops : FloatOps D) (query : List F32)

/-- A beam search that trims nothing: its results are all that it visited, and what a visited node leads
to is visited, about to be, or the node is still a candidate. -/
structure Sweeping (index : HnswIndex) (layer : Nat) (start : NodeId) (pending : List NodeId)
    (beam : Beam D) : Prop where
  distinct : beam.visited.Nodup
  results : beam.results.map Candidate.id = beam.visited
  reached : ∀ id ∈ beam.visited, id ∈ index.reached layer start
  ahead : ∀ id ∈ pending, id ∈ index.reached layer start
  candidates : ∀ candidate ∈ beam.candidates, candidate ∈ beam.results
  start : start ∈ beam.visited
  explored : ∀ id ∈ beam.visited, id ∈ beam.candidates.map Candidate.id ∨
    ∀ other, index.Edge layer id other → other ∈ beam.visited ∨ other ∈ pending

theorem visitNeighbor_sweeping {start neighbor : NodeId} {rest : List NodeId} {beam next : Beam D}
    {ef : Nat} (finite : (index.reached layer start).Finite)
    (wide : (index.reached layer start).ncard ≤ ef)
    (sweeping : Sweeping index layer start (neighbor :: rest) beam)
    (run : index.visitNeighbor ops query ef beam neighbor = some next) :
    Sweeping index layer start rest next := by
  have later : ∀ id ∈ rest, id ∈ index.reached layer start :=
    fun id member => sweeping.ahead id (List.mem_cons_of_mem _ member)
  unfold visitNeighbor at run
  split at run
  · rename_i visited
    cases run
    refine ⟨sweeping.distinct, sweeping.results, sweeping.reached, later, sweeping.candidates,
      sweeping.start, fun id member => (sweeping.explored id member).imp_right
        fun leads other edge => ?_⟩
    rcases leads other edge with inside | inside
    · exact Or.inl inside
    · rcases List.mem_cons.mp inside with rfl | inside
      · exact Or.inl visited
      · exact Or.inr inside
  · rename_i unvisited
    have distinct : (neighbor :: beam.visited).Nodup := List.nodup_cons.mpr ⟨unvisited, sweeping.distinct⟩
    have reached : ∀ id ∈ neighbor :: beam.visited, id ∈ index.reached layer start :=
      List.forall_mem_cons.mpr ⟨sweeping.ahead neighbor (List.mem_cons_self ..), sweeping.reached⟩
    -- The beam is never full: what it holds was reached, and there is more.
    have few := length_le_ncard finite distinct reached
    have length : beam.results.length = beam.visited.length := by
      rw [← sweeping.results, List.length_map]
    rw [List.length_cons] at few
    simp only [Option.bind_eq_bind, Option.bind_eq_some_iff] at run
    obtain ⟨dist, _, run⟩ := run
    rw [if_pos (Or.inr (by omega)), if_neg (by rw [List.length_cons]; omega)] at run
    cases run
    refine ⟨distinct, ?_, reached, later, ?_, List.mem_cons_of_mem _ sweeping.start, ?_⟩
    · rw [List.map_cons, sweeping.results]
    · intro candidate member
      rcases List.mem_cons.mp member with rfl | member
      · exact List.mem_cons_self ..
      · exact List.mem_cons_of_mem _ (sweeping.candidates candidate member)
    · intro id member
      rcases List.mem_cons.mp member with rfl | member
      · exact Or.inl (List.mem_cons_self ..)
      · refine (sweeping.explored id member).imp (List.mem_cons_of_mem _) fun leads other edge => ?_
        rcases leads other edge with inside | inside
        · exact Or.inl (List.mem_cons_of_mem _ inside)
        · rcases List.mem_cons.mp inside with rfl | inside
          · exact Or.inl (List.mem_cons_self ..)
          · exact Or.inr inside

/-- The candidate that is expanded leaves its neighbors to visit. -/
theorem Sweeping.expand {start : NodeId} {beam : Beam D} {closest : Candidate D}
    {rest : List (Candidate D)} {neighbors : List NodeId} (sweeping : Sweeping index layer start [] beam)
    (popped : Heap.popMax fartherBelow beam.candidates = some (closest, rest))
    (found : index.neighborsAt closest.id layer = some neighbors) :
    Sweeping index layer start neighbors { beam with candidates := rest } := by
  have visited : closest.id ∈ beam.visited := by
    rw [← sweeping.results]
    exact List.mem_map_of_mem (sweeping.candidates closest (Heap.popMax_mem popped))
  refine ⟨sweeping.distinct, sweeping.results, sweeping.reached, fun id member => ?_,
    fun candidate member => sweeping.candidates candidate (Heap.popMax_rest_mem popped member),
    sweeping.start, fun id member => ?_⟩
  · exact Relation.ReflTransGen.tail (sweeping.reached closest.id visited) ⟨neighbors, found, member⟩
  · rcases sweeping.explored id member with waiting | leads
    · obtain ⟨candidate, inside, rfl⟩ := List.mem_map.mp waiting
      rcases List.mem_cons.mp ((Heap.popMax_perm popped).mem_iff.mp inside) with rfl | inside
      · refine Or.inr fun other edge => ?_
        obtain ⟨list, here, leads⟩ := edge
        rw [found] at here
        cases here
        exact Or.inr leads
      · exact Or.inl (List.mem_map_of_mem inside)
    · refine Or.inr fun other edge => Or.inl ?_
      exact (leads other edge).resolve_right (List.not_mem_nil)

omit [LinearOrder D] in
/-- No candidate is left: all that can be reached was visited. -/
theorem Sweeping.complete {start : NodeId} {beam : Beam D} (sweeping : Sweeping index layer start [] beam)
    (empty : beam.candidates = []) :
    (beam.results.map Candidate.id).Nodup ∧
      ∀ id, id ∈ beam.results.map Candidate.id ↔ id ∈ index.reached layer start := by
  rw [sweeping.results]
  refine ⟨sweeping.distinct, fun id => ⟨sweeping.reached id, fun member => ?_⟩⟩
  induction (show Relation.ReflTransGen (index.Edge layer) start id from member) with
  | refl => exact sweeping.start
  | tail before edge ih =>
    have leads := (sweeping.explored _ (ih before)).resolve_left (by rw [empty]; exact List.not_mem_nil)
    exact (leads _ edge).resolve_right List.not_mem_nil

theorem closerBelow_strictWeak : Heap.StrictWeak (closerBelow : Candidate D → Candidate D → Bool) where
  asymm one two closer := by
    simp only [closerBelow, decide_eq_true_eq, decide_eq_false_iff_not, not_lt] at closer ⊢
    exact closer.le
  trans one two three far farther := by
    simp only [closerBelow, decide_eq_false_iff_not, not_lt] at far farther ⊢
    exact farther.trans far

/-- No result is farther than the worst one. -/
theorem le_worst {results : List (Candidate D)} {result : Candidate D} (member : result ∈ results) :
    result.dist ≤ worst ops results := by
  cases top : Heap.peek closerBelow results with
  | none =>
    rw [Heap.peek_eq_none.mp top] at member
    cases member
  | some best =>
    obtain ⟨rest, popped⟩ := Heap.peek_eq_some.mp top
    have far := Heap.popMax_max closerBelow_strictWeak popped result member
    simp only [closerBelow, decide_eq_false_iff_not, not_lt] at far
    simpa only [worst, top] using far

/-- **A wide beam finds all**: when the beam has room for every node that can be reached, each is found
once. -/
theorem searchLayer_exact {start : NodeId} {ef : Nat} {results : List (Candidate D)}
    (finite : (index.reached layer start).Finite) (wide : (index.reached layer start).ncard ≤ ef)
    (run : index.searchLayer ops query start layer ef = some results) :
    (results.map Candidate.id).Nodup ∧
      ∀ id, id ∈ results.map Candidate.id ↔ id ∈ index.reached layer start := by
  unfold searchLayer at run
  simp only [Option.bind_eq_bind, Option.bind_eq_some_iff] at run
  obtain ⟨dist, _, run⟩ := run
  have first : Sweeping index layer start []
      (⟨[start], [⟨start, dist⟩], [⟨start, dist⟩]⟩ : Beam D) := by
    refine ⟨List.nodup_singleton _, rfl, ?_, nofun, fun _ => id, List.mem_singleton_self _, ?_⟩
    · intro id member
      rw [List.mem_singleton.mp member]
      exact index.start_mem_reached layer start
    · exact fun id member => Or.inl member
  refine beamLoop_rule ops query (Sweeping index layer start [])
    (fun results => (results.map Candidate.id).Nodup ∧
      ∀ id, id ∈ results.map Candidate.id ↔ id ∈ index.reached layer start)
    (fun beam sweeping empty => sweeping.complete empty) ?_ ?_ _ _ results first run
  · -- A candidate is a result itself, so none is farther than all of them.
    intro beam closest rest sweeping popped farther
    exact absurd (le_worst ops (sweeping.candidates closest (Heap.popMax_mem popped))) (not_le.mpr farther)
  · intro beam closest rest neighbors next sweeping popped found expanded
    exact foldlM_rule (fun pending beam => Sweeping index layer start pending beam)
      (fun _ _ _ _ sweeping visited => visitNeighbor_sweeping ops query finite wide sweeping visited)
      neighbors { beam with candidates := rest } next (sweeping.expand popped found) expanded

end Sweep

/-! ### What a search answers -/

section Sorting

variable {D : Type} [LinearOrder D] (ops : FloatOps D) (query : List F32)

theorem sortByDist_perm (candidates : List (Candidate D)) : (sortByDist candidates).Perm candidates :=
  List.perm_insertionSort _ _

theorem sortByDist_sorted (candidates : List (Candidate D)) :
    (sortByDist candidates).Pairwise fun one two => one.dist ≤ two.dist := by
  have total : Std.Total fun one two : Candidate D => one.dist ≤ two.dist :=
    ⟨fun one two => le_total one.dist two.dist⟩
  have trans : IsTrans (Candidate D) fun one two => one.dist ≤ two.dist :=
    ⟨fun _ _ _ => le_trans⟩
  exact List.pairwise_insertionSort (fun one two : Candidate D => one.dist ≤ two.dist) candidates

/-- Measuring all of the nodes: the `k` closest. -/
def bruteForceTopk (index : HnswIndex) (query : List F32) (k : Nat) (ids : List NodeId) :
    Option (List (Candidate D)) := do
  let dists ← ids.mapM fun id => (index.distance ops query id).map (Candidate.mk id)
  some ((sortByDist dists).take k)

/-- Sorting the same nodes leads to the same distances. -/
theorem sortByDist_dists {one two : List (Candidate D)} (perm : one.Perm two) :
    (sortByDist one).map Candidate.dist = (sortByDist two).map Candidate.dist := by
  have same := (((sortByDist_perm one).trans perm).trans (sortByDist_perm two).symm).map Candidate.dist
  refine same.eq_of_pairwise (fun _ _ _ _ => le_antisymm) ?_ ?_ <;> rw [List.pairwise_map]
  · exact sortByDist_sorted one
  · exact sortByDist_sorted two

omit [LinearOrder D] in
/-- Measured nodes are known from their ids. -/
theorem candidates_perm {one two : List (Candidate D)}
    (first : ∀ candidate ∈ one, index.distance ops query candidate.id = some candidate.dist)
    (second : ∀ candidate ∈ two, index.distance ops query candidate.id = some candidate.dist)
    (distinct : (one.map Candidate.id).Nodup) (distinct' : (two.map Candidate.id).Nodup)
    (same : ∀ id, id ∈ one.map Candidate.id ↔ id ∈ two.map Candidate.id) : one.Perm two := by
  have across : ∀ {one two : List (Candidate D)},
      (∀ candidate ∈ one, index.distance ops query candidate.id = some candidate.dist) →
      (∀ candidate ∈ two, index.distance ops query candidate.id = some candidate.dist) →
      (∀ id, id ∈ one.map Candidate.id → id ∈ two.map Candidate.id) →
      ∀ candidate ∈ one, candidate ∈ two := by
    intro one two first second same candidate member
    obtain ⟨other, inside, equal⟩ := List.mem_map.mp (same _ (List.mem_map_of_mem member))
    have dist := second other inside
    rw [equal, first candidate member, Option.some.injEq] at dist
    obtain ⟨_, _⟩ := candidate
    obtain ⟨_, _⟩ := other
    simp only at equal dist
    rwa [← equal, dist]
  refine (List.perm_ext_iff_of_nodup distinct.of_map distinct'.of_map).mpr fun candidate => ⟨?_, ?_⟩
  · exact across first second (fun id => (same id).mp) candidate
  · exact across second first (fun id => (same id).mpr) candidate

theorem bruteForceTopk_dists {k : Nat} {live : List (Candidate D)} {ids : List NodeId}
    (dist : ∀ candidate ∈ live, index.distance ops query candidate.id = some candidate.dist)
    (distinct : (live.map Candidate.id).Nodup) (distinct' : ids.Nodup)
    (same : ∀ id, id ∈ ids ↔ id ∈ live.map Candidate.id) :
    ∃ top, index.bruteForceTopk ops query k ids = some top ∧
      top.map Candidate.dist = ((sortByDist live).take k).map Candidate.dist := by
  have each : ∀ id ∈ ids, ∃ candidate,
      (index.distance ops query id).map (Candidate.mk id) = some candidate := by
    intro id member
    obtain ⟨candidate, inside, rfl⟩ := List.mem_map.mp ((same id).mp member)
    exact ⟨_, by rw [dist candidate inside]; rfl⟩
  obtain ⟨dists, measured, all⟩ := mapM_some each
  have named : dists.map Candidate.id = ids := by
    have mapped := congrArg (List.map (Option.map Candidate.id)) all
    rw [List.map_map, List.map_map] at mapped
    refine List.map_injective_iff.mpr (Option.some_injective NodeId) ?_
    rw [List.map_map]
    refine mapped.trans (List.map_congr_left fun id member => ?_)
    obtain ⟨candidate, found⟩ := each id member
    show ((index.distance ops query id).map (Candidate.mk id)).map Candidate.id = some id
    obtain ⟨dist, here, rfl⟩ := Option.map_eq_some_iff.mp found
    rw [here]
    rfl
  have dist' : ∀ candidate ∈ dists, index.distance ops query candidate.id = some candidate.dist := by
    intro candidate member
    obtain ⟨id, _, found⟩ := mem_of_mapM_some all member
    obtain ⟨_, here, rfl⟩ := Option.map_eq_some_iff.mp found
    exact here
  have perm : dists.Perm live := by
    refine candidates_perm ops query dist' dist ?_ distinct fun id => ?_
    · rw [named]
      exact distinct'
    · rw [named, same]
  refine ⟨(sortByDist dists).take k, ?_, ?_⟩
  · rw [bruteForceTopk, measured]
    rfl
  · rw [List.map_take, List.map_take, sortByDist_dists perm]

end Sorting

section Answers

variable {D : Type} [LinearOrder D] (ops : FloatOps D) {query processed : List F32}

omit [LinearOrder D] in
theorem live_distinct {results : List (Candidate D)} (distinct : (results.map Candidate.id).Nodup) :
    ((results.filter fun result => !index.isDeleted result.id).map Candidate.id).Nodup :=
  distinct.sublist (List.filter_sublist.map _)

omit [LinearOrder D] in
/-- The live results of a beam that has all that can be reached. -/
theorem mem_live {results : List (Candidate D)} {start : NodeId}
    (all : ∀ id, id ∈ results.map Candidate.id ↔ id ∈ index.reached 0 start) (id : NodeId) :
    id ∈ (results.filter fun result => !index.isDeleted result.id).map Candidate.id ↔
      id ∈ index.liveReached 0 start := by
  constructor
  · rintro member
    obtain ⟨candidate, inside, rfl⟩ := List.mem_map.mp member
    obtain ⟨inside, alive⟩ := List.mem_filter.mp inside
    exact ⟨(all _).mp (List.mem_map_of_mem inside), by simpa using alive⟩
  · rintro ⟨member, alive⟩
    obtain ⟨candidate, inside, rfl⟩ := List.mem_map.mp ((all id).mpr member)
    exact List.mem_map_of_mem (List.mem_filter.mpr ⟨inside, by simp [alive]⟩)

/-- The nodes of the closest candidates. -/
theorem sortByDist_distinct {live : List (Candidate D)} (distinct : (live.map Candidate.id).Nodup)
    (k : Nat) :
    ((((sortByDist live).take k).map fun candidate => (candidate.id, candidate.dist)).map
      Prod.fst).Nodup := by
  rw [List.map_map]
  exact (((sortByDist_perm live).map Candidate.id).nodup_iff.mpr distinct).sublist
    ((List.take_sublist _ _).map _)

/-- The hits of a search: the beam's live results, sorted and cut. -/
theorem search_hits (navigable : index.Navigable) {entry : EntryPoint} (found : index.entry = some entry)
    (sized : query.length = index.dim) (accepted : ops.preprocessVector index.metric query = some processed)
    {k : Nat} (positive : 1 ≤ k) (small : k * 2 < u64Bound) :
    ∃ start results, index.descend ops processed 0 entry.level entry.node = some start ∧
      index.HasLayer start 0 ∧
      index.searchLayer ops processed start 0 (max index.params.efSearch (k * 2)) = some results ∧
      (results.map Candidate.id).Nodup ∧
      (∀ result ∈ results, index.distance ops processed result.id = some result.dist) ∧
      search ops query k index = .ok
        (((sortByDist (results.filter fun result => !index.isDeleted result.id)).take k).map
          fun candidate => (candidate.id, candidate.dist)) index := by
  obtain ⟨start, descended, bottom⟩ := descend_some ops processed
    (fun layer => navigable.edged.closed layer) (fun low high id below held => held.mono below) 0
    (navigable.entry entry found)
  rw [Nat.zero_min] at bottom
  have width : max (max index.params.efSearch (k * 2)) k = max index.params.efSearch (k * 2) := by
    omega
  obtain ⟨hits, searched, _⟩ := searchLayerSkippingDeleted_some ops processed
    (navigable.edged.closed 0) bottom (max index.params.efSearch (k * 2))
  obtain ⟨results, beam, distinct, dist, rfl⟩ := searchLayerSkippingDeleted_measured ops processed searched
  refine ⟨start, results, descended, bottom, beam, distinct, dist, ?_⟩
  have nonempty : ¬ (index.isEmpty = true ∨ k = 0) := by
    have inside := (navigable.entry entry found).inside
    rintro (empty | zero)
    · have none : index.nodes = [] := List.isEmpty_iff.mp empty
      rw [none] at inside
      exact absurd inside (Nat.not_lt_zero _)
    · omega
  rw [search, bind_ok (get_eq _), found]
  simp only
  rw [if_neg nonempty, if_neg (not_not.mpr sized), accepted]
  show Prog.ofOption (index.searchFrom ops processed entry k) index = _
  rw [searchFrom, descended]
  simp only [Option.bind_eq_bind, Option.bind_some]
  rw [if_neg (not_le.mpr small), width, searched]
  rfl

/-- **What a search answers**: at most `k` different live nodes, each with its distance to the processed
query, the closest first; none where no node is live. -/
theorem search_answers (navigable : index.Navigable) (sized : query.length = index.dim)
    (accepted : ops.preprocessVector index.metric query = some processed) {k : Nat}
    (small : k * 2 < u64Bound) :
    ∃ hits, search ops query k index = .ok hits index ∧ hits.length ≤ k ∧
      (hits.map Prod.fst).Nodup ∧ hits.Pairwise (fun one two => one.2 ≤ two.2) ∧
      (∀ hit ∈ hits, ∃ node, index.nodes[hit.1]? = some node ∧ node.deleted = false ∧
        hit.2 = ops.distanceForMetric index.metric processed node.vector) ∧
      ((∀ node ∈ index.nodes, node.deleted = true) → hits = []) := by
  have nothing : ∀ hits : List (NodeId × D), (∀ hit ∈ hits, ∃ node, index.nodes[hit.1]? = some node ∧
      node.deleted = false ∧ hit.2 = ops.distanceForMetric index.metric processed node.vector) →
      (∀ node ∈ index.nodes, node.deleted = true) → hits = [] := by
    intro hits live dead
    rw [List.eq_nil_iff_forall_not_mem]
    intro hit member
    obtain ⟨node, here, alive, _⟩ := live hit member
    rw [dead node (List.mem_of_getElem? here)] at alive
    cases alive
  by_cases trivial : index.entry = none ∨ k = 0
  · refine ⟨[], ?_, Nat.zero_le _, List.nodup_nil, List.Pairwise.nil,
      fun _ member => absurd member List.not_mem_nil, fun _ => rfl⟩
    rw [search, bind_ok (get_eq _)]
    cases found : index.entry with
    | none => rfl
    | some entry =>
      have zero := trivial.resolve_left (by rw [found]; exact Option.some_ne_none _)
      simp only
      rw [if_pos (Or.inr zero)]
      rfl
  · obtain ⟨missing, positive⟩ := not_or.mp trivial
    obtain ⟨entry, found⟩ := Option.ne_none_iff_exists'.mp missing
    obtain ⟨start, results, _, _, _, distinct, dist, run⟩ := search_hits ops navigable found sized
      accepted (Nat.one_le_iff_ne_zero.mpr positive) small
    obtain ⟨live, liveDef⟩ : ∃ live, live = results.filter fun result => !index.isDeleted result.id :=
      ⟨_, rfl⟩
    rw [← liveDef] at run
    have kept : ((sortByDist live).take k).Sublist (sortByDist live) := List.take_sublist _ _
    have listed : ∀ candidate ∈ (sortByDist live).take k, candidate ∈ live := fun candidate member =>
      (sortByDist_perm live).mem_iff.mp (kept.mem member)
    have sound : ∀ hit ∈ ((sortByDist live).take k).map fun candidate => (candidate.id, candidate.dist),
        ∃ node, index.nodes[hit.1]? = some node ∧ node.deleted = false ∧
          hit.2 = ops.distanceForMetric index.metric processed node.vector := by
      intro hit member
      obtain ⟨candidate, picked, rfl⟩ := List.mem_map.mp member
      obtain ⟨inside, alive⟩ := List.mem_filter.mp (liveDef ▸ listed candidate picked)
      have measured := dist candidate inside
      simp only [distance, Option.bind_eq_bind, Option.bind_eq_some_iff, Option.some.injEq] at measured
      obtain ⟨node, here, same⟩ := measured
      refine ⟨node, here, ?_, same.symm⟩
      simpa [isDeleted, here] using alive
    refine ⟨_, run, ?_, ?_, ?_, sound, nothing _ sound⟩
    · rw [List.length_map]
      exact List.length_take_le _ _
    · exact sortByDist_distinct (liveDef ▸ live_distinct distinct) k
    · rw [List.pairwise_map]
      exact (sortByDist_sorted live).sublist kept

/-- **A wide enough beam makes search exact.** On a navigable graph with an entry point, where the beam is
at least as wide as the set of nodes that can be reached from where the descent ends, the beam search
returns each of these once. The search returns as many live ones as asked for, or all, and none of
those left out is closer than a hit: the distances are those measuring all of the live nodes gives. -/
theorem search_exact (navigable : index.Navigable) {entry : EntryPoint} (found : index.entry = some entry)
    (sized : query.length = index.dim) (accepted : ops.preprocessVector index.metric query = some processed)
    {k : Nat} (positive : 1 ≤ k) (small : 2 * k < u64Bound) :
    ∃ start, index.descend ops processed 0 entry.level entry.node = some start ∧
      ((index.reached 0 start).ncard ≤ max index.params.efSearch (2 * k) →
        ∃ results, index.searchLayer ops processed start 0 (max index.params.efSearch (2 * k)) =
          some results ∧
        (results.map Candidate.id).Nodup ∧
        (∀ id, id ∈ results.map Candidate.id ↔ id ∈ index.reached 0 start) ∧
        ∃ hits, search ops query k index = .ok hits index ∧
          hits.length = min k (index.liveReached 0 start).ncard ∧
          (hits.map Prod.fst).Nodup ∧
          (∀ hit ∈ hits, hit.1 ∈ index.liveReached 0 start ∧
            index.distance ops processed hit.1 = some hit.2) ∧
          (∀ id ∈ index.liveReached 0 start, id ∉ hits.map Prod.fst → ∀ dist,
            index.distance ops processed id = some dist → ∀ hit ∈ hits, hit.2 ≤ dist) ∧
          ∀ ids : List NodeId, ids.Nodup → (∀ id, id ∈ ids ↔ id ∈ index.liveReached 0 start) →
            ∃ top, index.bruteForceTopk ops processed k ids = some top ∧
              hits.map Prod.snd = top.map Candidate.dist) := by
  obtain ⟨start, results, descended, has, beam, distinct, dist, run⟩ := search_hits ops navigable found
    sized accepted positive (by omega)
  rw [Nat.mul_comm k 2] at beam
  refine ⟨start, descended, fun wide => ?_⟩
  obtain ⟨_, all⟩ := searchLayer_exact ops processed (navigable.edged.reached_finite has) wide beam
  obtain ⟨live, liveDef⟩ : ∃ live, live = results.filter fun result => !index.isDeleted result.id :=
    ⟨_, rfl⟩
  rw [← liveDef] at run
  have distinct' : (live.map Candidate.id).Nodup := liveDef ▸ live_distinct distinct
  have dist' : ∀ candidate ∈ live, index.distance ops processed candidate.id = some candidate.dist :=
    fun candidate member => dist candidate (List.mem_of_mem_filter (liveDef ▸ member))
  have all' : ∀ id, id ∈ live.map Candidate.id ↔ id ∈ index.liveReached 0 start :=
    liveDef ▸ mem_live all
  have split : ((sortByDist live).take k ++ (sortByDist live).drop k).Pairwise
      fun one two => one.dist ≤ two.dist := by
    rw [List.take_append_drop]
    exact sortByDist_sorted live
  have kept : ((sortByDist live).take k).Sublist (sortByDist live) := List.take_sublist _ _
  refine ⟨results, beam, distinct, all, _, run, ?_, ?_, ?_, ?_, fun ids distinct'' same => ?_⟩
  · rw [List.length_map, List.length_take, (sortByDist_perm live).length_eq,
      ← length_eq_ncard distinct' all', List.length_map]
  · exact sortByDist_distinct distinct' k
  · intro hit member
    obtain ⟨candidate, picked, rfl⟩ := List.mem_map.mp member
    have inside := (sortByDist_perm live).mem_iff.mp (kept.mem picked)
    exact ⟨(all' _).mp (List.mem_map_of_mem inside), dist' candidate inside⟩
  · intro id member out far measured hit picked
    obtain ⟨candidate, inside, rfl⟩ := List.mem_map.mp ((all' id).mpr member)
    obtain ⟨closer, taken, rfl⟩ := List.mem_map.mp picked
    rw [dist' candidate inside, Option.some.injEq] at measured
    rw [← measured]
    have listed := (sortByDist_perm live).mem_iff.mpr inside
    rw [← List.take_append_drop k (sortByDist live)] at listed
    refine (List.pairwise_append.mp split).2.2 closer taken candidate
      ((List.mem_append.mp listed).resolve_left fun taken' => out ?_)
    rw [List.map_map]
    exact List.mem_map_of_mem taken'
  · obtain ⟨top, ran, same'⟩ := bruteForceTopk_dists (k := k) ops processed dist' distinct' distinct''
      fun id => (same id).trans (all' id).symm
    refine ⟨top, ran, ?_⟩
    rw [same', List.map_map]
    rfl

/-- Two nodes, and a beam that is as wide. -/
theorem search_exact_pair :
    ∃ index : HnswIndex, index.contents = [([F32.one], false), ([0], false)] ∧
      ∃ start hits, search FloatOps.zeroOne [F32.one] 1 index = .ok hits index ∧
        hits.length = min 1 (index.liveReached 0 start).ncard := by
  let params : HnswParams := ⟨.euclideanSquared, 1, 2, 1, 1, 0, 0⟩
  have first : Reachable FloatOps.zeroOne params _ :=
    Reachable.insert [F32.one] Reachable.new (by decide) rfl
  have second : Reachable FloatOps.zeroOne params _ :=
    Reachable.insert [0] first (by decide) rfl
  have navigable := second.sound.wf.navigable
  obtain ⟨start, descended, exact⟩ := search_exact FloatOps.zeroOne navigable rfl rfl
    (rfl : FloatOps.zeroOne.preprocessVector .euclideanSquared [F32.one] = some [F32.one])
    (le_refl 1) (by decide : 2 * 1 < u64Bound)
  have bottom := descend_some FloatOps.zeroOne [F32.one]
    (fun layer => navigable.edged.closed layer) (fun low high id below held => held.mono below) 0
    (navigable.entry _ rfl)
  obtain ⟨start', descended', has⟩ := bottom
  rw [descended, Option.some.injEq] at descended'
  subst descended'
  have wide := navigable.edged.reached_ncard_le has
  obtain ⟨_, _, _, _, hits, run, length, _⟩ := exact (wide.trans (le_max_right _ _))
  exact ⟨_, by decide, start, hits, run, length⟩

end Answers

/-! ### Graphs in use -/

section InUse

variable {D : Type} [LinearOrder D] (ops : FloatOps D) {hashes : Hashes}

/-- A graph that insertions and deletions, successful or not, and decoding its own snapshots lead to. A
snapshot has room for the graph, and its keys name the live nodes. -/
inductive InUse (hashes : Hashes) (params : HnswParams) : HnswIndex → Prop
  | new : InUse hashes params (new params)
  | insert {before after : HnswIndex} (vector : List F32) (reached : InUse hashes params before)
      (room : before.nodes.length + 1 < nodeIdBound) (ended : Ended (insert ops vector) before after) :
      InUse hashes params after
  | delete {before after : HnswIndex} (id : NodeId) (reached : InUse hashes params before)
      (ended : Ended (delete ops id) before after) : InUse hashes params after
  | decoded {before after : HnswIndex} {keys keys' : SortedMap Key NodeId} {marker marker' : Nat}
      (reached : InUse hashes params before) (fits : before.params.Small) (dim : before.dim < 2 ^ 32)
      (keyed : Keyed before.contents keys) (bound : marker < u64Bound)
      (run : decodeSnapshot hashes (encodeSnapshot hashes before marker keys) =
        .ok (after, keys', marker')) :
      InUse hashes params after

/-- What all of these keep. -/
structure Usable (index : HnswIndex) : Prop where
  wf : index.Wf
  metric : index.params.metric = index.metric
  room : index.nodes.length < nodeIdBound

theorem Unchanged.usable {before after : HnswIndex} (same : Unchanged before after)
    (usable : before.Usable) : after.Usable := by
  refine ⟨same.wf usable.wf, ?_, ?_⟩ <;> rw [same.rest]
  · exact usable.metric
  · exact usable.room

theorem InUse.usable {params : HnswParams} (used : InUse ops hashes params index) : index.Usable := by
  induction used with
  | new => exact ⟨new_wf params, rfl, Nat.two_pow_pos 32⟩
  | insert vector _ room ended ih =>
    rcases insert_outcome ops ih.wf (Nat.lt_of_succ_lt room) vector with
      ⟨_, after, _, run, wf, contents, params, metric, _⟩ | ⟨_, after, _, run, same⟩ <;>
      rcases ended with ⟨_, ended⟩ | ⟨_, ended⟩ <;> rw [run] at ended <;> cases ended
    · have length := congrArg List.length contents
      rw [List.length_append, contents_length, contents_length, List.length_singleton] at length
      exact ⟨wf, by rw [params, metric, ih.metric], by omega⟩
    · exact same.usable ih
  | delete id _ ended ih =>
    rcases delete_outcome ops ih.wf ih.room.le id with
      ⟨_, after, _, run, wf, contents, params, metric, _⟩ | ⟨_, _, run⟩ <;>
      rcases ended with ⟨_, ended⟩ | ⟨_, ended⟩ <;> rw [run] at ended <;> cases ended
    · have length := congrArg List.length contents
      rw [List.length_set, contents_length, contents_length] at length
      exact ⟨wf, by rw [params, metric, ih.metric], by rw [length]; exact ih.room⟩
    · exact ih
  | decoded _ fits dim keyed bound run ih =>
    rw [decode_encode ⟨ih.wf, fits, ih.metric, dim, ih.room⟩ keyed bound] at run
    cases run
    exact ⟨ih.wf.restored, ih.metric, ih.room⟩

/-- **Search results are sound.** In every graph in use, a search for a vector of its dimension that
preprocessing accepts ends with at most `k` different live nodes, each with its distance to the
processed query, the closest first, and with none where no node is live. -/
theorem search_sound {params : HnswParams} (used : InUse ops hashes params index)
    {query processed : List F32} (sized : query.length = index.dim)
    (accepted : ops.preprocessVector index.metric query = some processed) {k : Nat}
    (small : 2 * k < u64Bound) :
    ∃ hits, search ops query k index = .ok hits index ∧ hits.length ≤ k ∧
      (hits.map Prod.fst).Nodup ∧ hits.Pairwise (fun one two => one.2 ≤ two.2) ∧
      (∀ hit ∈ hits, ∃ node, index.nodes[hit.1]? = some node ∧ node.deleted = false ∧
        hit.2 = ops.distanceForMetric index.metric processed node.vector) ∧
      ((∀ node ∈ index.nodes, node.deleted = true) → hits = []) :=
  search_answers ops used.usable.wf.navigable sized accepted (by omega)

/-- Two insertions, the deletion of one of the nodes, and a search. -/
theorem search_sound_deleted :
    ∃ index : HnswIndex, index.contents = [([F32.one], true), ([0], false)] ∧
      ∃ hits, search FloatOps.zeroOne [F32.one] 2 index = .ok hits index ∧ hits.length ≤ 2 := by
  let params : HnswParams := ⟨.euclideanSquared, 1, 2, 1, 1, 0, 0⟩
  have first : InUse FloatOps.zeroOne ⟨fun _ => 0, fun _ => (0, 0)⟩ params _ :=
    InUse.insert [F32.one] InUse.new (by decide) (Or.inl ⟨_, rfl⟩)
  have second : InUse FloatOps.zeroOne ⟨fun _ => 0, fun _ => (0, 0)⟩ params _ :=
    InUse.insert [0] first (by decide) (Or.inl ⟨_, rfl⟩)
  have deleted : InUse FloatOps.zeroOne ⟨fun _ => 0, fun _ => (0, 0)⟩ params _ :=
    InUse.delete 0 second (Or.inl ⟨_, rfl⟩)
  obtain ⟨hits, run, few, _⟩ := search_sound FloatOps.zeroOne deleted rfl
    (rfl : FloatOps.zeroOne.preprocessVector .euclideanSquared [F32.one] = some [F32.one])
    (by decide : 2 * 2 < u64Bound)
  exact ⟨_, by decide, hits, run, few⟩

end InUse

end HnswIndex

end Sastran

/-
The two unbounded loops of the graph end.

A set of nodes is `Closed` at a layer when its nodes have the layer and their neighbors at the layer
are in the set. Both loops, started in a closed set, end inside it (`greedySearchLayer_some`,
`searchLayer_some`): the descent because it gets strictly closer with every step, the beam search
because it visits no node twice.
-/

import Sastran.Hnsw.Index
import Sastran.Library.Partial

namespace Sastran

open Partial

namespace HnswIndex

variable {index : HnswIndex} {id : NodeId} {layer : Nat}

/-! ### Layers -/

def HasLayer (index : HnswIndex) (id : NodeId) (layer : Nat) : Prop :=
  ∃ list, index.neighborsAt id layer = some list

theorem neighborsAt_eq_some {list : List NodeId} : index.neighborsAt id layer = some list ↔
    ∃ node, index.nodes[id]? = some node ∧ node.neighbors[layer]? = some list := by
  simp [neighborsAt, Option.bind_eq_some_iff]

theorem hasLayer_iff : index.HasLayer id layer ↔
    ∃ node, index.nodes[id]? = some node ∧ layer < node.neighbors.length := by
  constructor
  · rintro ⟨list, found⟩
    obtain ⟨node, here, at_layer⟩ := neighborsAt_eq_some.mp found
    exact ⟨node, here, (List.getElem?_eq_some_iff.mp at_layer).1⟩
  · rintro ⟨node, here, inside⟩
    exact ⟨node.neighbors[layer], neighborsAt_eq_some.mpr
      ⟨node, here, List.getElem?_eq_getElem inside⟩⟩

theorem HasLayer.inside (has : index.HasLayer id layer) : id < index.nodes.length := by
  obtain ⟨node, here, _⟩ := hasLayer_iff.mp has
  exact (List.getElem?_eq_some_iff.mp here).1

theorem HasLayer.mono {lower : Nat} (has : index.HasLayer id layer) (below : lower ≤ layer) :
    index.HasLayer id lower := by
  obtain ⟨node, here, inside⟩ := hasLayer_iff.mp has
  exact hasLayer_iff.mpr ⟨node, here, lt_of_le_of_lt below inside⟩

/-- A set of nodes with their neighbors at a layer, which they all have. -/
def Closed (index : HnswIndex) (layer : Nat) (within : NodeId → Prop) : Prop :=
  ∀ id, within id → ∃ list, index.neighborsAt id layer = some list ∧ ∀ other ∈ list, within other

theorem Closed.hasLayer {within : NodeId → Prop} (closed : index.Closed layer within)
    (member : within id) : index.HasLayer id layer := by
  obtain ⟨list, found, _⟩ := closed id member
  exact ⟨list, found⟩

section Search

variable {D : Type} [LinearOrder D] (ops : FloatOps D) {within : NodeId → Prop} (query : List F32)

omit [LinearOrder D] in
theorem distance_some (inside : id < index.nodes.length) :
    ∃ dist, index.distance ops query id = some dist := by
  refine ⟨ops.distanceForMetric index.metric query index.nodes[id].vector, ?_⟩
  simp [distance, List.getElem?_eq_getElem inside]

/-! ### Greedy descent -/

/-- How many nodes are closer than a distance. -/
def closerCount (ops : FloatOps D) (index : HnswIndex) (query : List F32) (dist : D) : Nat :=
  index.nodes.countP fun node => decide (ops.distanceForMetric index.metric query node.vector < dist)

/-- A count grows with an element only the larger test counts. -/
theorem countP_lt {α : Type} {small large : α → Bool} {items : List α}
    (wider : ∀ item ∈ items, small item → large item) {extra : α} (member : extra ∈ items)
    (counted : large extra = true) (uncounted : small extra = false) :
    items.countP small < items.countP large := by
  induction items with
  | nil => cases member
  | cons first rest ih =>
    have wider' := fun item within => wider item (List.mem_cons_of_mem first within)
    rcases List.mem_cons.mp member with rfl | member
    · rw [List.countP_cons_of_pos counted, List.countP_cons_of_neg (by simp [uncounted])]
      exact Nat.lt_succ_of_le (List.countP_mono_left wider')
    · have step : (if small first then 1 else 0) ≤ if large first then 1 else 0 := by
        have := wider first (List.mem_cons_self ..)
        split <;> split <;> simp_all
      rw [List.countP_cons, List.countP_cons]
      exact Nat.add_lt_add_of_lt_of_le (ih wider' member) step

/-- Getting closer leaves fewer nodes that are closer still. -/
theorem closerCount_lt {dist dist' : D} (measured : index.distance ops query id = some dist')
    (closer : dist' < dist) : closerCount ops index query dist' < closerCount ops index query dist := by
  simp only [distance, Option.bind_eq_bind, Option.bind_eq_some_iff, Option.some.injEq] at measured
  obtain ⟨node, here, rfl⟩ := measured
  refine countP_lt (fun other _ counted => ?_) (List.mem_of_getElem? here) (by simpa using closer)
    (by simp)
  simp only [decide_eq_true_eq] at counted ⊢
  exact counted.trans closer

/-- The closest neighbor is as close as the best so far, and closer if it is another node. -/
theorem closestNeighbor_some {current : NodeId × D} {neighbors : List NodeId}
    (member : within current.1) (measured : index.distance ops query current.1 = some current.2)
    (closed : index.Closed layer within) (inside : ∀ other ∈ neighbors, within other) :
    ∃ best, index.closestNeighbor ops query current neighbors = some best ∧ within best.1 ∧
      index.distance ops query best.1 = some best.2 ∧ (best = current ∨ best.2 < current.2) := by
  have round : ∀ neighbor rest (best : NodeId × D),
      ((∀ other ∈ neighbor :: rest, within other) ∧ within best.1 ∧
        index.distance ops query best.1 = some best.2 ∧ (best = current ∨ best.2 < current.2)) →
      ∃ next, (do
          let dist ← index.distance ops query neighbor
          some (if dist < best.2 then (neighbor, dist) else best)) = some next ∧
        (∀ other ∈ rest, within other) ∧ within next.1 ∧
        index.distance ops query next.1 = some next.2 ∧ (next = current ∨ next.2 < current.2) := by
    rintro neighbor rest best ⟨all, here, distance, progress⟩
    have next := all neighbor (List.mem_cons_self ..)
    obtain ⟨dist, found⟩ := distance_some ops query (closed.hasLayer next).inside
    refine ⟨_, by rw [found]; rfl, fun other within => all other (List.mem_cons_of_mem _ within), ?_⟩
    split
    · rename_i closer
      refine ⟨next, found, Or.inr ?_⟩
      rcases progress with rfl | progress
      · exact closer
      · exact closer.trans progress
    · exact ⟨here, distance, progress⟩
  obtain ⟨best, run, _, holds⟩ := foldlM_some
    (fun rest (best : NodeId × D) => (∀ other ∈ rest, within other) ∧ within best.1 ∧
      index.distance ops query best.1 = some best.2 ∧ (best = current ∨ best.2 < current.2))
    round neighbors current ⟨inside, member, measured, Or.inl rfl⟩
  exact ⟨best, run, holds⟩

/-- **The descent ends in the set**: fewer and fewer nodes are closer. -/
theorem greedyLoop_some (closed : index.Closed layer within) :
    ∀ (fuel : Nat) (current : NodeId × D), within current.1 →
      index.distance ops query current.1 = some current.2 →
      closerCount ops index query current.2 < fuel →
      ∃ found, index.greedyLoop ops query layer fuel current = some found ∧ within found := by
  intro fuel
  induction fuel with
  | zero => exact fun _ _ _ enough => absurd enough (Nat.not_lt_zero _)
  | succ fuel ih =>
    intro current member measured enough
    obtain ⟨neighbors, found, inside⟩ := closed current.1 member
    obtain ⟨best, run, here, distance, progress⟩ :=
      closestNeighbor_some ops query member measured closed inside
    simp only [greedyLoop, found, run, Option.bind_eq_bind, Option.bind_some]
    split
    · exact ⟨current.1, rfl, member⟩
    · rename_i moved
      rcases progress with rfl | closer
      · exact absurd rfl moved
      · have fewer := closerCount_lt ops query distance closer
        exact ih best here distance (by omega)

theorem greedySearchLayer_some (closed : index.Closed layer within) {start : NodeId}
    (member : within start) :
    ∃ found, index.greedySearchLayer ops query start layer = some found ∧ within found := by
  obtain ⟨dist, measured⟩ := distance_some ops query (closed.hasLayer member).inside
  obtain ⟨found, run, here⟩ := greedyLoop_some ops query closed (index.nodes.length + 1) (start, dist)
    member measured (Nat.lt_succ_of_le List.countP_le_length)
  exact ⟨found, by simpa [greedySearchLayer, measured] using run, here⟩

/-! ### Beam search -/

/-- The state of a beam search in a closed set: no node was visited twice, and everything found was
visited. -/
structure Searching (index : HnswIndex) (within : NodeId → Prop) (beam : Beam D) : Prop where
  nodup : beam.visited.Nodup
  visited : ∀ id ∈ beam.visited, within id
  bound : ∀ id ∈ beam.visited, id < index.nodes.length
  candidates : ∀ candidate ∈ beam.candidates, candidate.id ∈ beam.visited
  results : ∀ result ∈ beam.results, result.id ∈ beam.visited

omit [LinearOrder D] in
theorem Searching.visited_le {beam : Beam D} (searching : Searching index within beam) :
    beam.visited.length ≤ index.nodes.length := by
  have sub : beam.visited ⊆ List.range index.nodes.length :=
    fun id member => List.mem_range.mpr (searching.bound id member)
  simpa using (List.subperm_of_subset searching.nodup sub).length_le

/-- The rounds a beam search has left: one for each candidate and one for each node not visited. -/
def Beam.todo (beam : Beam D) (size : Nat) : Nat := size - beam.visited.length + beam.candidates.length

/-- The results after one more was found. -/
theorem mem_trimmed {results : List (Candidate D)} {result : Candidate D} {ef : Nat}
    (member : result ∈ if results.length > ef then
      match Heap.popMax closerBelow results with
      | some (_, rest) => rest
      | none => results
      else results) : result ∈ results := by
  split at member
  · split at member
    · rename_i rest popped
      exact Heap.popMax_rest_mem popped member
    · exact member
  · exact member

theorem visitNeighbor_some {beam : Beam D} {neighbor : NodeId} (ef : Nat)
    (searching : Searching index within beam) (member : within neighbor)
    (inside : neighbor < index.nodes.length) :
    ∃ next, index.visitNeighbor ops query ef beam neighbor = some next ∧
      Searching index within next ∧
      next.todo index.nodes.length ≤ beam.todo index.nodes.length := by
  unfold visitNeighbor
  split
  · exact ⟨beam, rfl, searching, le_refl _⟩
  · rename_i unvisited
    obtain ⟨dist, measured⟩ := distance_some ops query inside
    have grown : Searching index within { beam with visited := neighbor :: beam.visited } := by
      refine ⟨List.nodup_cons.mpr ⟨unvisited, searching.nodup⟩, ?_, ?_,
        fun candidate within => List.mem_cons_of_mem _ (searching.candidates candidate within),
        fun result within => List.mem_cons_of_mem _ (searching.results result within)⟩
      · intro id within
        rcases List.mem_cons.mp within with rfl | within
        · exact member
        · exact searching.visited id within
      · intro id within
        rcases List.mem_cons.mp within with rfl | within
        · exact inside
        · exact searching.bound id within
    have room := grown.visited_le
    simp only [List.length_cons] at room
    simp only [measured, Option.bind_eq_bind, Option.bind_some]
    split
    · refine ⟨_, rfl, ⟨grown.nodup, grown.visited, grown.bound, ?_, ?_⟩, ?_⟩
      · intro candidate within
        rcases List.mem_cons.mp within with rfl | within
        · exact List.mem_cons_self ..
        · exact grown.candidates candidate within
      · intro result within
        rcases List.mem_cons.mp (mem_trimmed within) with rfl | within
        · exact List.mem_cons_self ..
        · exact grown.results result within
      · simp only [Beam.todo, List.length_cons]
        omega
    · refine ⟨_, rfl, grown, ?_⟩
      simp only [Beam.todo, List.length_cons]
      omega

/-- **The beam search ends in the set**: every round takes a candidate away or visits a node. -/
theorem beamLoop_some (closed : index.Closed layer within) (ef : Nat) :
    ∀ (fuel : Nat) (beam : Beam D), Searching index within beam →
      beam.todo index.nodes.length < fuel →
      ∃ results, index.beamLoop ops query layer ef fuel beam = some results ∧
        ∀ result ∈ results, within result.id := by
  intro fuel
  induction fuel with
  | zero => exact fun _ _ enough => absurd enough (Nat.not_lt_zero _)
  | succ fuel ih =>
    intro beam searching enough
    have done : ∀ result ∈ beam.results, within result.id :=
      fun result member => searching.visited _ (searching.results result member)
    unfold beamLoop
    cases popped : Heap.popMax fartherBelow beam.candidates with
    | none => exact ⟨beam.results, rfl, done⟩
    | some top =>
      obtain ⟨closest, rest⟩ := top
      simp only
      split
      · exact ⟨beam.results, rfl, done⟩
      · have here := searching.visited _ (searching.candidates closest (Heap.popMax_mem popped))
        obtain ⟨neighbors, found, inside⟩ := closed closest.id here
        have popping : Searching index within { beam with candidates := rest } :=
          ⟨searching.nodup, searching.visited, searching.bound,
            fun candidate member => searching.candidates candidate (Heap.popMax_rest_mem popped member),
            searching.results⟩
        have fewer : Beam.todo { beam with candidates := rest } index.nodes.length < fuel := by
          have length := Heap.popMax_length popped
          simp only [Beam.todo] at enough ⊢
          omega
        have round : ∀ neighbor left (beam : Beam D),
            ((∀ other ∈ neighbor :: left, within other) ∧ Searching index within beam ∧
              beam.todo index.nodes.length < fuel) →
            ∃ next, index.visitNeighbor ops query ef beam neighbor = some next ∧
              (∀ other ∈ left, within other) ∧ Searching index within next ∧
              next.todo index.nodes.length < fuel := by
          rintro neighbor left beam ⟨all, going, room⟩
          have next := all neighbor (List.mem_cons_self ..)
          obtain ⟨beam', visited, going', less⟩ := visitNeighbor_some ops query ef
            going next (closed.hasLayer next).inside
          exact ⟨beam', visited, fun other member => all other (List.mem_cons_of_mem _ member), going',
            lt_of_le_of_lt less room⟩
        obtain ⟨next, run, _, expanded, less⟩ := foldlM_some
          (fun left beam => (∀ other ∈ left, within other) ∧ Searching index within beam ∧
            beam.todo index.nodes.length < fuel)
          round neighbors { beam with candidates := rest } ⟨inside, popping, fewer⟩
        obtain ⟨results, loop, all⟩ := ih next expanded less
        exact ⟨results, by simpa [found, run] using loop, all⟩

theorem searchLayer_some (closed : index.Closed layer within) {start : NodeId}
    (member : within start) (ef : Nat) :
    ∃ results, index.searchLayer ops query start layer ef = some results ∧
      ∀ result ∈ results, within result.id := by
  have inside := (closed.hasLayer member).inside
  obtain ⟨dist, measured⟩ := distance_some ops query inside
  have searching : Searching index within
      (⟨[start], [⟨start, dist⟩], [⟨start, dist⟩]⟩ : Beam D) := by
    refine ⟨List.nodup_singleton _, ?_, ?_, ?_, ?_⟩ <;>
      simp [member, inside]
  have enough : index.nodes.length - [start].length + [Candidate.mk start dist].length <
      index.nodes.length + 1 := by
    have room : 0 < index.nodes.length := Nat.lt_of_le_of_lt (Nat.zero_le start) inside
    simp only [List.length_singleton]
    omega
  obtain ⟨results, run, all⟩ := beamLoop_some ops query closed ef
    (index.nodes.length + 1) _ searching enough
  exact ⟨results, by simpa [searchLayer, measured] using run, all⟩

end Search

end HnswIndex

end Sastran

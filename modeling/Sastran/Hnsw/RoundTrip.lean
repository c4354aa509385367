/-
Reachable graphs survive their snapshots.

Search looks at the nodes, the entry point, the metric, the dimension and the search width only
(`search_congr`), and a snapshot keeps all of these (`snapshot_round_trip`).
-/

import Sastran.Hnsw.Reachable

namespace Sastran

open Device

namespace HnswIndex

variable {D : Type} [LinearOrder D] (ops : FloatOps D) {one two : HnswIndex}

/-- What a search looks at. -/
structure Alike (one two : HnswIndex) : Prop where
  nodes : two.nodes = one.nodes
  entry : two.entry = one.entry
  metric : two.metric = one.metric
  dim : two.dim = one.dim
  width : two.params.efSearch = one.params.efSearch

/-- How a search ends. -/
theorem search_result (query : List F32) (k : Nat) (index : HnswIndex) :
    (search ops query k index).result =
      match index.entry with
      | none => some (.ok [])
      | some entry =>
        if index.isEmpty ∨ k = 0 then some (.ok [])
        else if query.length ≠ index.dim then
          some (.error (.invalidArgument
            s!"query dimension mismatch: expected {index.dim}, got {query.length}"))
        else
          match ops.preprocessVector index.metric query with
          | none =>
            some (.error (.invalidArgument ("cannot search for invalid query vector " ++
              "(zero-norm for cosine, or contains non-finite values)")))
          | some processed => (index.searchFrom ops processed entry k).map .ok := by
  rw [search, bind_ok (get_eq _)]
  cases index.entry with
  | none => rfl
  | some entry =>
    simp only [ite_run]
    by_cases trivial : index.isEmpty ∨ k = 0
    · rw [if_pos trivial, if_pos trivial]
      rfl
    rw [if_neg trivial, if_neg trivial]
    by_cases mismatch : query.length ≠ index.dim
    · rw [if_pos mismatch, if_pos mismatch]
      rfl
    rw [if_neg mismatch, if_neg mismatch]
    cases ops.preprocessVector index.metric query with
    | none => rfl
    | some processed =>
      show (Prog.ofOption (index.searchFrom ops processed entry k) index).result =
        (index.searchFrom ops processed entry k).map .ok
      cases index.searchFrom ops processed entry k <;> rfl

section Congruence

variable (alike : Alike one two) (query : List F32)

include alike

omit [LinearOrder D] in
theorem Alike.distance (id : NodeId) :
    two.distance ops query id = one.distance ops query id := by
  rw [HnswIndex.distance, HnswIndex.distance, alike.nodes, alike.metric]

theorem Alike.neighborsAt (id : NodeId) (layer : Nat) :
    two.neighborsAt id layer = one.neighborsAt id layer := by
  rw [HnswIndex.neighborsAt, HnswIndex.neighborsAt, alike.nodes]

theorem Alike.closestNeighbor (best : NodeId × D) (neighbors : List NodeId) :
    two.closestNeighbor ops query best neighbors = one.closestNeighbor ops query best neighbors := by
  unfold HnswIndex.closestNeighbor
  simp only [alike.distance ops query]

theorem Alike.greedyLoop (layer fuel : Nat) (current : NodeId × D) :
    two.greedyLoop ops query layer fuel current = one.greedyLoop ops query layer fuel current := by
  induction fuel generalizing current with
  | zero => rfl
  | succ fuel ih =>
    simp only [HnswIndex.greedyLoop, alike.neighborsAt, alike.closestNeighbor ops query, ih]

theorem Alike.greedySearchLayer (start : NodeId) (layer : Nat) :
    two.greedySearchLayer ops query start layer = one.greedySearchLayer ops query start layer := by
  simp only [HnswIndex.greedySearchLayer, alike.distance ops query, alike.greedyLoop ops query,
    alike.nodes]

theorem Alike.descend (low top : Nat) (start : NodeId) :
    two.descend ops query low top start = one.descend ops query low top start := by
  unfold HnswIndex.descend
  simp only [alike.greedySearchLayer ops query]

theorem Alike.visitNeighbor (ef : Nat) :
    two.visitNeighbor ops query ef = one.visitNeighbor ops query ef := by
  funext beam neighbor
  simp only [HnswIndex.visitNeighbor, alike.distance ops query]

theorem Alike.beamLoop (layer ef fuel : Nat) (beam : Beam D) :
    two.beamLoop ops query layer ef fuel beam = one.beamLoop ops query layer ef fuel beam := by
  induction fuel generalizing beam with
  | zero => rfl
  | succ fuel ih =>
    simp only [HnswIndex.beamLoop, alike.neighborsAt, alike.visitNeighbor ops query, ih]

theorem Alike.searchLayer (start : NodeId) (layer ef : Nat) :
    two.searchLayer ops query start layer ef = one.searchLayer ops query start layer ef := by
  simp only [HnswIndex.searchLayer, alike.distance ops query, alike.beamLoop ops query, alike.nodes]

theorem Alike.searchLayerSkippingDeleted (start : NodeId) (layer ef : Nat) :
    two.searchLayerSkippingDeleted ops query start layer ef =
      one.searchLayerSkippingDeleted ops query start layer ef := by
  simp only [HnswIndex.searchLayerSkippingDeleted, alike.searchLayer ops query, alike.nodes]

theorem Alike.searchFrom (entry : EntryPoint) (k : Nat) :
    two.searchFrom ops query entry k = one.searchFrom ops query entry k := by
  simp only [HnswIndex.searchFrom, alike.descend ops query, alike.searchLayerSkippingDeleted ops query,
    alike.width]

/-- **Searches that look at the same things** end alike. -/
theorem search_congr (k : Nat) :
    (search ops query k two).result = (search ops query k one).result := by
  simp only [search_result, isEmpty, alike.entry, alike.nodes, alike.dim, alike.metric,
    alike.searchFrom ops]
  rfl

end Congruence

/-- **Snapshots round-trip.** A reachable graph whose live nodes are named by a map from keys is decoded
from its snapshot with the same map, the same marker and everything a snapshot stores, and answers
every search as before. -/
theorem snapshot_round_trip {params : HnswParams} (small : params.Small) {index : HnswIndex}
    (reachable : Reachable ops params index) (dim : index.dim < 2 ^ 32) {keys : SortedMap Key NodeId}
    (nonempty : ∀ key id, keys.find? key = some id → key ≠ [] ∧ key.length < 2 ^ 32)
    (injective : ∀ key key' id, keys.find? key = some id → keys.find? key' = some id → key = key')
    (onto : ∀ id : NodeId, (∃ key, keys.find? key = some id) ↔
      ∃ node, index.nodes[id]? = some node ∧ node.deleted = false)
    {marker : Nat} (bound : marker < u64Bound) (hashes : Hashes) :
    ∃ decoded : HnswIndex,
      decodeSnapshot hashes (encodeSnapshot hashes index marker keys) = .ok (decoded, keys, marker) ∧
      decoded.metric = index.metric ∧ decoded.params.metric = index.params.metric ∧
      decoded.params.m = index.params.m ∧ decoded.params.mMax0 = index.params.mMax0 ∧
      decoded.params.efConstruction = index.params.efConstruction ∧
      decoded.params.efSearch = index.params.efSearch ∧ decoded.params.seed = index.params.seed ∧
      decoded.dim = index.dim ∧ decoded.entry = index.entry ∧ decoded.nodes = index.nodes ∧
      ∀ query k, (search ops query k decoded).result = (search ops query k index).result := by
  have sound := reachable.sound
  have live : ∀ id : NodeId, (∃ key, keys.find? key = some id) ↔
      ∃ vector, index.contents[id]? = some (vector, false) := by
    intro id
    rw [onto, contents_getElem?]
    constructor
    · rintro ⟨node, here, alive⟩
      exact ⟨node.vector, by rw [here, Option.map_some, alive]⟩
    · rintro ⟨vector, here⟩
      obtain ⟨node, found, same⟩ := Option.map_eq_some_iff.mp here
      exact ⟨node, found, (Prod.mk.inj same).2⟩
  have keyed : Keyed index.contents keys := by
    refine ⟨fun key id found => (live id).mp ⟨key, found⟩, fun id vector here => (live id).mpr
      ⟨vector, here⟩, injective, nonempty⟩
  have encodable : index.Encodable := by
    refine ⟨sound.wf, ?_, ?_, dim, sound.room⟩
    · rw [sound.fixed]
      exact small
    · rw [sound.fixed, sound.metric]
  have alike : Alike index index.restored := ⟨rfl, rfl, rfl, rfl, rfl⟩
  exact ⟨index.restored, decode_encode encodable keyed bound, rfl, rfl, rfl, rfl, rfl, rfl,
    rfl, rfl, rfl, rfl, fun query k => search_congr ops alike query k⟩

/-- A graph of two nodes, one of them deleted, that is named by one key. -/
theorem snapshot_round_trip_deleted :
    ∃ index : HnswIndex, index.contents = [([F32.one], true), ([0], false)] ∧
      ∃ decoded : HnswIndex, decodeSnapshot ⟨fun _ => 0, fun _ => (0, 0)⟩
        (encodeSnapshot ⟨fun _ => 0, fun _ => (0, 0)⟩ index 3 (SortedMap.empty.insert [7] 1)) =
          .ok (decoded, SortedMap.empty.insert [7] 1, 3) ∧ decoded.nodes = index.nodes := by
  let params : HnswParams := ⟨.euclideanSquared, 1, 2, 1, 1, 0, 0⟩
  have first : Reachable FloatOps.zeroOne params _ :=
    Reachable.insert [F32.one] Reachable.new (by decide) rfl
  have second : Reachable FloatOps.zeroOne params _ :=
    Reachable.insert [0] first (by decide) rfl
  have deleted : Reachable FloatOps.zeroOne params _ := Reachable.delete 0 second rfl
  have named : ∀ key (id : NodeId), (SortedMap.empty.insert [7] 1 : SortedMap Key NodeId).find? key =
      some id ↔ key = [7] ∧ id = 1 := by
    intro key id
    rw [SortedMap.find?_insert]
    split <;> rename_i same
    · subst same
      simp [eq_comm]
    · simp [Ne.symm same]
  have nonempty : ∀ key (id : NodeId), (SortedMap.empty.insert [7] 1 : SortedMap Key NodeId).find? key =
      some id → key ≠ [] ∧ key.length < 2 ^ 32 := by
    intro key id found
    rw [((named key id).mp found).1]
    decide
  have injective : ∀ key key' (id : NodeId),
      (SortedMap.empty.insert [7] 1 : SortedMap Key NodeId).find? key = some id →
      (SortedMap.empty.insert [7] 1 : SortedMap Key NodeId).find? key' = some id → key = key' := by
    intro key key' id found found'
    rw [((named key id).mp found).1, ((named key' id).mp found').1]
  have small : params.Small := ⟨by decide, by decide, by decide, by decide, by decide⟩
  obtain ⟨decoded, decodes, _, _, _, _, _, _, _, _, _, nodes, _⟩ :=
    snapshot_round_trip FloatOps.zeroOne small deleted (by decide) nonempty injective
      (by
        intro id
        simp only [named]
        constructor
        · rintro ⟨_, _, rfl⟩
          exact ⟨_, rfl, rfl⟩
        · rintro ⟨node, here, live⟩
          refine ⟨[7], rfl, ?_⟩
          match id, here with
          | 0, here =>
            cases here
            cases live
          | 1, _ => rfl)
      (by decide : 3 < u64Bound) ⟨fun _ => 0, fun _ => (0, 0)⟩
  exact ⟨_, by decide, decoded, decodes, nodes⟩

end HnswIndex

end Sastran

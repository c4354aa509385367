/-
Graphs as they come up: every sequence of insertions and deletions, successful or not.

* `insert_outcome`, `delete_outcome` - how a call ends, whatever its arguments; it always does.
* `search_outcome` - so does a search.
* `graph_invariant` - what every reachable graph satisfies.
* `snapshot_round_trip` - every reachable graph survives its snapshot.
-/

import Sastran.Hnsw.Navigable
import Sastran.Hnsw.Snapshot

namespace Sastran

open Device

namespace HnswIndex

variable {D : Type} [LinearOrder D] (ops : FloatOps D) {index : HnswIndex} {id : NodeId}

/-! ### How calls end -/

/-- Fixing the dimension of an empty graph. -/
theorem Wf.withDim (wf : index.Wf) (zero : index.dim = 0) (dim : Nat) :
    ({ index with dim := dim } : HnswIndex).Wf := by
  have none := wf.sized zero
  have dims : ∀ node ∈ index.nodes, node.vector.length = dim := by
    rw [none]
    exact nofun
  exact ⟨wf.layers, dims, fun _ => none, ⟨wf.linked.edges, wf.linked.degree⟩,
    fun entry found => ⟨(wf.top entry found).live, (wf.top entry found).highest⟩, wf.alive⟩

/-- What a rejected insertion leaves: the graph, whose dimension may have been fixed. -/
structure Unchanged (before after : HnswIndex) : Prop where
  rest : after = { before with dim := after.dim }
  dim : after.dim = before.dim ∨ before.dim = 0

theorem Unchanged.refl (index : HnswIndex) : Unchanged index index := ⟨rfl, Or.inl rfl⟩

theorem Unchanged.wf {before after : HnswIndex} (same : Unchanged before after) (wf : before.Wf) :
    after.Wf := by
  rw [same.rest]
  rcases same.dim with equal | zero
  · rw [equal]
    exact wf
  · exact wf.withDim zero after.dim

/-- A vector that insertion takes: of the graph's dimension, if it has one, and accepted by the
metric. -/
def Admits (index : HnswIndex) (vector processed : List F32) : Prop :=
  vector ≠ [] ∧ (index.dim = 0 ∨ vector.length = index.dim) ∧
    ops.preprocessVector index.metric vector = some processed

/-- **How an insertion ends**: a vector the graph admits is a new live node, any other one is
rejected. -/
theorem insert_outcome (wf : index.Wf) (room : index.nodes.length < nodeIdBound)
    (vector : List F32) :
    (∃ processed after, index.Admits ops vector processed ∧
      insert ops vector index = .ok index.nodes.length after ∧ after.Wf ∧
      after.contents = index.contents ++ [(processed, false)] ∧ after.params = index.params ∧
      after.metric = index.metric ∧ after.dim = vector.length) ∨
    ∃ text after, (∀ processed, ¬ index.Admits ops vector processed) ∧
      insert ops vector index = .err (.invalidArgument text) after ∧ Unchanged index after := by
  by_cases sized : vector ≠ [] ∧ (index.dim = 0 ∨ vector.length = index.dim)
  · obtain ⟨nonempty, sized⟩ := sized
    cases accepted : ops.preprocessVector index.metric vector with
    | some processed =>
      obtain ⟨id, after, run, rfl, rest⟩ := insert_succeeds ops wf accepted nonempty sized room
      exact Or.inl ⟨processed, after, ⟨nonempty, sized, accepted⟩, run, rest⟩
    | none =>
      have established : establishDim vector index = .ok () { index with dim := vector.length } := by
        by_cases zero : index.dim = 0
        · simp [establishDim, bind_eq, zero, nonempty]
        · have same := sized.resolve_left zero
          simp [establishDim, bind_eq, zero, same]
      have run : ∃ text, insert ops vector index =
          .err (.invalidArgument text) { index with dim := vector.length } := by
        rw [insert, bind_ok established, bind_ok (get_eq _)]
        simp only [accepted]
        exact ⟨_, rfl⟩
      obtain ⟨text, run⟩ := run
      refine Or.inr ⟨text, _, ?_, run, rfl, sized.symm⟩
      rintro processed ⟨_, _, admitted⟩
      rw [accepted] at admitted
      cases admitted
  · refine Or.inr ?_
    have rejected : ∀ processed, ¬ index.Admits ops vector processed :=
      fun processed admitted => sized ⟨admitted.1, admitted.2.1⟩
    by_cases zero : index.dim = 0
    · have empty : vector = [] := by
        by_contra nonempty
        exact sized ⟨nonempty, Or.inl zero⟩
      have failed : establishDim vector index =
          .err (.invalidArgument "cannot insert zero-dimension vector") index := by
        simp [establishDim, bind_eq, zero, empty]
      exact ⟨_, index, rejected, bind_err failed _, Unchanged.refl index⟩
    · have different : vector.length ≠ index.dim := by
        intro same
        refine sized ⟨?_, Or.inr same⟩
        rintro rfl
        exact zero same.symm
      have failed : establishDim vector index = .err (.invalidArgument
          s!"vector dimension mismatch: expected {index.dim}, got {vector.length}") index := by
        simp [establishDim, bind_eq, zero, different]
      exact ⟨_, index, rejected, bind_err failed _, Unchanged.refl index⟩

/-- A rejected insertion fixes no other dimension than its vector's. -/
theorem insert_rejected_dim {vector : List F32} {error : Error} {after : HnswIndex}
    (run : insert ops vector index = .err error after) :
    after.dim = index.dim ∨ after.dim = vector.length := by
  rw [insert, bind_eq] at run
  have established : Ensures (establishDim vector) index fun _ middle =>
      middle.dim = index.dim ∨ middle.dim = vector.length := by
    refine Ensures.bind_ok (get_eq _) (Ensures.ite (fun _ => ?_) fun _ => ?_)
    · exact Ensures.ite (fun _ => Ensures.throw) fun _ _ _ run => by cases run; exact Or.inr rfl
    · exact Ensures.ite (fun _ => Ensures.throw) fun _ => Ensures.pure (Or.inl rfl)
  cases ran : establishDim vector index with
  | ok value middle =>
    rw [ran] at run
    simp only [bind_ok (get_eq _)] at run
    cases accepted : ops.preprocessVector middle.metric vector with
    | none =>
      rw [accepted] at run
      cases run
      exact established _ _ ran
    | some processed =>
      rw [accepted] at run
      simp only [bind_eq] at run
      cases added : middle.addNode ops processed with
      | none => rw [added] at run; cases run
      | some result => rw [added] at run; cases run
  | err error' middle =>
    rw [ran] at run
    cases run
    refine Or.inl ?_
    simp only [establishDim, bind_ok (get_eq _), ite_run] at ran
    split at ran
    · split at ran <;> cases ran
      rfl
    · split at ran <;> cases ran
      rfl
  | stuck => rw [ran] at run; cases run

/-- **How a deletion ends**: a live node is marked, any other id is rejected. -/
theorem delete_outcome (wf : index.Wf) (room : index.nodes.length ≤ nodeIdBound) (id : NodeId) :
    (∃ vector after, index.contents[id]? = some (vector, false) ∧
      delete ops id index = .ok () after ∧ after.Wf ∧
      after.contents = index.contents.set id (vector, true) ∧ after.params = index.params ∧
      after.metric = index.metric ∧ after.dim = index.dim) ∨
    ∃ text, (∀ vector, index.contents[id]? ≠ some (vector, false)) ∧
      delete ops id index = .err (.invalidArgument text) index := by
  by_cases live : ∃ vector, index.contents[id]? = some (vector, false)
  · obtain ⟨vector, live⟩ := live
    obtain ⟨⟨⟩, after, run, rest⟩ := delete_succeeds ops wf live room
    exact Or.inl ⟨vector, after, live, run, rest⟩
  · refine Or.inr ?_
    have dead := not_exists.mp live
    by_cases inside : id < index.nodes.length
    · have deleted : index.isDeleted id = true := by
        have found := List.getElem?_eq_getElem inside
        cases alive : index.nodes[id].deleted with
        | true => simp [isDeleted, found, alive]
        | false =>
          refine absurd ?_ (dead index.nodes[id].vector)
          rw [contents_getElem?, found, Option.map_some, alive]
      have failed : delete ops id index =
          .err (.invalidArgument s!"delete: id {id} is already deleted") index := by
        rw [delete, bind_ok (get_eq _), if_neg (not_le.mpr inside), if_pos deleted]
        rfl
      exact ⟨_, dead, failed⟩
    · have failed : delete ops id index = .err (.invalidArgument
          s!"delete: id {id} out of range (arena size {index.nodes.length})") index := by
        rw [delete, bind_ok (get_eq _), if_pos (not_lt.mp inside)]
        rfl
      exact ⟨_, dead, failed⟩

/-- **A search ends**, and changes nothing. -/
theorem search_outcome (wf : index.Wf) (query : List F32) {k : Nat} (small : k * 2 < u64Bound) :
    (∃ hits, search ops query k index = .ok hits index) ∨
      ∃ text, search ops query k index = .err (.invalidArgument text) index :=
  search_navigable ops wf.navigable query small

/-! ### Reachable graphs -/

/-- A graph some sequence of insertions and deletions leads to, in which there are always fewer nodes
than ids. Calls may fail. -/
inductive Reachable (params : HnswParams) : HnswIndex → Prop
  | new : Reachable params (new params)
  | insert {index after : HnswIndex} {id : NodeId} (vector : List F32)
      (reached : Reachable params index) (room : index.nodes.length + 1 < nodeIdBound)
      (run : HnswIndex.insert ops vector index = .ok id after) : Reachable params after
  | insertFailed {index after : HnswIndex} {error : Error} (vector : List F32)
      (reached : Reachable params index) (room : index.nodes.length + 1 < nodeIdBound)
      (run : HnswIndex.insert ops vector index = .err error after) : Reachable params after
  | delete {index after : HnswIndex} (id : NodeId) (reached : Reachable params index)
      (run : HnswIndex.delete ops id index = .ok () after) : Reachable params after
  | deleteFailed {index after : HnswIndex} {error : Error} (id : NodeId)
      (reached : Reachable params index)
      (run : HnswIndex.delete ops id index = .err error after) : Reachable params after

/-- What the steps keep. -/
structure Sound (params : HnswParams) (index : HnswIndex) : Prop where
  wf : index.Wf
  fixed : index.params = params
  metric : index.metric = params.metric
  room : index.nodes.length < nodeIdBound

theorem Unchanged.sound {params : HnswParams} {before after : HnswIndex}
    (same : Unchanged before after) (sound : Sound params before) : Sound params after := by
  refine ⟨same.wf sound.wf, ?_, ?_, ?_⟩ <;> rw [same.rest]
  · exact sound.fixed
  · exact sound.metric
  · exact sound.room

/-- **Every reachable graph is sound.** -/
theorem Reachable.sound {params : HnswParams} (reachable : Reachable ops params index) :
    Sound params index := by
  induction reachable with
  | new => exact ⟨new_wf params, rfl, rfl, Nat.two_pow_pos 32⟩
  | insert vector _ room run ih =>
    rcases insert_outcome ops ih.wf (Nat.lt_of_succ_lt room) vector with
      ⟨_, after, _, run', wf, contents, params, metric, _⟩ | ⟨_, after, _, run', _⟩
    · rw [run'] at run
      cases run
      have length := congrArg List.length contents
      rw [List.length_append, contents_length, contents_length, List.length_singleton] at length
      exact ⟨wf, params.trans ih.fixed, metric.trans ih.metric, by omega⟩
    · rw [run'] at run
      cases run
  | insertFailed vector _ room run ih =>
    rcases insert_outcome ops ih.wf (Nat.lt_of_succ_lt room) vector with
      ⟨_, after, _, run', _⟩ | ⟨_, after, _, run', same⟩
    · rw [run'] at run
      cases run
    · rw [run'] at run
      cases run
      exact same.sound ih
  | delete id _ run ih =>
    rcases delete_outcome ops ih.wf ih.room.le id with
      ⟨_, after, _, run', wf, contents, params, metric, _⟩ | ⟨_, _, run'⟩
    · rw [run'] at run
      cases run
      have length := congrArg List.length contents
      rw [List.length_set, contents_length, contents_length] at length
      exact ⟨wf, params.trans ih.fixed, metric.trans ih.metric, by rw [length]; exact ih.room⟩
    · rw [run'] at run
      cases run
  | deleteFailed id _ run ih =>
    rcases delete_outcome ops ih.wf ih.room.le id with ⟨_, after, _, run', _⟩ | ⟨_, _, run'⟩
    · rw [run'] at run
      cases run
    · rw [run'] at run
      cases run
      exact ih

/-- **The graph representation invariant.** Every node of a reachable graph has between 1 and 31 layers
and a vector of the graph's dimension; a neighbor is another node that has the layer too, and there
are at most `mMax0` of them at layer 0 and `m` above. The entry point is a live node at its top layer,
no live node is higher, and there is one whenever a node is live. So no call fails to end. -/
theorem graph_invariant {params : HnswParams} (wide : params.m ≤ params.mMax0)
    (reachable : Reachable ops params index) :
    (∀ node ∈ index.nodes, 1 ≤ node.neighbors.length ∧ node.neighbors.length ≤ 31 ∧
      node.vector.length = index.dim) ∧
    (∀ (id : NodeId) (node : Node) (layer : Nat) (list : List NodeId),
      index.nodes[id]? = some node → node.neighbors[layer]? = some list →
      list.length ≤ (if layer = 0 then params.mMax0 else params.m) ∧
      ∀ other ∈ list, other ≠ id ∧
        ∃ neighbor : Node, index.nodes[other]? = some neighbor ∧ layer < neighbor.neighbors.length) ∧
    (index.entry = none ↔ ∀ node ∈ index.nodes, node.deleted = true) ∧
    (∀ point, index.entry = some point → ∃ node, index.nodes[point.node]? = some node ∧
      node.deleted = false ∧ node.neighbors.length = point.level + 1 ∧
      ∀ other ∈ index.nodes, other.deleted = false →
        other.neighbors.length ≤ node.neighbors.length) ∧
    (∀ vector, HnswIndex.insert ops vector index ≠ .stuck) ∧
    (∀ id, HnswIndex.delete ops id index ≠ .stuck) ∧
    ∀ query k, k * 2 < u64Bound → search ops query k index ≠ .stuck := by
  have sound := reachable.sound
  have wf := sound.wf
  refine ⟨fun node member => ⟨(wf.layers node member).1, (wf.layers node member).2,
    wf.dims node member⟩, ?_, ?_, ?_, ?_, ?_, ?_⟩
  · intro id node layer list here atLayer
    have found := neighborsAt_eq_some.mpr ⟨node, here, atLayer⟩
    refine ⟨?_, fun other member => ?_⟩
    · have few := wf.linked.degree id layer list found List.not_mem_nil
      rw [bound, maxDegree, sound.fixed] at few
      split at few <;> rename_i bottom
      · rwa [if_pos bottom, ← max_eq_right wide]
      · rwa [if_neg bottom, ← max_self params.m]
    · obtain ⟨different, has⟩ := wf.linked.edges id layer list found other member
      exact ⟨different, hasLayer_iff.mp has⟩
  · refine ⟨wf.alive, fun dead => ?_⟩
    cases found : index.entry with
    | none => rfl
    | some point =>
      obtain ⟨node, here, live, _⟩ := (wf.top point found).live
      rw [dead node (List.mem_of_getElem? here)] at live
      cases live
  · intro point found
    obtain ⟨⟨node, here, live, level⟩, highest⟩ := wf.top point found
    refine ⟨node, here, live, level, fun other member alive => ?_⟩
    rw [level]
    exact highest other member alive
  · intro vector
    rcases insert_outcome ops wf sound.room vector with ⟨_, _, _, run, _⟩ | ⟨_, _, _, run, _⟩ <;>
      rw [run] <;> intro same <;> cases same
  · intro id
    rcases delete_outcome ops wf sound.room.le id with ⟨_, _, _, run, _⟩ | ⟨_, _, run⟩ <;>
      rw [run] <;> intro same <;> cases same
  · intro query k small
    rcases search_outcome ops wf query small with ⟨_, run⟩ | ⟨_, run⟩ <;> rw [run] <;>
      intro same <;> cases same

/-- Two insertions, one that is rejected, and the deletion of the entry point. -/
theorem graph_invariant_deleted :
    ∃ index : HnswIndex, index.contents = [([F32.one], true), ([0], false)] ∧
      ∀ node ∈ index.nodes, 1 ≤ node.neighbors.length ∧ node.neighbors.length ≤ 31 ∧
        node.vector.length = index.dim := by
  let params : HnswParams := ⟨.euclideanSquared, 1, 2, 1, 1, 0, 0⟩
  have first : Reachable FloatOps.zeroOne params _ :=
    Reachable.insert [F32.one] Reachable.new (by decide) rfl
  have second : Reachable FloatOps.zeroOne params _ :=
    Reachable.insert [0] first (by decide) rfl
  have rejected : Reachable FloatOps.zeroOne params _ :=
    Reachable.insertFailed [0, 0] second (by decide) rfl
  have deleted : Reachable FloatOps.zeroOne params _ := Reachable.delete 0 rejected rfl
  exact ⟨_, by decide, (graph_invariant FloatOps.zeroOne (by decide) deleted).1⟩

end HnswIndex

end Sastran

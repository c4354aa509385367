/-
What the slots of any graph store, well formed or not.

Linking, trimming and repairing rewrite neighbor lists only, so a call that returns leaves every
vector and every deleted mark as it was, but for the node it inserts or deletes. Nothing is assumed
about the graph, which may come from a file.

* `insert_slots`, `delete_slots` - what a call does to the slots, however it ends.
-/

import Sastran.Hnsw.Arena

namespace Sastran

open Device

namespace HnswIndex

variable {index after : HnswIndex} {id : NodeId} {layer : Nat}

theorem modifyLayer_contents {change : List NodeId → List NodeId}
    (run : index.modifyLayer id layer change = some after) : after.contents = index.contents := by
  obtain ⟨node, here, run⟩ := Option.bind_eq_some_iff.mp run
  obtain ⟨list, _, run⟩ := Option.bind_eq_some_iff.mp run
  cases run
  refine List.ext_getElem? fun other => ?_
  rw [contents_getElem?, contents_getElem?, List.getElem?_set]
  split
  · rename_i same
    subst same
    have inside := (List.getElem?_eq_some_iff.mp here).1
    rw [if_pos inside, here]
    rfl
  · rfl

section Links

variable {D : Type} [LinearOrder D] (ops : FloatOps D)

theorem trimNeighbors_contents {max : Nat} (run : index.trimNeighbors ops id layer max = some after) :
    after.contents = index.contents := by
  obtain ⟨neighbors, _, run⟩ := Option.bind_eq_some_iff.mp run
  split at run
  · cases run
    rfl
  obtain ⟨node, _, run⟩ := Option.bind_eq_some_iff.mp run
  obtain ⟨candidates, _, run⟩ := Option.bind_eq_some_iff.mp run
  obtain ⟨kept, _, run⟩ := Option.bind_eq_some_iff.mp run
  exact modifyLayer_contents run

theorem trimOver_contents {max : Nat} (run : index.trimOver ops id layer max = some after) :
    after.contents = index.contents := by
  obtain ⟨neighbors, _, run⟩ := Option.bind_eq_some_iff.mp run
  split at run
  · exact trimNeighbors_contents ops run
  · cases run
    rfl

theorem wire_contents {max : Nat} {other : NodeId}
    (run : index.wire ops id layer max other = some after) : after.contents = index.contents := by
  obtain ⟨modified, stepped, run⟩ := Option.bind_eq_some_iff.mp run
  rw [trimOver_contents ops run, modifyLayer_contents stepped]

theorem linkLayer_contents {query : List F32} {state next : HnswIndex × NodeId}
    (run : linkLayer ops query id state layer = some next) :
    next.1.contents = state.1.contents := by
  obtain ⟨candidates, _, run⟩ := Option.bind_eq_some_iff.mp run
  obtain ⟨neighbors, _, run⟩ := Option.bind_eq_some_iff.mp run
  obtain ⟨linked, modified, run⟩ := Option.bind_eq_some_iff.mp run
  obtain ⟨wired, folded, run⟩ := Option.bind_eq_some_iff.mp run
  cases run
  rw [← modifyLayer_contents modified]
  exact Partial.foldlM_keeps contents (fun _ _ _ => wire_contents ops) neighbors linked folded

theorem linkLayers_contents {query : List F32} {start : NodeId} {top : Nat}
    (run : index.linkLayers ops query id start top = some after) :
    after.contents = index.contents := by
  obtain ⟨linked, folded, run⟩ := Option.bind_eq_some_iff.mp run
  cases run
  exact Partial.foldlM_keeps (fun state : HnswIndex × NodeId => state.1.contents)
    (fun _ _ _ => linkLayer_contents ops) _ _ folded

theorem repairNeighbor_contents {deletedId : NodeId}
    (run : repairNeighbor ops deletedId layer index id = some after) :
    after.contents = index.contents := by
  obtain ⟨cut, modified, run⟩ := Option.bind_eq_some_iff.mp run
  obtain ⟨node, _, run⟩ := Option.bind_eq_some_iff.mp run
  obtain ⟨raw, _, run⟩ := Option.bind_eq_some_iff.mp run
  obtain ⟨linked, _, run⟩ := Option.bind_eq_some_iff.mp run
  obtain ⟨chosen, _, run⟩ := Option.bind_eq_some_iff.mp run
  obtain ⟨wired, folded, run⟩ := Option.bind_eq_some_iff.mp run
  rw [trimOver_contents ops run, ← modifyLayer_contents modified]
  refine Partial.foldlM_keeps contents (fun value candidate next stepped => ?_) _ _ folded
  obtain ⟨pushed, modified, wired⟩ := Option.bind_eq_some_iff.mp stepped
  rw [wire_contents ops wired, modifyLayer_contents modified]

theorem repairLayerAfterDelete_contents {deletedId : NodeId}
    (run : repairLayerAfterDelete ops deletedId index layer = some after) :
    after.contents = index.contents := by
  obtain ⟨neighbors, _, run⟩ := Option.bind_eq_some_iff.mp run
  obtain ⟨affected, _, run⟩ := Option.bind_eq_some_iff.mp run
  exact Partial.foldlM_keeps contents (fun _ _ _ => repairNeighbor_contents ops) _ _ run

/-! ### Insertion and deletion -/

theorem grow_contents (processed : List F32) (level : Nat) :
    (index.grow processed level).contents = index.contents ++ [(processed, false)] := by
  simp [grow, contents]

theorem addNode_contents {processed : List F32} (run : index.addNode ops processed = some (id, after)) :
    id = index.nodes.length % nodeIdBound ∧
      after.contents = index.contents ++ [(processed, false)] := by
  cases found : index.entry with
  | none =>
    simp only [addNode, found, Option.some.injEq, Prod.mk.injEq] at run
    obtain ⟨rfl, rfl⟩ := run
    exact ⟨rfl, grow_contents processed _⟩
  | some entry =>
    simp only [addNode, found] at run
    obtain ⟨start, _, run⟩ := Option.bind_eq_some_iff.mp run
    obtain ⟨linked, layers, run⟩ := Option.bind_eq_some_iff.mp run
    simp only [Option.some.injEq, Prod.mk.injEq] at run
    obtain ⟨rfl, rfl⟩ := run
    refine ⟨rfl, ?_⟩
    have raised : ∀ top point, (linked.raiseEntry top point).contents = linked.contents := by
      intro top point
      unfold raiseEntry
      split <;> rfl
    rw [raised, linkLayers_contents ops layers, grow_contents]

theorem removeNode_contents (run : index.removeNode ops id = some after) :
    ∃ vector deleted, index.contents[id]? = some (vector, deleted) ∧
      after.contents = index.contents.set id (vector, true) := by
  obtain ⟨node, here, run⟩ := Option.bind_eq_some_iff.mp run
  refine ⟨node.vector, node.deleted, by rw [contents_getElem?, here]; rfl, ?_⟩
  have marked : ∀ nodes, nodes = index.nodes.set id { node with deleted := true } →
      ({ index with nodes := nodes } : HnswIndex).contents =
        index.contents.set id (node.vector, true) := by
    rintro _ rfl
    simp only [contents, List.map_set]
  split at run
  · cases run
  obtain ⟨repaired, folded, run⟩ := Option.bind_eq_some_iff.mp run
  have kept := Partial.foldlM_keeps contents
    (fun _ _ _ => repairLayerAfterDelete_contents ops) _ _ folded
  rw [marked _ rfl] at kept
  split at run
  · obtain ⟨entry, _, run⟩ := Option.bind_eq_some_iff.mp run
    cases run
    exact kept
  · cases run
    exact kept

/-- **What an insertion does to the slots**: there is one more, live, or they are as they were. -/
theorem insert_slots (ops : FloatOps D) (vector : List F32) (index : HnswIndex) :
    (∀ id after, insert ops vector index = .ok id after →
      id = index.nodes.length % nodeIdBound ∧
      ∃ processed, after.contents = index.contents ++ [(processed, false)]) ∧
    ∀ error after, insert ops vector index = .err error after →
      after.contents = index.contents := by
  have established : (∃ middle, establishDim vector index = .ok () middle ∧
      middle.contents = index.contents ∧ middle.nodes = index.nodes) ∨
      ∃ error, establishDim vector index = .err error index := by
    rw [establishDim, bind_ok (get_eq _)]
    simp only [ite_run]
    split
    · split
      · exact Or.inr ⟨_, rfl⟩
      · exact Or.inl ⟨_, rfl, rfl, rfl⟩
    · split
      · exact Or.inr ⟨_, rfl⟩
      · exact Or.inl ⟨_, rfl, rfl, rfl⟩
  rcases established with ⟨middle, run, contents, nodes⟩ | ⟨error, run⟩
  · rw [insert, bind_ok run, bind_ok (get_eq _)]
    cases ops.preprocessVector middle.metric vector with
    | none =>
      refine ⟨nofun, fun error after ended => ?_⟩
      cases ended
      exact contents
    | some processed =>
      simp only
      cases added : middle.addNode ops processed with
      | none => exact ⟨nofun, nofun⟩
      | some result =>
        refine ⟨fun id after ended => ?_, nofun⟩
        cases ended
        obtain ⟨same, grown⟩ := addNode_contents ops added
        exact ⟨by rw [same, nodes], processed, by rw [grown, contents]⟩
  · rw [insert, bind_err run]
    refine ⟨nofun, fun error after ended => ?_⟩
    cases ended
    rfl

/-- **What a deletion does to the slots**: a live one is marked, or they are as they were. -/
theorem delete_slots (ops : FloatOps D) (id : NodeId) (index : HnswIndex) :
    (∀ value after, delete ops id index = .ok value after →
      ∃ vector, index.contents[id]? = some (vector, false) ∧
        after.contents = index.contents.set id (vector, true)) ∧
    ∀ error after, delete ops id index = .err error after →
      after = index ∧ ∀ vector, index.contents[id]? ≠ some (vector, false) := by
  rw [delete, bind_ok (get_eq _)]
  simp only [ite_run]
  split <;> rename_i outside
  · refine ⟨fun _ _ ended => (by cases ended), fun error after ended => ?_⟩
    cases ended
    refine ⟨rfl, fun vector here => ?_⟩
    have inside := (List.getElem?_eq_some_iff.mp here).1
    rw [contents_length] at inside
    exact absurd inside (not_lt.mpr outside)
  split <;> rename_i marked
  · refine ⟨fun _ _ ended => (by cases ended), fun error after ended => ?_⟩
    cases ended
    refine ⟨rfl, fun vector here => ?_⟩
    rw [contents_getElem?] at here
    obtain ⟨node, found, same⟩ := Option.map_eq_some_iff.mp here
    have alive := (Prod.mk.inj same).2
    simp [isDeleted, found, alive] at marked
  · cases removed : index.removeNode ops id with
    | none => exact ⟨fun _ _ ended => (by cases ended), fun _ _ ended => (by cases ended)⟩
    | some result =>
      refine ⟨fun value after ended => ?_, fun _ _ ended => (by cases ended)⟩
      cases ended
      obtain ⟨vector, deleted, here, set⟩ := removeNode_contents ops removed
      refine ⟨vector, ?_, set⟩
      rw [contents_getElem?] at here ⊢
      obtain ⟨node, found, same⟩ := Option.map_eq_some_iff.mp here
      rw [isDeleted, found] at marked
      rw [found, Option.map_some, (Prod.mk.inj same).1]
      simpa using marked

end Links

end HnswIndex

end Sastran

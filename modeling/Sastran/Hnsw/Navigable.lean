/-
Graphs no call gets lost in.

`Navigable` is what insertion, deletion and search need of a graph so that no neighbor list is missing:
every node has a layer, the neighbors at a layer have it too, and so has the entry point its level. It
says nothing about how the graph came up, so it also covers graphs read from snapshots. Calls on such
a graph never hang (`Continued.calls`), and they keep it navigable (`Continued.navigable`) while there
are fewer nodes than ids.
-/

import Sastran.Hnsw.Arena

namespace Sastran

open Partial Device

namespace HnswIndex

variable {index : HnswIndex} {id : NodeId} {layer : Nat}

/-- The neighbors at a layer have the layer. -/
def Edged (index : HnswIndex) : Prop :=
  ∀ id layer list, index.neighborsAt id layer = some list → ∀ other ∈ list, index.HasLayer other layer

/-- A graph no call gets lost in. -/
structure Navigable (index : HnswIndex) : Prop where
  layers : ∀ node ∈ index.nodes, node.neighbors ≠ []
  edged : index.Edged
  entry : ∀ point, index.entry = some point → index.HasLayer point.node point.level

theorem Wf.navigable (wf : index.Wf) : index.Navigable := by
  refine ⟨fun node member empty => ?_, fun id layer list found other member => ?_, fun point found => ?_⟩
  · have low := (wf.layers node member).1
    rw [empty] at low
    exact absurd low (Nat.not_succ_le_zero 0)
  · exact (wf.linked.edges id layer list found other member).2
  · obtain ⟨node, here, _, level⟩ := (wf.top point found).live
    exact hasLayer_iff.mpr ⟨node, here, by omega⟩

/-- The nodes that have a layer are closed at it. -/
theorem Edged.closed (edged : index.Edged) (layer : Nat) :
    index.Closed layer fun id => index.HasLayer id layer := by
  rintro id ⟨list, found⟩
  exact ⟨list, found, edged id layer list found⟩

/-! ### Surgery -/

/-- A list is changed to one that leads to nodes of the layer. -/
theorem modifyLayer_edged {list : List NodeId} (here : index.neighborsAt id layer = some list)
    (edged : index.Edged) (change : List NodeId → List NodeId)
    (edges : ∀ other ∈ change list, index.HasLayer other layer) :
    ∃ after, index.modifyLayer id layer change = some after ∧ SameShape index after ∧ after.Edged := by
  obtain ⟨after, run, shape, lists⟩ := modifyLayer_some here change
  refine ⟨after, run, shape, fun id' layer' list' found other member => ?_⟩
  rw [lists] at found
  split at found
  · rename_i same
    obtain ⟨rfl, rfl⟩ := same
    cases found
    exact shape.hasLayer (edges other member)
  · exact shape.hasLayer (edged id' layer' list' found other member)

/-- One edge more. -/
theorem push_edged (edged : index.Edged) (has : index.HasLayer id layer) {other : NodeId}
    (target : index.HasLayer other layer) :
    ∃ after, index.modifyLayer id layer (· ++ [other]) = some after ∧ SameShape index after ∧
      after.Edged := by
  obtain ⟨list, here⟩ := has
  refine modifyLayer_edged here edged (· ++ [other]) fun target' member => ?_
  rcases List.mem_append.mp member with member | member
  · exact edged id layer list here target' member
  · rw [List.mem_singleton.mp member]
    exact target

section Surgery

variable {D : Type} [LinearOrder D] (ops : FloatOps D)

/-- Trimming keeps some of a list. -/
theorem trimOver_edged (edged : index.Edged) (has : index.HasLayer id layer) (max : Nat) :
    ∃ after, index.trimOver ops id layer max = some after ∧ SameShape index after ∧ after.Edged := by
  obtain ⟨list, here⟩ := has
  simp only [trimOver, here, Option.bind_eq_bind, Option.bind_some]
  split
  · rename_i full
    obtain ⟨node, found, _⟩ := neighborsAt_eq_some.mp here
    have edges := edged id layer list here
    have each : ∀ neighbor ∈ list, ∃ candidate, index.measure ops node neighbor = some candidate := by
      intro neighbor member
      obtain ⟨dist, measured⟩ := distance_some ops node.vector (edges neighbor member).inside
      exact ⟨⟨neighbor, dist⟩, by simp [measure, measured]⟩
    obtain ⟨candidates, measured, all⟩ := mapM_some each
    have listed : ∀ candidate ∈ candidates, candidate.id ∈ list := by
      intro candidate member
      obtain ⟨neighbor, member', found⟩ := mem_of_mapM_some all member
      simp only [measure, Option.map_eq_some_iff] at found
      obtain ⟨dist, _, rfl⟩ := found
      exact member'
    obtain ⟨chosen, run, _, among, _⟩ := chooseNeighbors_some ops candidates max
      fun candidate member => (edges _ (listed candidate member)).inside
    have edges' : ∀ other ∈ chosen.map Candidate.id, index.HasLayer other layer := by
      intro other member
      obtain ⟨candidate, member', rfl⟩ := List.mem_map.mp member
      exact edges _ (listed candidate (among candidate member'))
    obtain ⟨after, changed, shape, edged'⟩ :=
      modifyLayer_edged here edged (fun _ => chosen.map Candidate.id) edges'
    refine ⟨after, ?_, shape, edged'⟩
    rw [trimNeighbors, here]
    simp only [Option.bind_eq_bind, Option.bind_some]
    rw [if_neg (by omega), found]
    simpa [measured, run] using changed
  · exact ⟨index, rfl, SameShape.refl index, edged⟩

/-- An edge, whose list is trimmed where it is over its bound. -/
theorem wire_edged (edged : index.Edged) (has : index.HasLayer id layer) {other : NodeId}
    (target : index.HasLayer other layer) (max : Nat) :
    ∃ after, index.wire ops id layer max other = some after ∧ SameShape index after ∧ after.Edged := by
  obtain ⟨pushed, run, shape, edged'⟩ := push_edged edged has target
  obtain ⟨after, run', shape', edged''⟩ := trimOver_edged ops edged' (shape.hasLayer has) max
  exact ⟨after, by simp [wire, run, run'], shape.trans shape', edged''⟩

/-- A node is linked at one layer. -/
theorem linkLayer_edged (query : List F32) {start : NodeId} (edged : index.Edged)
    (has : index.HasLayer id layer) (from_start : index.HasLayer start layer) :
    ∃ result, linkLayer ops query id (index, start) layer = some result ∧
      SameShape index result.1 ∧ result.1.Edged ∧ result.1.HasLayer result.2 layer := by
  obtain ⟨candidates, searched, found⟩ := searchLayer_some ops query (edged.closed layer) from_start
    index.params.efConstruction
  obtain ⟨neighbors, selected, _, among, _⟩ := chooseNeighbors_some ops candidates
    index.params.m fun candidate member => (found candidate member).inside
  have edges : ∀ other ∈ neighbors.map Candidate.id, index.HasLayer other layer := by
    intro other member
    obtain ⟨candidate, member', rfl⟩ := List.mem_map.mp member
    exact found candidate (among candidate member')
  obtain ⟨list, here⟩ := has
  obtain ⟨linked, changed, shape, edged'⟩ :=
    modifyLayer_edged here edged (fun _ => neighbors.map Candidate.id) edges
  have round : ∀ (candidate : Candidate D) (rest : List (Candidate D)) (wired : HnswIndex),
      ((∀ other ∈ candidate :: rest, index.HasLayer other.id layer) ∧ SameShape index wired ∧
        wired.Edged) →
      ∃ next, wired.wire ops candidate.id layer (index.maxDegree layer) id = some next ∧
        (∀ other ∈ rest, index.HasLayer other.id layer) ∧ SameShape index next ∧ next.Edged := by
    rintro candidate rest wired ⟨all, shape, edged⟩
    obtain ⟨next, run, shape', edged'⟩ := wire_edged ops edged
      (shape.hasLayer (all candidate (List.mem_cons_self ..))) (shape.hasLayer ⟨list, here⟩)
      (index.maxDegree layer)
    exact ⟨next, run, fun other member => all other (List.mem_cons_of_mem _ member),
      shape.trans shape', edged'⟩
  obtain ⟨wired, run, _, shape', edged''⟩ := foldlM_some
    (fun rest wired => (∀ other ∈ rest, index.HasLayer other.id layer) ∧ SameShape index wired ∧
      wired.Edged)
    round neighbors linked ⟨fun other member => found other (among other member), shape, edged'⟩
  refine ⟨_, by simp only [linkLayer, searched, selected, changed, run, Option.bind_eq_bind,
    Option.bind_some]; rfl, shape', edged'', ?_⟩
  simp only
  split
  · rename_i candidate nearest
    exact shape'.hasLayer (found candidate (closest_mem nearest))
  · exact shape'.hasLayer from_start

/-- A node is linked at layers from the top down. -/
theorem linkLayers_edged (query : List F32) {start : NodeId} {top : Nat} (edged : index.Edged)
    (has : index.HasLayer id top) (from_start : index.HasLayer start top) :
    ∃ after, index.linkLayers ops query id start top = some after ∧ SameShape index after ∧
      after.Edged := by
  have round : ∀ (layer : Nat) (rest : List Nat) (state : HnswIndex × NodeId),
      ((layer :: rest).Pairwise (· > ·) ∧ (∀ lower ∈ layer :: rest, lower ≤ top ∧
          state.1.HasLayer state.2 lower) ∧ SameShape index state.1 ∧ state.1.Edged) →
      ∃ next, linkLayer ops query id state layer = some next ∧
        rest.Pairwise (· > ·) ∧ (∀ lower ∈ rest, lower ≤ top ∧ next.1.HasLayer next.2 lower) ∧
        SameShape index next.1 ∧ next.1.Edged := by
    rintro layer rest ⟨wired, current⟩ ⟨descending, all, shape, edged⟩
    obtain ⟨low, here⟩ := all layer (List.mem_cons_self ..)
    obtain ⟨next, run, shape', edged', reached⟩ := linkLayer_edged ops query edged
      (shape.hasLayer (has.mono low)) here
    obtain ⟨below, descending'⟩ := List.pairwise_cons.mp descending
    exact ⟨next, run, descending', fun lower member =>
      ⟨(all lower (List.mem_cons_of_mem _ member)).1, reached.mono (below lower member).le⟩,
      shape.trans shape', edged'⟩
  have descending : (List.range (top + 1)).reverse.Pairwise (· > ·) := by
    rw [List.pairwise_reverse]
    exact List.pairwise_lt_range
  have start_inv : ∀ lower ∈ (List.range (top + 1)).reverse, lower ≤ top ∧
      index.HasLayer start lower := by
    intro lower member
    have low : lower ≤ top := Nat.le_of_lt_succ (List.mem_range.mp (List.mem_reverse.mp member))
    exact ⟨low, from_start.mono low⟩
  obtain ⟨⟨wired, current⟩, run, _, _, shape, edged'⟩ := foldlM_some
    (fun (rest : List Nat) (state : HnswIndex × NodeId) => rest.Pairwise (· > ·) ∧
      (∀ lower ∈ rest, lower ≤ top ∧ state.1.HasLayer state.2 lower) ∧ SameShape index state.1 ∧
      state.1.Edged)
    round (List.range (top + 1)).reverse (index, start)
    ⟨descending, start_inv, SameShape.refl index, edged⟩
  exact ⟨wired, by simp [linkLayers, run], shape, edged'⟩

/-- A neighbor of a deleted node gets new edges. -/
theorem repairNeighbor_edged (deletedId : NodeId) (edged : index.Edged)
    (has : index.HasLayer id layer) :
    ∃ after, repairNeighbor ops deletedId layer index id = some after ∧ SameShape index after ∧
      after.Edged := by
  obtain ⟨list, here⟩ := has
  obtain ⟨cut, changed, shape, edged'⟩ := modifyLayer_edged here edged (List.filter (· ≠ deletedId))
    fun other member => edged id layer list here other (List.mem_filter.mp member).1
  have has := shape.hasLayer ⟨list, here⟩
  obtain ⟨node, found, _⟩ := hasLayer_iff.mp has
  obtain ⟨raw, searched, reached⟩ := searchLayerSkippingDeleted_some ops node.vector
    (edged'.closed layer) has cut.params.efConstruction
  obtain ⟨kept, linkedList⟩ := has
  obtain ⟨chosen, selected, _, among, _⟩ := chooseNeighbors_some ops
    (raw.filter fun candidate => candidate.id ≠ id ∧ candidate.id ∉ kept) cut.params.m
    fun candidate member => (reached candidate (List.mem_filter.mp member).1).1.inside
  have targets : ∀ candidate ∈ chosen, cut.HasLayer candidate.id layer := fun candidate member =>
    (reached candidate (List.mem_filter.mp (among candidate member)).1).1
  have round : ∀ (candidate : Candidate D) (rest : List (Candidate D)) (wired : HnswIndex),
      ((∀ other ∈ candidate :: rest, cut.HasLayer other.id layer) ∧ SameShape cut wired ∧
        wired.Edged) →
      ∃ next, (do
          let pushed ← wired.modifyLayer id layer (· ++ [candidate.id])
          pushed.wire ops candidate.id layer (index.maxDegree layer) id) = some next ∧
        (∀ other ∈ rest, cut.HasLayer other.id layer) ∧ SameShape cut next ∧ next.Edged := by
    rintro candidate rest wired ⟨all, shape, edged⟩
    have target := all candidate (List.mem_cons_self ..)
    obtain ⟨pushed, run, shape', edged'⟩ := push_edged edged (shape.hasLayer ⟨kept, linkedList⟩)
      (shape.hasLayer target)
    have both := shape.trans shape'
    obtain ⟨next, run', shape'', edged''⟩ := wire_edged ops edged' (both.hasLayer target)
      (both.hasLayer ⟨kept, linkedList⟩) (index.maxDegree layer)
    exact ⟨next, by simp [run, run'], fun other member => all other (List.mem_cons_of_mem _ member),
      both.trans shape'', edged''⟩
  obtain ⟨wired, run, _, shape', edged''⟩ := foldlM_some
    (fun rest wired => (∀ other ∈ rest, cut.HasLayer other.id layer) ∧ SameShape cut wired ∧
      wired.Edged)
    round chosen cut ⟨targets, SameShape.refl cut, edged'⟩
  obtain ⟨after, trimmed, shape'', edged'''⟩ := trimOver_edged ops edged''
    (shape'.hasLayer ⟨kept, linkedList⟩) (index.maxDegree layer)
  refine ⟨after, ?_, (shape.trans shape').trans shape'', edged'''⟩
  simp only [repairNeighbor, changed, found, searched, linkedList, selected, Option.bind_eq_bind,
    Option.bind_some]
  simp only [Option.bind_eq_bind] at run
  rw [run]
  exact trimmed

theorem repairLayer_edged (deletedId : NodeId) (edged : index.Edged)
    (has : index.HasLayer deletedId layer) :
    ∃ after, repairLayerAfterDelete ops deletedId index layer = some after ∧ SameShape index after ∧
      after.Edged := by
  obtain ⟨neighbors, here⟩ := has
  have edges := edged deletedId layer neighbors here
  have each : ∀ neighbor ∈ neighbors, ∃ live, (do
      let node ← index.nodes[neighbor]?
      some (!node.deleted)) = some live := by
    intro neighbor member
    exact ⟨_, by rw [List.getElem?_eq_getElem (edges neighbor member).inside]; rfl⟩
  have round : ∀ (neighbor : NodeId) (rest : List NodeId) (repaired : HnswIndex),
      ((∀ other ∈ neighbor :: rest, index.HasLayer other layer) ∧ SameShape index repaired ∧
        repaired.Edged) →
      ∃ next, repairNeighbor ops deletedId layer repaired neighbor = some next ∧
        (∀ other ∈ rest, index.HasLayer other layer) ∧ SameShape index next ∧ next.Edged := by
    rintro neighbor rest repaired ⟨all, shape, edged⟩
    obtain ⟨next, run, shape', edged'⟩ := repairNeighbor_edged ops deletedId edged
      (shape.hasLayer (all neighbor (List.mem_cons_self ..)))
    exact ⟨next, run, fun other member => all other (List.mem_cons_of_mem _ member),
      shape.trans shape', edged'⟩
  have affected : ∀ neighbor ∈ neighbors.filter fun neighbor => (do
      let node ← index.nodes[neighbor]?
      some (!node.deleted)) == some true, index.HasLayer neighbor layer :=
    fun neighbor member => edges neighbor (List.mem_filter.mp member).1
  obtain ⟨after, run, _, shape, edged'⟩ := foldlM_some
    (fun rest repaired => (∀ other ∈ rest, index.HasLayer other layer) ∧ SameShape index repaired ∧
      repaired.Edged)
    round _ index ⟨affected, SameShape.refl index, edged⟩
  refine ⟨after, ?_, shape, edged'⟩
  simp only [repairLayerAfterDelete, here, Option.bind_eq_bind, Option.bind_some]
  have filtered := filterM_some each
  simp only [Option.bind_eq_bind] at filtered run
  rw [filtered]
  exact run

end Surgery

/-! ### Calls -/

section Calls

variable {D : Type} [LinearOrder D] (ops : FloatOps D)

/-- The same graph with another entry point and other contents of its nodes. -/
theorem Navigable.of_shape {after : HnswIndex} (shape : SameShape index after) (edged : after.Edged)
    (layers : ∀ node ∈ index.nodes, node.neighbors ≠ []) {entry : Option EntryPoint}
    (has : ∀ point, entry = some point → index.HasLayer point.node point.level) :
    ({ after with entry := entry } : HnswIndex).Navigable := by
  refine ⟨fun node member empty => ?_, edged, fun point found => shape.hasLayer (has point found)⟩
  obtain ⟨node', member', same⟩ := shape.mem member
  simp only [nodeShape, Prod.mk.injEq] at same
  have length := same.2.1
  rw [empty] at length
  exact layers node' member' (List.length_eq_zero_iff.mp length)

/-- **A node is added** to a navigable graph. -/
theorem addNode_navigable (navigable : index.Navigable) (processed : List F32)
    (room : index.nodes.length < nodeIdBound) :
    ∃ after, index.addNode ops processed = some (index.nodes.length, after) ∧ after.Navigable ∧
      after.nodes.length = index.nodes.length + 1 := by
  obtain ⟨level, levelDef⟩ : ∃ level, level = index.assignLevel ops := ⟨_, rfl⟩
  have same_id : index.nodes.length % nodeIdBound = index.nodes.length := Nat.mod_eq_of_lt room
  have edged : (index.grow processed level).Edged := by
    intro id layer list found other member
    rcases neighborsAt_grow found with found | ⟨_, rfl⟩
    · exact (navigable.edged id layer list found other member).grow processed level
    · cases member
  have layers : ∀ node ∈ (index.grow processed level).nodes, node.neighbors ≠ [] := by
    intro node member
    rcases List.mem_append.mp member with member | member
    · exact navigable.layers node member
    · rw [List.mem_singleton.mp member]
      exact fun empty => absurd (congrArg List.length empty) (by simp)
  have new_layer : ∀ layer ≤ level, (index.grow processed level).HasLayer index.nodes.length layer :=
    fun layer low => ⟨[], by rw [neighborsAt_grow_new, if_pos (Nat.lt_succ_of_le low)]⟩
  have length : (index.grow processed level).nodes.length = index.nodes.length + 1 := by
    simp [grow]
  cases entryDef : index.entry with
  | none =>
    refine ⟨{ index.grow processed level with entry := some ⟨index.nodes.length, level⟩ }, ?_,
      Navigable.of_shape (SameShape.refl _) edged layers fun point found => ?_, length⟩
    · simp only [addNode, entryDef, same_id, ← levelDef]
    · cases found
      exact new_layer level le_rfl
  | some entry =>
    have entry_layer := (navigable.entry entry entryDef).grow processed level
    obtain ⟨start, descended, start_layer⟩ := descend_some ops processed (fun layer => edged.closed layer)
      (fun low high id below held => held.mono below) level entry_layer
    obtain ⟨after, run, shape, edged'⟩ := linkLayers_edged ops processed edged
      (new_layer _ (min_le_left level entry.level)) start_layer
    have result : index.addNode ops processed = some (index.nodes.length,
        after.raiseEntry entry.level ⟨index.nodes.length, level⟩) := by
      simp [addNode, entryDef, same_id, ← levelDef, descended, run]
    rw [result, raiseEntry]
    split
    · refine ⟨_, rfl, Navigable.of_shape shape edged' layers fun point found => ?_,
        shape.length.trans length⟩
      cases found
      exact new_layer level le_rfl
    · have kept : after.entry = some entry := shape.entry.trans entryDef
      refine ⟨after, rfl, ?_, shape.length.trans length⟩
      have navigable' : ({ after with entry := after.entry } : HnswIndex).Navigable := by
        refine Navigable.of_shape shape edged' layers fun point found => ?_
        rw [kept] at found
        cases found
        exact entry_layer
      exact navigable'

theorem Navigable.withDim (navigable : index.Navigable) (dim : Nat) :
    ({ index with dim := dim } : HnswIndex).Navigable :=
  ⟨navigable.layers, navigable.edged, navigable.entry⟩

omit [LinearOrder D] in
/-- Before an insertion changes the graph it may fix its dimension. -/
theorem establishDim_outcome (vector : List F32) (index : HnswIndex) :
    ∃ dim, establishDim vector index = .ok () { index with dim := dim } ∨
      ∃ text, establishDim vector index = .err (.invalidArgument text) { index with dim := dim } := by
  simp only [establishDim, bind_ok (get_eq _), ite_run]
  split
  · split
    · exact ⟨index.dim, Or.inr ⟨_, rfl⟩⟩
    · exact ⟨vector.length, Or.inl rfl⟩
  · split
    · exact ⟨index.dim, Or.inr ⟨_, rfl⟩⟩
    · exact ⟨index.dim, Or.inl rfl⟩

/-- **How an insertion ends**: the graph stays navigable and may have one node more. -/
theorem insert_navigable (navigable : index.Navigable) (room : index.nodes.length < nodeIdBound)
    (vector : List F32) :
    insert ops vector index ≠ .stuck ∧ ∀ after, Ended (insert ops vector) index after →
      after.Navigable ∧ after.nodes.length ≤ index.nodes.length + 1 := by
  obtain ⟨dim, run | ⟨text, run⟩⟩ := establishDim_outcome vector index
  · have navigable' := navigable.withDim dim
    unfold Ended insert
    rw [bind_ok run, bind_ok (get_eq _)]
    cases ops.preprocessVector _ vector with
    | none =>
      refine ⟨nofun, ?_⟩
      rintro after (⟨_, ended⟩ | ⟨_, ended⟩) <;> cases ended
      exact ⟨navigable', Nat.le_succ _⟩
    | some processed =>
      obtain ⟨grown, added, stays, length⟩ := addNode_navigable ops navigable' processed room
      simp only [bind_eq, added]
      refine ⟨nofun, ?_⟩
      rintro after (⟨_, ended⟩ | ⟨_, ended⟩) <;> cases ended
      exact ⟨stays, length.le⟩
  · unfold Ended insert
    rw [bind_err run]
    refine ⟨nofun, ?_⟩
    rintro after (⟨_, ended⟩ | ⟨_, ended⟩) <;> cases ended
    exact ⟨navigable.withDim dim, Nat.le_succ _⟩

/-- The new entry point has its level. -/
theorem pickNewEntry_hasLayer (layers : ∀ node ∈ index.nodes, node.neighbors ≠ [])
    (room : index.nodes.length ≤ nodeIdBound) :
    ∃ entry, index.pickNewEntry = some entry ∧
      ∀ point, entry = some point → index.HasLayer point.node point.level := by
  have round : ∀ (item : Node × Nat) (rest : List (Node × Nat)) (best : Option EntryPoint),
      ((∀ other ∈ item :: rest, index.nodes[other.2]? = some other.1) ∧
        ∀ point, best = some point → index.HasLayer point.node point.level) →
      ∃ next, considerEntry best item = some next ∧
        (∀ other ∈ rest, index.nodes[other.2]? = some other.1) ∧
        ∀ point, next = some point → index.HasLayer point.node point.level := by
    rintro ⟨node, idx⟩ rest best ⟨listed, has⟩
    have here := listed _ (List.mem_cons_self ..)
    have behind := fun other member => listed other (List.mem_cons_of_mem _ member)
    have inside := (List.getElem?_eq_some_iff.mp here).1
    have nonempty := layers node (List.mem_of_getElem? here)
    have positive := List.length_pos_iff.mpr nonempty
    have this_point : index.HasLayer (idx % nodeIdBound) ((node.neighbors.length - 1) % 256) := by
      rw [Nat.mod_eq_of_lt (lt_of_lt_of_le inside room)]
      exact hasLayer_iff.mpr ⟨node, here, by omega⟩
    unfold considerEntry
    split
    · exact ⟨best, rfl, behind, has⟩
    · rw [if_neg (by simpa using nonempty)]
      cases best with
      | none => exact ⟨_, rfl, behind, fun point found => by cases found; exact this_point⟩
      | some held =>
        refine ⟨_, rfl, behind, fun point found => ?_⟩
        cases found
        split
        · exact this_point
        · exact has held rfl
  have listed : ∀ other ∈ index.nodes.zipIdx, index.nodes[other.2]? = some other.1 :=
    fun other member => List.mem_zipIdx_iff_getElem?.mp member
  obtain ⟨entry, run, _, has⟩ := foldlM_some
    (fun (rest : List (Node × Nat)) (best : Option EntryPoint) =>
      (∀ other ∈ rest, index.nodes[other.2]? = some other.1) ∧
      ∀ point, best = some point → index.HasLayer point.node point.level)
    round index.nodes.zipIdx none ⟨listed, nofun⟩
  exact ⟨entry, run, has⟩

/-- **A node is removed** from a navigable graph. -/
theorem removeNode_navigable (navigable : index.Navigable) {node : Node}
    (here : index.nodes[id]? = some node) (room : index.nodes.length ≤ nodeIdBound) :
    ∃ after, index.removeNode ops id = some after ∧ after.Navigable ∧
      after.nodes.length = index.nodes.length := by
  have nonempty := navigable.layers node (List.mem_of_getElem? here)
  have positive := List.length_pos_iff.mpr nonempty
  have marked : ∀ {other layer}, index.HasLayer other layer →
      (index.mark id node).HasLayer other layer := by
    rintro other layer ⟨list, found⟩
    exact ⟨list, by rw [neighborsAt_mark here, found]⟩
  have edged : (index.mark id node).Edged := by
    intro other layer list found target member
    rw [neighborsAt_mark here] at found
    exact marked (navigable.edged other layer list found target member)
  have layers : ∀ other ∈ (index.mark id node).nodes, other.neighbors ≠ [] := by
    intro other member empty
    obtain ⟨old, member', _, length, _⟩ := mem_mark here member
    rw [empty] at length
    exact navigable.layers old member' (List.length_eq_zero_iff.mp length)
  have round : ∀ (layer : Nat) (rest : List Nat) (repaired : HnswIndex),
      ((∀ other ∈ layer :: rest, index.HasLayer id other) ∧ SameShape (index.mark id node) repaired ∧
        repaired.Edged) →
      ∃ next, repairLayerAfterDelete ops id repaired layer = some next ∧
        (∀ other ∈ rest, index.HasLayer id other) ∧ SameShape (index.mark id node) next ∧
        next.Edged := by
    rintro layer rest repaired ⟨all, shape, edged⟩
    obtain ⟨next, run, shape', edged'⟩ := repairLayer_edged ops id edged
      (shape.hasLayer (marked (all layer (List.mem_cons_self ..))))
    exact ⟨next, run, fun other member => all other (List.mem_cons_of_mem _ member),
      shape.trans shape', edged'⟩
  have all_layers : ∀ layer ∈ List.range ((node.neighbors.length - 1) % 256 + 1),
      index.HasLayer id layer := by
    intro layer member
    have low := List.mem_range.mp member
    exact hasLayer_iff.mpr ⟨node, here, by omega⟩
  obtain ⟨repaired, run, _, shape, edged'⟩ := foldlM_some
    (fun (rest : List Nat) repaired => (∀ other ∈ rest, index.HasLayer id other) ∧
      SameShape (index.mark id node) repaired ∧ repaired.Edged)
    round _ (index.mark id node) ⟨all_layers, SameShape.refl _, edged⟩
  have length : repaired.nodes.length = index.nodes.length := by
    rw [shape.length, mark, List.length_set]
  have start : index.removeNode ops id =
      if repaired.entry.map EntryPoint.node = some id then do
        let entry ← repaired.pickNewEntry
        some { repaired with entry := entry }
      else some repaired := by
    simp only [mark] at run
    simp only [removeNode, here, Option.bind_eq_bind, Option.bind_some]
    rw [if_neg (by simpa using nonempty), run]
    rfl
  have kept : repaired.Navigable := by
    have navigable' : ({ repaired with entry := repaired.entry } : HnswIndex).Navigable := by
      refine Navigable.of_shape shape edged' layers fun point found => ?_
      rw [shape.entry] at found
      exact marked (navigable.entry point found)
    exact navigable'
  rw [start]
  split
  · obtain ⟨entry, picked, has⟩ := pickNewEntry_hasLayer kept.layers (length ▸ room)
    rw [picked]
    exact ⟨_, rfl, ⟨kept.layers, kept.edged, has⟩, length⟩
  · exact ⟨repaired, rfl, kept, length⟩

/-- **How a deletion ends**: the graph stays navigable. -/
theorem delete_navigable (navigable : index.Navigable) (room : index.nodes.length ≤ nodeIdBound)
    (id : NodeId) :
    delete ops id index ≠ .stuck ∧ ∀ after, Ended (delete ops id) index after →
      after.Navigable ∧ after.nodes.length = index.nodes.length := by
  unfold Ended delete
  rw [bind_ok (get_eq _)]
  by_cases outside : id ≥ index.nodes.length
  · rw [if_pos outside]
    refine ⟨nofun, ?_⟩
    rintro after (⟨_, ended⟩ | ⟨_, ended⟩) <;> cases ended
    exact ⟨navigable, rfl⟩
  rw [if_neg outside]
  by_cases deleted : index.isDeleted id
  · rw [if_pos deleted]
    refine ⟨nofun, ?_⟩
    rintro after (⟨_, ended⟩ | ⟨_, ended⟩) <;> cases ended
    exact ⟨navigable, rfl⟩
  rw [if_neg deleted]
  obtain ⟨after, removed, stays, length⟩ := removeNode_navigable ops navigable
    (List.getElem?_eq_getElem (not_le.mp outside)) room
  simp only [bind_eq, removed]
  refine ⟨nofun, ?_⟩
  rintro left (⟨_, ended⟩ | ⟨_, ended⟩) <;> cases ended
  exact ⟨stays, length⟩

/-- **A search ends**, and changes nothing. -/
theorem search_navigable (navigable : index.Navigable) (query : List F32) {k : Nat}
    (small : k * 2 < u64Bound) :
    (∃ hits, search ops query k index = .ok hits index) ∨
      ∃ text, search ops query k index = .err (.invalidArgument text) index := by
  rw [search, bind_ok (get_eq _)]
  cases found : index.entry with
  | none => exact Or.inl ⟨[], rfl⟩
  | some entry =>
    simp only
    split
    · exact Or.inl ⟨[], rfl⟩
    split
    · exact Or.inr ⟨_, rfl⟩
    cases accepted : ops.preprocessVector index.metric query with
    | none => exact Or.inr ⟨_, rfl⟩
    | some processed =>
      obtain ⟨start, descended, bottom⟩ := descend_some ops processed
        (fun layer => navigable.edged.closed layer) (fun low high id below held => held.mono below) 0
        (navigable.entry entry found)
      rw [Nat.zero_min] at bottom
      obtain ⟨hits, searched, _⟩ := searchLayerSkippingDeleted_some ops processed
        (navigable.edged.closed 0) bottom (max (max index.params.efSearch (k * 2)) k)
      refine Or.inl ⟨((sortByDist hits).take k).map fun candidate => (candidate.id, candidate.dist), ?_⟩
      have run : index.searchFrom ops processed entry k =
          some (((sortByDist hits).take k).map fun candidate => (candidate.id, candidate.dist)) := by
        rw [searchFrom, descended]
        simp only [Option.bind_eq_bind, Option.bind_some]
        rw [if_neg (not_le.mpr small), searched]
        rfl
      show Prog.ofOption (index.searchFrom ops processed entry k) index = _
      rw [run]
      rfl

/-! ### Runs of calls -/

/-- The graphs insertions and deletions make of one, successful or not, in which there were always fewer
nodes than ids before an insertion. -/
inductive Continued (start : HnswIndex) : HnswIndex → Prop
  | start : Continued start start
  | insert {before after : HnswIndex} (vector : List F32) (reached : Continued start before)
      (room : before.nodes.length < nodeIdBound) (ended : Ended (insert ops vector) before after) :
      Continued start after
  | delete {before after : HnswIndex} (id : NodeId) (reached : Continued start before)
      (ended : Ended (delete ops id) before after) : Continued start after

/-- **Every later graph is navigable.** -/
theorem Continued.navigable {start : HnswIndex} (continued : Continued ops start index)
    (navigable : start.Navigable) (room : start.nodes.length ≤ nodeIdBound) :
    index.Navigable ∧ index.nodes.length ≤ nodeIdBound := by
  induction continued with
  | start => exact ⟨navigable, room⟩
  | insert vector _ room ended ih =>
    obtain ⟨stays, length⟩ := (insert_navigable ops ih.1 room vector).2 _ ended
    exact ⟨stays, length.trans room⟩
  | delete id _ ended ih =>
    obtain ⟨stays, length⟩ := (delete_navigable ops ih.1 ih.2 id).2 _ ended
    exact ⟨stays, length.trans_le ih.2⟩

/-- **No later call hangs.** -/
theorem Continued.calls {start : HnswIndex} (continued : Continued ops start index)
    (navigable : start.Navigable) (room : start.nodes.length ≤ nodeIdBound) :
    (∀ vector, index.nodes.length < nodeIdBound → HnswIndex.insert ops vector index ≠ .stuck) ∧
    (∀ id, HnswIndex.delete ops id index ≠ .stuck) ∧
    ∀ query k, k * 2 < u64Bound → search ops query k index ≠ .stuck := by
  obtain ⟨stays, few⟩ := continued.navigable ops navigable room
  refine ⟨fun vector room => (insert_navigable ops stays room vector).1,
    fun id => (delete_navigable ops stays few id).1, fun query k small => ?_⟩
  rcases search_navigable ops stays query small with ⟨_, run⟩ | ⟨_, run⟩
  · rw [run]
    exact nofun
  · rw [run]
    exact nofun

end Calls

end HnswIndex

end Sastran

/-
Neighbor lists without repetitions.

The repair of a neighbor of a deleted node checks which nodes the neighbor lists before it links it to
others, but not which of them list the neighbor already: trimming leaves edges in one direction.

* `distinct_neighbors` - **no list repeats a node** as long as the neighbors of deleted nodes list every
  node that lists them, and their lists are not trimmed before their repairs (`Mutual`).
* `neighbors_repeat` - a repair of a neighbor that is listed in one direction may leave a repetition.
-/

import Sastran.Hnsw.Repair

namespace Sastran

open Partial Device

namespace HnswIndex

variable {index after : HnswIndex} {id gone : NodeId} {layer : Nat}

/-- No neighbor list repeats a node. -/
def Distinct (index : HnswIndex) : Prop := ∀ id layer, (index.listAt id layer).Nodup

theorem Trimmed.nodup {D : Type} [LinearOrder D] {ops : FloatOps D} {max : Nat} {list kept : List NodeId}
    (trimmed : Trimmed ops index id max list kept) (distinct : list.Nodup) : kept.Nodup := by
  obtain ⟨same, perm, sub⟩ := trimmed.within
  exact perm.nodup_iff.mp (distinct.sublist sub)

theorem nodup_append_singleton {list : List NodeId} (distinct : list.Nodup) (unlisted : id ∉ list) :
    (list ++ [id]).Nodup := by
  refine List.nodup_append.mpr ⟨distinct, List.nodup_singleton _, fun one member two single => ?_⟩
  rw [List.mem_singleton.mp single]
  rintro rfl
  exact unlisted member

/-! ### Insertion -/

section Insertion

variable {D : Type} [LinearOrder D] (ops : FloatOps D)

/-- A node that no list has is linked without repetitions. -/
theorem linkLayer_distinct {query : List F32} {start : NodeId} {result : HnswIndex × NodeId}
    (linked : index.Linked []) (has : index.HasLayer id layer) (from_start : index.HasLayer start layer)
    (different : start ≠ id) (unseen : index.Unseen id layer) (distinct : index.Distinct)
    (run : linkLayer ops query id (index, start) layer = some result) : result.1.Distinct := by
  obtain ⟨result', run', rewired, _⟩ := linkLayer_some ops query linked has from_start different unseen
  rw [run, Option.some.injEq] at run'
  subst run'
  simp only [linkLayer, Option.bind_eq_bind, Option.bind_eq_some_iff] at run
  obtain ⟨candidates, searched, neighbors, selected, changed, changing, wired, wiring, run⟩ := run
  cases run
  obtain ⟨candidates', searched', found⟩ := searchLayer_some ops query (linked.closed_ne unseen)
    ⟨from_start, different⟩ index.params.efConstruction
  rw [searched, Option.some.injEq] at searched'
  subst searched'
  obtain ⟨apart, among, _⟩ := chooseNeighbors_distinct ops
    (searchLayer_measured ops query searched).1
    (fun candidate member => (found candidate member).1.inside) selected
  obtain ⟨_, _, _, others, own⟩ := modifyLayer_sameBut changing
  have wires := wires_wired ops neighbors apart wiring
  have away : id ∉ neighbors.map Candidate.id := by
    intro member
    obtain ⟨candidate, picked, same⟩ := List.mem_map.mp member
    exact (found candidate (among candidate picked)).2 same
  intro other layer'
  by_cases above : layer' = layer
  · subst above
    by_cases same : other = id
    · rw [same, listAt_congr (wires.outside id away), listAt_eq own]
      exact apart
    · have before : changed.neighborsAt other layer' = index.neighborsAt other layer' :=
        others other layer' fun equal => same (Prod.mk.inj equal).1
      by_cases picked : other ∈ neighbors.map Candidate.id
      · obtain ⟨candidate, member, rfl⟩ := List.mem_map.mp picked
        obtain ⟨list, here⟩ := (found candidate (among candidate member)).1
        obtain ⟨kept, held, trimmed⟩ := wires.inside _ picked list (before.trans here)
        rw [listAt_eq held]
        exact trimmed.nodup (nodup_append_singleton (listAt_eq here ▸ distinct candidate.id layer')
          (unseen candidate.id list here))
      · rw [listAt_congr (wires.outside other picked), listAt_congr before]
        exact distinct other layer'
  · rw [listAt_congr (rewired.others other layer' above)]
    exact distinct other layer'

theorem linkDown_distinct (query : List F32) : ∀ (layers : List Nat) {index : HnswIndex} {start : NodeId}
    {top : Nat} {state : HnswIndex × NodeId}, index.Linked [] → index.HasLayer id top →
    index.HasLayer start top → start ≠ id → layers.Pairwise (· > ·) →
    (∀ layer ∈ layers, layer ≤ top ∧ index.Unseen id layer) → index.Distinct →
    layers.foldlM (linkLayer ops query id) (index, start) = some state → state.1.Distinct := by
  intro layers
  induction layers with
  | nil =>
    intro index start top state _ _ _ _ _ _ distinct run
    cases run
    exact distinct
  | cons first rest ih =>
    intro index start top state linked has from_start different descending all distinct run
    rw [List.foldlM_cons, Option.bind_eq_bind, Option.bind_eq_some_iff] at run
    obtain ⟨next, linking, run⟩ := run
    obtain ⟨low, unseen⟩ := all first List.mem_cons_self
    obtain ⟨above, descending⟩ := List.pairwise_cons.mp descending
    obtain ⟨next', run', rewired, linked', reached, away⟩ := linkLayer_some ops query linked
      (has.mono low) (from_start.mono low) different unseen
    rw [linking, Option.some.injEq] at run'
    subst run'
    have all' : ∀ layer ∈ rest, layer ≤ first ∧ next.1.Unseen id layer := by
      intro layer member
      refine ⟨(above layer member).le, fun other list found => ?_⟩
      rw [rewired.others other layer (above layer member).ne] at found
      exact (all layer (List.mem_cons_of_mem _ member)).2 other list found
    exact ih linked' (rewired.shape.hasLayer (has.mono low)) reached away descending all'
      (linkLayer_distinct ops linked (has.mono low) (from_start.mono low) different unseen distinct linking) run

/-- **An insertion** repeats no node. -/
theorem addNode_distinct (linked : index.Linked [])
    (entry_layer : ∀ entry, index.entry = some entry → index.HasLayer entry.node entry.level)
    (room : index.nodes.length < nodeIdBound) (distinct : index.Distinct) {processed : List F32}
    (run : index.addNode ops processed = some (id, after)) : after.Distinct := by
  obtain ⟨level, levelDef⟩ : ∃ level, level = index.assignLevel ops := ⟨_, rfl⟩
  have grown_distinct : (index.grow processed level).Distinct := by
    intro other layer
    cases found : (index.grow processed level).neighborsAt other layer with
    | none =>
      rw [listAt, found]
      exact List.nodup_nil
    | some list =>
      rw [listAt_eq found]
      rcases neighborsAt_grow found with old | ⟨_, rfl⟩
      · exact listAt_eq old ▸ distinct other layer
      · exact List.nodup_nil
  cases found : index.entry with
  | none =>
    simp only [addNode, found, ← levelDef] at run
    cases run
    exact grown_distinct
  | some entry =>
    have entry_layer := entry_layer entry found
    have unseen := fun layer => grow_unseen linked processed level layer
    have linked := grow_linked linked processed level
    have new_layer : ∀ layer ≤ level,
        (index.grow processed level).HasLayer index.nodes.length layer :=
      fun layer low => ⟨[], by rw [neighborsAt_grow_new, if_pos (Nat.lt_succ_of_le low)]⟩
    obtain ⟨start, descended, start_layer, away⟩ := descend_some ops processed
      (fun layer => linked.closed_ne (unseen layer))
      (fun low high id below held => ⟨held.1.mono below, held.2⟩) level
      (⟨entry_layer.grow processed level, entry_layer.inside.ne⟩ :
        (index.grow processed level).HasLayer entry.node entry.level ∧ entry.node ≠ index.nodes.length)
    simp only [addNode, found, ← levelDef, Nat.mod_eq_of_lt room, descended, Option.bind_eq_bind,
      Option.bind_some, Option.bind_eq_some_iff, Option.some.injEq, Prod.mk.injEq, linkLayers] at run
    obtain ⟨wired, ⟨state, linking, rfl⟩, rfl, raised⟩ := run
    have descending : (List.range (min level entry.level + 1)).reverse.Pairwise (· > ·) := by
      rw [List.pairwise_reverse]
      exact List.pairwise_lt_range
    have wired_distinct := linkDown_distinct ops processed _ linked
      (new_layer _ (min_le_left level entry.level)) start_layer away descending
      (fun layer member => ⟨Nat.le_of_lt_succ (List.mem_range.mp (List.mem_reverse.mp member)),
        unseen layer⟩) grown_distinct linking
    rw [← raised, raiseEntry]
    split
    · exact wired_distinct
    · exact wired_distinct

end Insertion

/-! ### Deletion -/

section Deletion

variable {D : Type} [LinearOrder D] (ops : FloatOps D)

/-- The neighbors of a node list every live node that lists them, and their lists are not trimmed before
their repairs. -/
def Mutual (index : HnswIndex) (gone : NodeId) (layer : Nat) : Prop :=
  ∀ neighbor ∈ index.affected gone layer, index.Whole gone layer neighbor ∧
    ∀ other, index.isDeleted other = false → neighbor ∈ index.listAt other layer →
      other ∈ index.listAt neighbor layer

instance Mutual.decidable (index : HnswIndex) (gone : NodeId) (layer : Nat) :
    Decidable (index.Mutual gone layer) :=
  decidable_of_iff (∀ neighbor ∈ index.affected gone layer, index.Whole gone layer neighbor ∧
      ∀ other < index.nodes.length, index.isDeleted other = false → neighbor ∈ index.listAt other layer →
        other ∈ index.listAt neighbor layer)
    ⟨fun all neighbor member => ⟨(all neighbor member).1, fun other live =>
        (all neighbor member).2 other (inside_of_live live) live⟩,
      fun all neighbor member => ⟨(all neighbor member).1, fun other _ => (all neighbor member).2 other⟩⟩

/-- The neighbors that wait for their repairs list every live node that lists them. -/
def Back (index : HnswIndex) (layer : Nat) (rest : List NodeId) (now : HnswIndex) : Prop :=
  ∀ neighbor ∈ rest, ∀ other, index.isDeleted other = false → neighbor ∈ now.listAt other layer →
    other ∈ now.listAt neighbor layer

section Step

variable {done rest chosen : List NodeId} {neighbor : NodeId} {now next : HnswIndex}

/-- **One more neighbor is repaired**: no list repeats a node. -/
theorem Repairing.step_distinct (repairing : Repairing ops index gone layer done (neighbor :: rest) now)
    (deleted : index.isDeleted gone = true) (back : Back index layer (neighbor :: rest) now)
    (repaired : Repaired ops gone layer neighbor chosen now next)
    (distinct : ∀ id, (now.listAt id layer).Nodup) (id : NodeId) : (next.listAt id layer).Nodup := by
  have live : ∀ other ∈ chosen, index.isDeleted other = false ∧ other ∉ now.listAt neighbor layer := by
    intro other member
    have alive := (repaired.live other member).2
    rw [repairing.shape.isDeleted] at alive
    refine ⟨alive, repaired.new other member ?_⟩
    rintro rfl
    rw [deleted] at alive
    cases alive
  by_cases same : id = neighbor
  · rw [same]
    refine repaired.own.nodup (List.nodup_append.mpr
      ⟨(distinct neighbor).filter _, repaired.distinct, fun one member two picked equal => ?_⟩)
    exact (live two picked).2 (equal ▸ (List.mem_filter.mp member).1)
  · by_cases picked : id ∈ chosen
    · obtain ⟨alive, unlisted⟩ := live id picked
      exact (repaired.others id picked).nodup (nodup_append_singleton (distinct id) fun listed =>
        unlisted (back neighbor List.mem_cons_self id alive listed))
    · rw [repaired.outside id same picked]
      exact distinct id

/-- The neighbors that still wait list every live node that lists them. -/
theorem Repairing.step_back (repairing : Repairing ops index gone layer done (neighbor :: rest) now)
    (mutual_ : index.Mutual gone layer) (unique : (index.affected gone layer).Nodup)
    (split : index.affected gone layer = done ++ neighbor :: rest)
    (deleted : index.isDeleted gone = true) (back : Back index layer (neighbor :: rest) now)
    (repaired : Repaired ops gone layer neighbor chosen now next) : Back index layer rest next := by
  intro waiting waits other alive listed
  rw [split] at unique
  obtain ⟨_, tail, apart⟩ := List.nodup_append.mp unique
  have missing : neighbor ∉ done := fun member => apart neighbor member neighbor List.mem_cons_self rfl
  have unrepaired : waiting ∉ done := fun member =>
    apart waiting member waiting (List.mem_cons_of_mem _ waits) rfl
  have different : waiting ≠ neighbor := by
    rintro rfl
    exact (List.nodup_cons.mp tail).1 waits
  have affected : waiting ∈ index.affected gone layer :=
    split ▸ List.mem_append_right _ (List.mem_cons_of_mem _ waits)
  -- Its list only grows.
  have grown : waiting ∈ chosen → next.listAt waiting layer = now.listAt waiting layer ++ [neighbor] := by
    intro picked
    have live : index.isDeleted waiting = false := by simpa using (List.mem_filter.mp affected).2
    have max : now.maxDegree layer = index.maxDegree layer := by
      rw [maxDegree, maxDegree, repairing.shape.params]
    have trimmed := (repaired.others waiting picked).congr ops repairing.shape
    rw [max] at trimmed
    exact (repairing.lists waiting live).grows ops split
      (repairing.linker ops split missing deleted repaired picked) unrepaired
      (by rw [Calm, if_pos affected]; exact (mutual_ waiting affected).1) trimmed
  have keeps : now.listAt waiting layer ⊆ next.listAt waiting layer := by
    by_cases picked : waiting ∈ chosen
    · rw [grown picked]
      exact List.subset_append_left _ _
    · rw [repaired.outside waiting different picked]
      exact List.Subset.refl _
  have before : waiting ∈ now.listAt other layer → other ∈ next.listAt waiting layer := fun listed =>
    keeps (back waiting (List.mem_cons_of_mem _ waits) other alive listed)
  by_cases own : other = neighbor
  · subst own
    rcases List.mem_append.mp (repaired.own.within.subset listed) with old | picked
    · exact before (List.mem_filter.mp old).1
    · rw [grown picked]
      exact List.mem_append_right _ (List.mem_singleton_self _)
  · by_cases picked : other ∈ chosen
    · rcases List.mem_append.mp ((repaired.others other picked).within.subset listed) with old | new
      · exact before old
      · exact absurd (List.mem_singleton.mp new) different
    · rw [repaired.outside other own picked] at listed
      exact before listed

end Step

/-- **A layer is repaired** without repetitions. -/
theorem repairLayer_distinct (linked : index.Linked []) (has : index.HasLayer gone layer)
    (deleted : index.isDeleted gone = true) (mutual_ : index.Mutual gone layer) (distinct : index.Distinct)
    (run : repairLayerAfterDelete ops gone index layer = some after) : after.Distinct := by
  have unique : (index.affected gone layer).Nodup := (distinct gone layer).filter _
  obtain ⟨after', run', rewired, _⟩ := repairLayer_some ops gone linked has
  rw [run, Option.some.injEq] at run'
  subst run'
  have holds := foldlM_split (fun done rest now => Repairing ops index gone layer done rest now ∧
      Back index layer rest now ∧ ∀ id, (now.listAt id layer).Nodup) (fun done neighbor rest now next split
      before ran => ?_)
    ⟨⟨SameShape.refl index, fun _ _ => rfl, fun id _ => Kept.start ops _ id⟩,
      fun neighbor member => (mutual_ neighbor member).2, fun id => distinct id layer⟩
    (repairLayer_fold ops linked has run)
  · intro id layer'
    by_cases same : layer' = layer
    · rw [same]
      exact holds.2.2 id
    · rw [listAt_congr (rewired.others id layer' same)]
      exact distinct id layer'
  · obtain ⟨repairing, back, lists⟩ := before
    obtain ⟨chosen, repaired⟩ := repairNeighbor_repaired ops ran
    exact ⟨repairing.step ops unique split deleted repaired,
      repairing.step_back ops mutual_ unique split deleted back repaired,
      repairing.step_distinct ops deleted back repaired lists⟩

/-- The condition reads one layer only. -/
theorem Mutual.congr (mutual_ : index.Mutual gone layer) (same : SameShape index after)
    (lists : ∀ id, after.listAt id layer = index.listAt id layer) : after.Mutual gone layer := by
  have affected : after.affected gone layer = index.affected gone layer := by
    simp only [HnswIndex.affected, lists, same.isDeleted]
  have earlier : after.earlier gone layer = index.earlier gone layer := by
    funext id
    rw [HnswIndex.earlier, HnswIndex.earlier, affected]
  have max : after.maxDegree layer = index.maxDegree layer := by
    rw [maxDegree, maxDegree, same.params]
  intro neighbor member
  rw [affected] at member
  obtain ⟨whole, back⟩ := mutual_ neighbor member
  refine ⟨?_, fun other live listed => ?_⟩
  · simpa only [Whole, earlier, lists, max] using whole
  · rw [lists] at listed ⊢
    exact back other (by rwa [← same.isDeleted]) listed

/-- The layers of a node are repaired one after another. -/
theorem repairLayers_distinct : ∀ (layers : List Nat) {index after : HnswIndex}, layers.Nodup →
    index.Linked [] → (∀ layer ∈ layers, index.HasLayer gone layer) → index.isDeleted gone = true →
    (∀ layer ∈ layers, index.Mutual gone layer) → index.Distinct →
    layers.foldlM (repairLayerAfterDelete ops gone) index = some after → after.Distinct := by
  intro layers
  induction layers with
  | nil =>
    intro index after _ _ _ _ _ distinct run
    cases run
    exact distinct
  | cons first rest ih =>
    intro index after unique linked has deleted mutual_ distinct run
    rw [List.foldlM_cons, Option.bind_eq_bind, Option.bind_eq_some_iff] at run
    obtain ⟨next, repairing, run⟩ := run
    obtain ⟨missing, unique⟩ := List.nodup_cons.mp unique
    have here := has first List.mem_cons_self
    obtain ⟨next', repairing', rewired, linked'⟩ := repairLayer_some ops gone linked here
    rw [repairing, Option.some.injEq] at repairing'
    subst repairing'
    refine ih unique linked' (fun layer member => ?_) (by rwa [rewired.shape.isDeleted])
      (fun layer member => ?_)
      (repairLayer_distinct ops linked here deleted (mutual_ first List.mem_cons_self) distinct repairing) run
    · exact rewired.shape.hasLayer (has layer (List.mem_cons_of_mem _ member))
    · have apart : layer ≠ first := fun same => missing (same ▸ member)
      exact (mutual_ layer (List.mem_cons_of_mem _ member)).congr rewired.shape
        fun id => listAt_congr (rewired.others id layer apart)

/-- The neighbors of a node that is marked as deleted are mutual at every layer. -/
def MutualDelete (index : HnswIndex) (id : NodeId) : Prop :=
  ∀ node, index.nodes[id]? = some node → ∀ layer, (index.mark id node).Mutual id layer

/-- A layer the node is not at has no neighbors to repair. -/
theorem mutual_above {node : Node} (here : index.nodes[id]? = some node)
    (high : node.neighbors.length ≤ layer) : (index.mark id node).Mutual id layer := by
  have none : (index.mark id node).listAt id layer = [] := by
    rw [listAt, neighborsAt_mark here, neighborsAt, here]
    simp [high]
  intro neighbor member
  rw [affected, none] at member
  exact absurd member List.not_mem_nil

instance MutualDelete.decidable (index : HnswIndex) (id : NodeId) : Decidable (index.MutualDelete id) :=
  decidable_of_iff (∀ node ∈ index.nodes[id]?, ∀ layer < node.neighbors.length,
      (index.mark id node).Mutual id layer)
    ⟨fun all node here layer => if low : layer < node.neighbors.length then all node here layer low
        else mutual_above here (not_lt.mp low),
      fun all node here layer _ => all node here layer⟩

/-- **A deletion** repeats no node. -/
theorem delete_distinct (wf : index.Wf) (room : index.nodes.length ≤ nodeIdBound)
    (distinct : index.Distinct) (mutual_ : index.MutualDelete id)
    (run : delete ops id index = .ok () after) : after.Distinct := by
  rcases delete_outcome ops wf room id with ⟨vector, _, live, _⟩ | ⟨_, _, run'⟩
  · obtain ⟨node, here, same⟩ : ∃ node, index.nodes[id]? = some node ∧
        (node.vector, node.deleted) = (vector, false) := by
      simpa [contents] using live
    obtain ⟨after', repaired, height, run', nodes, _, has, repairs, _⟩ :=
      delete_repairs ops wf room here (Prod.mk.inj same).2
    rw [run] at run'
    cases run'
    have marked : (index.mark id node).Distinct := fun other layer =>
      (listAt_congr (neighborsAt_mark here other layer)).symm ▸ distinct other layer
    have kept := repairLayers_distinct ops _ List.nodup_range (mark_linked here wf.linked)
      (fun layer member => has layer (List.mem_range.mp member))
      (by rw [isDeleted_mark here, if_pos rfl]) (fun layer _ => mutual_ node here layer) marked repairs
    intro other layer
    have same : after.listAt other layer = repaired.listAt other layer :=
      listAt_congr (by rw [neighborsAt, neighborsAt, nodes])
    exact same ▸ kept other layer
  · rw [run'] at run
    cases run

end Deletion

/-! ### Runs -/

section Runs

variable {D : Type} [LinearOrder D] (ops : FloatOps D)

/-- Indices reached by inserts, and by deletes of nodes whose neighbors are mutual. -/
inductive Mutually (params : HnswParams) : HnswIndex → Prop
  | new : Mutually params (new params)
  | insert {index after : HnswIndex} {id : NodeId} (vector : List F32) (reached : Mutually params index)
      (room : index.nodes.length + 1 < nodeIdBound)
      (run : HnswIndex.insert ops vector index = .ok id after) : Mutually params after
  | insertFailed {index after : HnswIndex} {error : Error} (vector : List F32)
      (reached : Mutually params index) (room : index.nodes.length + 1 < nodeIdBound)
      (run : HnswIndex.insert ops vector index = .err error after) : Mutually params after
  | delete {index after : HnswIndex} (id : NodeId) (reached : Mutually params index)
      (mutual_ : index.MutualDelete id) (run : HnswIndex.delete ops id index = .ok () after) :
      Mutually params after
  | deleteFailed {index after : HnswIndex} {error : Error} (id : NodeId) (reached : Mutually params index)
      (run : HnswIndex.delete ops id index = .err error after) : Mutually params after

theorem Mutually.reachable {params : HnswParams} (mutually : Mutually ops params index) :
    Reachable ops params index := by
  induction mutually with
  | new => exact .new
  | insert vector _ room run ih => exact .insert vector ih room run
  | insertFailed vector _ room run ih => exact .insertFailed vector ih room run
  | delete id _ _ run ih => exact .delete id ih run
  | deleteFailed id _ run ih => exact .deleteFailed id ih run

theorem insert_distinct (wf : index.Wf) (room : index.nodes.length < nodeIdBound)
    (distinct : index.Distinct) {vector : List F32}
    (run : insert ops vector index = .ok id after) : after.Distinct := by
  obtain ⟨dim, processed, added⟩ := insert_addNode ops run
  have linked : ({ index with dim := dim } : HnswIndex).Linked [] :=
    ⟨wf.linked.edges, wf.linked.degree⟩
  exact addNode_distinct ops linked wf.navigable.entry room distinct added

theorem Unchanged.distinct (same : Unchanged index after) (distinct : index.Distinct) :
    after.Distinct := by
  rw [same.rest]
  exact distinct

/-- **Neighbor lists without repetitions**, as long as the neighbors of deleted nodes are mutual. -/
theorem distinct_neighbors {params : HnswParams} (mutually : Mutually ops params index) {node : Node}
    (here : index.nodes[id]? = some node) {list : List NodeId}
    (atLayer : node.neighbors[layer]? = some list) : list.Nodup := by
  have distinct : index.Distinct := by
    clear here
    induction mutually with
    | new => exact fun _ _ => List.nodup_nil
    | insert vector reached room run ih =>
      exact insert_distinct ops reached.reachable.sound.wf (Nat.lt_of_succ_lt room) ih run
    | insertFailed vector reached room run ih =>
      rcases insert_outcome ops reached.reachable.sound.wf (Nat.lt_of_succ_lt room) vector with
        ⟨_, _, _, run', _⟩ | ⟨_, _, _, run', same⟩
      · rw [run'] at run
        cases run
      · rw [run'] at run
        cases run
        exact same.distinct ih
    | delete id reached mutual_ run ih =>
      have sound := reached.reachable.sound
      exact delete_distinct ops sound.wf sound.room.le ih mutual_ run
    | deleteFailed id reached run ih =>
      have sound := reached.reachable.sound
      rcases delete_outcome ops sound.wf sound.room.le id with ⟨_, _, _, run', _⟩ | ⟨_, _, run'⟩
      · rw [run'] at run
        cases run
      · rw [run'] at run
        cases run
        exact ih
  exact listAt_eq (neighborsAt_eq_some.mpr ⟨node, here, atLayer⟩) ▸ distinct id layer

theorem Inserted.mutually {params : HnswParams} {allowed : HnswIndex → HnswIndex → NodeId → Prop}
    (inserted : Inserted ops params allowed index) (small : index.nodes.length < nodeIdBound) :
    Mutually ops params index := by
  induction inserted with
  | new => exact .new
  | insert vector inserted room run _ ih =>
    have length := (inserted.grown.insert ops room run).2
    exact .insert vector (ih room) (by omega) run

end Runs

/-- The node at 10 is deleted. Some nodes list it that it does not list, and its two neighbors are linked to
others. -/
theorem distinct_neighbors_seven : ∃ index after, insertAll FloatOps.whole
      ([3, 20, 10, 13, 12, 1, 6].map fun place => [F32.ofWhole false place])
      (new ⟨.euclideanSquared, 2, 4, 8, 4, 0, 0⟩) = some index ∧
    delete FloatOps.whole 2 index = .ok () after ∧
    [index, after].map (fun index => index.nodes.map Node.neighbors) =
      [[[[1, 2, 5, 6]], [[0, 2, 3]], [[4, 6]], [[2, 1, 4]], [[3, 2]], [[0]], [[0, 2]]],
        [[[1, 2, 5, 6]], [[0, 2, 3, 4]], [[4, 6]], [[2, 1, 4, 6]], [[3, 6, 1]], [[0, 6]], [[0, 4, 5, 3]]]] ∧
    ∀ node ∈ after.nodes, ∀ list ∈ node.neighbors, list.Nodup := by
  have ran : ((insertAll FloatOps.whole ([3, 20, 10, 13, 12, 1, 6].map fun place => [F32.ofWhole false place])
      (new ⟨.euclideanSquared, 2, 4, 8, 4, 0, 0⟩)).bind fun index =>
        (delete FloatOps.whole 2 index).left.map fun after => ((index.nodes.length,
          decide (index.MutualDelete 2)), [index, after].map fun index => index.nodes.map Node.neighbors)) =
      some ((7, true), [[[[1, 2, 5, 6]], [[0, 2, 3]], [[4, 6]], [[2, 1, 4]], [[3, 2]], [[0]], [[0, 2]]],
        [[[1, 2, 5, 6]], [[0, 2, 3, 4]], [[4, 6]], [[2, 1, 4, 6]], [[3, 6, 1]], [[0, 6]],
          [[0, 4, 5, 3]]]]) := by
    decide +kernel
  obtain ⟨index, inserts, ran⟩ := Option.bind_eq_some_iff.mp ran
  obtain ⟨after, deletes, same⟩ := Option.map_eq_some_iff.mp ran
  obtain ⟨⟨⟩, deletes⟩ := Outcome.left_eq_some.mp deletes
  obtain ⟨facts, lists⟩ := Prod.mk.inj same
  obtain ⟨seven, mutual_⟩ := Prod.mk.inj facts
  have mutually : Mutually FloatOps.whole ⟨.euclideanSquared, 2, 4, 8, 4, 0, 0⟩ index :=
    (Inserted.all FloatOps.whole _ Inserted.new inserts (show 0 + 7 ≤ nodeIdBound by decide)).mutually
      FloatOps.whole (by rw [seven]; decide)
  refine ⟨index, after, inserts, deletes, lists, fun node member list listed => ?_⟩
  obtain ⟨id, here⟩ := List.mem_iff_getElem?.mp member
  obtain ⟨layer, atLayer⟩ := List.mem_iff_getElem?.mp listed
  exact distinct_neighbors FloatOps.whole (mutually.delete 2 (of_decide_eq_true mutual_) deletes) here atLayer

/-- **A repair may repeat a neighbor.** Node 3 has dropped node 2 from its list, but not the other way
round. When node 4 is deleted, the repair of node 2 links it to node 3 again. -/
theorem neighbors_repeat : ¬ ∀ (params : HnswParams) (index : HnswIndex), 1 ≤ params.m →
    params.m ≤ params.mMax0 → 1 ≤ params.efConstruction → Reachable FloatOps.whole params index →
    ∀ node ∈ index.nodes, ∀ list ∈ node.neighbors, list.Nodup := by
  intro always
  let params : HnswParams := ⟨.euclideanSquared, 2, 3, 4, 4, 0, 0⟩
  let vectors : List (List F32) := [3, 20, 10, 13, 12].map fun n => [F32.ofWhole false n]
  have repeated : ((insertAll FloatOps.whole vectors (new params)).bind fun index =>
      (delete FloatOps.whole 4 index).left.map fun after =>
        (index.nodes.length, after.nodes.map Node.neighbors)) =
      some (5, [[[1, 2]], [[0, 2, 3]], [[0, 3]], [[2, 1, 2]], [[3, 2]]]) := by decide +kernel
  obtain ⟨index, inserts, repeated⟩ := Option.bind_eq_some_iff.mp repeated
  obtain ⟨after, deletes, same⟩ := Option.map_eq_some_iff.mp repeated
  obtain ⟨⟨⟩, deletes⟩ := Outcome.left_eq_some.mp deletes
  obtain ⟨five, lists⟩ := Prod.mk.inj same
  have reachable : Reachable FloatOps.whole params index :=
    (Inserted.all FloatOps.whole vectors Inserted.new inserts
      (show 0 + 5 ≤ nodeIdBound by decide)).reachable FloatOps.whole
      (by rw [five]; decide)
  have nodup : ∀ layers ∈ after.nodes.map Node.neighbors, ∀ list ∈ layers, list.Nodup := by
    intro layers member list listed
    obtain ⟨node, inside, rfl⟩ := List.mem_map.mp member
    exact always params after (by decide) (by decide) (by decide) (reachable.delete 4 deletes) node
      inside list listed
  rw [lists] at nodup
  exact absurd (nodup [[2, 1, 2]] (by decide) [2, 1, 2] (by decide)) (by decide)

end HnswIndex

end Sastran

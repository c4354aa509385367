/-
The graph as an arena of vectors: what insertion and deletion do to it.

`Wf` is the representation invariant: layer counts, vector lengths, edges, and the entry point, which
is a live node of the highest level. On a well-formed graph insertion appends one live node
(`insert_succeeds`) and deletion marks one node (`delete_succeeds`); neither ever panics, and
everything else a reader of `contents` can see is unchanged.
-/

import Sastran.Hnsw.Links

namespace Sastran

open Device Partial

namespace HnswIndex

variable {index : HnswIndex} {id : NodeId}

/-- The vectors of the nodes, with whether they are deleted. -/
def contents (index : HnswIndex) : List (List F32 × Bool) :=
  index.nodes.map fun node => (node.vector, node.deleted)

/-- The entry point is a live node at its top layer, and no live node is higher. -/
structure IsTop (index : HnswIndex) (entry : EntryPoint) : Prop where
  live : ∃ node, index.nodes[entry.node]? = some node ∧ node.deleted = false ∧
    node.neighbors.length = entry.level + 1
  highest : ∀ node ∈ index.nodes, node.deleted = false → node.neighbors.length ≤ entry.level + 1

/-- **The representation invariant** of the graph. -/
structure Wf (index : HnswIndex) : Prop where
  layers : ∀ node ∈ index.nodes, 1 ≤ node.neighbors.length ∧ node.neighbors.length ≤ 31
  dims : ∀ node ∈ index.nodes, node.vector.length = index.dim
  sized : index.dim = 0 → index.nodes = []
  linked : index.Linked []
  top : ∀ entry, index.entry = some entry → index.IsTop entry
  alive : index.entry = none → ∀ node ∈ index.nodes, node.deleted = true

theorem new_wf (params : HnswParams) : (new params).Wf where
  layers := nofun
  dims := nofun
  sized := fun _ => rfl
  linked := ⟨fun id layer list found => by simp [new, neighborsAt] at found,
    fun id layer list found => by simp [new, neighborsAt] at found⟩
  top := nofun
  alive := fun _ => nofun

theorem contents_length (index : HnswIndex) : index.contents.length = index.nodes.length :=
  List.length_map _

theorem contents_getElem? (index : HnswIndex) (id : NodeId) :
    index.contents[id]? = index.nodes[id]?.map fun node => (node.vector, node.deleted) :=
  List.getElem?_map

theorem SameShape.contents {before after : HnswIndex} (same : SameShape before after) :
    after.contents = before.contents := by
  have shapes := congrArg (List.map fun shape : List F32 × Nat × Bool => (shape.1, shape.2.2)) same.nodes
  simpa [HnswIndex.contents, nodeShape, Function.comp_def] using shapes

/-- Rewiring keeps everything but the edges. -/
theorem SameShape.wf {before after : HnswIndex} (same : SameShape before after) (wf : before.Wf)
    (linked : after.Linked []) : after.Wf where
  layers := by
    intro node member
    obtain ⟨node', member', shape⟩ := same.mem member
    simp only [nodeShape, Prod.mk.injEq] at shape
    exact shape.2.1 ▸ wf.layers node' member'
  dims := by
    intro node member
    obtain ⟨node', member', shape⟩ := same.mem member
    simp only [nodeShape, Prod.mk.injEq] at shape
    rw [← shape.1, same.dim]
    exact wf.dims node' member'
  sized := by
    intro zero
    have none := wf.sized (same.dim ▸ zero)
    rw [← List.length_eq_zero_iff, same.length, none, List.length_nil]
  linked := linked
  top := by
    intro entry found
    obtain ⟨⟨node, here, live, level⟩, highest⟩ := wf.top entry (same.entry ▸ found)
    obtain ⟨node', here', shape⟩ := same.node here
    simp only [nodeShape, Prod.mk.injEq] at shape
    refine ⟨⟨node', here', shape.2.2.trans live, shape.2.1.trans level⟩, ?_⟩
    intro other member alive
    obtain ⟨other', member', shape'⟩ := same.mem member
    simp only [nodeShape, Prod.mk.injEq] at shape'
    exact shape'.2.1 ▸ highest other' member' (shape'.2.2.trans alive)
  alive := by
    intro none node member
    obtain ⟨node', member', shape⟩ := same.mem member
    simp only [nodeShape, Prod.mk.injEq] at shape
    exact shape.2.2 ▸ wf.alive (same.entry ▸ none) node' member'

/-! ### Insertion -/

section Changes

variable {D : Type} [LinearOrder D] (ops : FloatOps D)

omit [LinearOrder D] in
theorem assignLevel_le (index : HnswIndex) : index.assignLevel ops ≤ 30 := by
  unfold assignLevel
  omega

theorem neighborsAt_grow_old {processed : List F32} {level layer : Nat}
    (inside : id < index.nodes.length) :
    (index.grow processed level).neighborsAt id layer = index.neighborsAt id layer := by
  simp [neighborsAt, grow, List.getElem?_append_left inside]

theorem neighborsAt_grow_new {processed : List F32} {level layer : Nat} :
    (index.grow processed level).neighborsAt index.nodes.length layer =
      if layer < level + 1 then some [] else none := by
  simp [neighborsAt, grow, List.getElem?_replicate]

/-- A list of the grown arena is an old one, or an empty one of the new node. -/
theorem neighborsAt_grow {processed : List F32} {level layer : Nat} {list : List NodeId}
    (found : (index.grow processed level).neighborsAt id layer = some list) :
    index.neighborsAt id layer = some list ∨ (id = index.nodes.length ∧ list = []) := by
  obtain ⟨node, here, _⟩ := neighborsAt_eq_some.mp found
  have inside := (List.getElem?_eq_some_iff.mp here).1
  simp only [grow, List.length_append, List.length_singleton] at inside
  rcases Nat.lt_succ_iff_lt_or_eq.mp inside with old | rfl
  · exact Or.inl (neighborsAt_grow_old old ▸ found)
  · rw [neighborsAt_grow_new] at found
    split at found
    · cases found
      exact Or.inr ⟨rfl, rfl⟩
    · cases found

theorem HasLayer.grow {layer : Nat} (has : index.HasLayer id layer) (processed : List F32)
    (level : Nat) : (index.grow processed level).HasLayer id layer := by
  obtain ⟨list, found⟩ := has
  exact ⟨list, by rw [neighborsAt_grow_old (HasLayer.inside ⟨list, found⟩)]; exact found⟩

theorem grow_linked (linked : index.Linked []) (processed : List F32) (level : Nat) :
    (index.grow processed level).Linked [] := by
  constructor
  · intro id layer list found other member
    rcases neighborsAt_grow found with found | ⟨_, rfl⟩
    · obtain ⟨away, has⟩ := linked.edges id layer list found other member
      exact ⟨away, has.grow processed level⟩
    · cases member
  · intro id layer list found tight
    rcases neighborsAt_grow found with found | ⟨_, rfl⟩
    · exact linked.degree id layer list found tight
    · exact Nat.zero_le _

/-- No list of the grown arena mentions the new node. -/
theorem grow_unseen (linked : index.Linked []) (processed : List F32) (level layer : Nat) :
    (index.grow processed level).Unseen index.nodes.length layer := by
  intro other list found member
  rcases neighborsAt_grow found with found | ⟨_, rfl⟩
  · exact absurd (linked.edges other layer list found _ member).2.inside (lt_irrefl _)
  · cases member

/-- **A node is added** and linked: its id is the size of the arena, and the entry point moves to it
if it is the highest node. -/
theorem addNode_some (wf : index.Wf) {processed : List F32} (sized : processed.length = index.dim)
    (nonzero : index.dim ≠ 0) (room : index.nodes.length < nodeIdBound) :
    ∃ after, index.addNode ops processed = some (index.nodes.length, after) ∧ after.Wf ∧
      after.contents = index.contents ++ [(processed, false)] ∧ after.params = index.params ∧
      after.metric = index.metric ∧ after.dim = index.dim := by
  have level_le := assignLevel_le ops index
  obtain ⟨level, levelDef⟩ : ∃ level, level = index.assignLevel ops := ⟨_, rfl⟩
  rw [← levelDef] at level_le
  have linked := grow_linked wf.linked processed level
  have grown_contents : (index.grow processed level).contents = index.contents ++ [(processed, false)] := by
    simp [contents, grow]
  have layers : ∀ node ∈ (index.grow processed level).nodes,
      1 ≤ node.neighbors.length ∧ node.neighbors.length ≤ 31 := by
    intro node member
    rcases List.mem_append.mp member with member | member
    · exact wf.layers node member
    · rw [List.mem_singleton.mp member, List.length_replicate]
      omega
  have dims : ∀ node ∈ (index.grow processed level).nodes, node.vector.length = index.dim := by
    intro node member
    rcases List.mem_append.mp member with member | member
    · exact wf.dims node member
    · rw [List.mem_singleton.mp member]
      exact sized
  have new_here : (index.grow processed level).nodes[index.nodes.length]? =
      some ⟨processed, List.replicate (level + 1) [], false⟩ := by
    simp [grow]
  have new_layer : ∀ layer ≤ level, (index.grow processed level).HasLayer index.nodes.length layer :=
    fun layer low => ⟨[], by rw [neighborsAt_grow_new, if_pos (Nat.lt_succ_of_le low)]⟩
  -- The entry point after the new node was added, by its level.
  have entered : ∀ point : EntryPoint, (index.grow processed level).IsTop point →
      ({ index.grow processed level with entry := some point } : HnswIndex).Wf := by
    intro point top
    exact ⟨layers, dims, fun zero => absurd zero nonzero, ⟨linked.edges, linked.degree⟩,
      fun entry found => by cases found; exact ⟨top.live, top.highest⟩, nofun⟩
  have same_id : index.nodes.length % nodeIdBound = index.nodes.length := Nat.mod_eq_of_lt room
  cases entryDef : index.entry with
  | none =>
    have top : (index.grow processed level).IsTop ⟨index.nodes.length, level⟩ := by
      refine ⟨⟨_, new_here, rfl, List.length_replicate⟩, ?_⟩
      intro node member live
      rcases List.mem_append.mp member with member | member
      · rw [wf.alive entryDef node member] at live
        cases live
      · rw [List.mem_singleton.mp member, List.length_replicate]
    refine ⟨_, ?_, entered _ top, grown_contents, rfl, rfl, rfl⟩
    simp only [addNode, entryDef, same_id, ← levelDef]
  | some entry =>
    obtain ⟨⟨node, here, live, entry_level⟩, highest⟩ := wf.top entry entryDef
    have inside := (List.getElem?_eq_some_iff.mp here).1
    have entry_layer : index.HasLayer entry.node entry.level :=
      hasLayer_iff.mpr ⟨node, here, by omega⟩
    have closed := fun layer => linked.closed_ne (grow_unseen wf.linked processed level layer)
    obtain ⟨start, descended, start_layer, away⟩ := descend_some ops processed
      closed (fun low high id below held => ⟨held.1.mono below, held.2⟩) level
      ⟨entry_layer.grow processed level, inside.ne⟩
    obtain ⟨after, run, shape, linked'⟩ := linkLayers_some ops processed linked
      (new_layer _ (min_le_left level entry.level)) start_layer away
      (fun layer _ => grow_unseen wf.linked processed level layer)
    -- The graph is well formed with either entry point.
    have result : index.addNode ops processed = some (index.nodes.length,
        after.raiseEntry entry.level ⟨index.nodes.length, level⟩) := by
      simp [addNode, entryDef, same_id, ← levelDef, descended, run]
    rw [result, raiseEntry]
    split
    · rename_i higher
      have top : (index.grow processed level).IsTop ⟨index.nodes.length, level⟩ := by
        refine ⟨⟨_, new_here, rfl, List.length_replicate⟩, ?_⟩
        intro node member live
        rcases List.mem_append.mp member with member | member
        · exact (highest node member live).trans (by simp only at higher ⊢; omega)
        · rw [List.mem_singleton.mp member, List.length_replicate]
      have shape' : SameShape
          { index.grow processed level with entry := some ⟨index.nodes.length, level⟩ }
          { after with entry := some ⟨index.nodes.length, level⟩ } :=
        ⟨by rw [shape.rest], shape.nodes⟩
      exact ⟨_, rfl, shape'.wf (entered _ top) ⟨linked'.edges, linked'.degree⟩,
        shape.contents.trans grown_contents, shape.params, shape.metric, shape.dim⟩
    · rename_i lower
      have lower : level ≤ entry.level := not_lt.mp lower
      have top : (index.grow processed level).IsTop entry := by
        refine ⟨⟨node, by simp [grow, List.getElem?_append_left inside, here], live, entry_level⟩, ?_⟩
        intro other member live
        rcases List.mem_append.mp member with member | member
        · exact highest other member live
        · rw [List.mem_singleton.mp member, List.length_replicate]
          omega
      have same_entry : ({ index.grow processed level with entry := some entry } : HnswIndex) =
          index.grow processed level := by
        simp [grow, entryDef]
      have grown_wf := entered entry top
      rw [same_entry] at grown_wf
      exact ⟨_, rfl, shape.wf grown_wf linked', shape.contents.trans grown_contents, shape.params,
        shape.metric, shape.dim⟩

/-- **Insertion** of a vector the metric accepts, of the index's dimension if it has one. -/
theorem insert_succeeds (wf : index.Wf) {vector processed : List F32}
    (accepted : ops.preprocessVector index.metric vector = some processed) (nonempty : vector ≠ [])
    (sized : index.dim = 0 ∨ vector.length = index.dim) (room : index.nodes.length < nodeIdBound) :
    Succeeds (insert ops vector) index fun id after =>
      id = index.nodes.length ∧ after.Wf ∧ after.contents = index.contents ++ [(processed, false)] ∧
      after.params = index.params ∧ after.metric = index.metric ∧ after.dim = vector.length := by
  have established : Succeeds (establishDim vector) index fun _ middle =>
      middle = { index with dim := vector.length } := by
    refine Succeeds.bind ⟨index, index, rfl, ?_⟩
    show Succeeds (if index.dim = 0 then _ else _) index _
    by_cases zero : index.dim = 0
    · rw [if_pos zero, if_neg (by simpa using nonempty)]
      exact ⟨(), _, rfl, rfl⟩
    · rw [if_neg zero, if_neg (not_not.mpr (sized.resolve_left zero))]
      refine Succeeds.pure ?_
      rw [sized.resolve_left zero]
  refine Succeeds.bind (established.mono fun _ middle same => ?_)
  have wf' : ({ index with dim := vector.length } : HnswIndex).Wf := by
    rcases sized with zero | same
    · have none := wf.sized zero
      have dims : ∀ node ∈ index.nodes, node.vector.length = vector.length := by rw [none]; exact nofun
      exact ⟨wf.layers, dims, fun _ => none, ⟨wf.linked.edges, wf.linked.degree⟩,
        fun entry found => ⟨(wf.top entry found).live, (wf.top entry found).highest⟩, wf.alive⟩
    · rw [same]
      exact wf
  obtain ⟨after, run, grown⟩ := addNode_some ops wf' (FloatOps.preprocess_length accepted)
    (fun none => nonempty (List.length_eq_zero_iff.mp none)) room
  rw [same]
  refine Succeeds.bind ⟨_, _, rfl, ?_⟩
  simp only [accepted]
  refine Succeeds.bind ⟨_, _, by rw [run]; rfl, ?_⟩
  exact ⟨index.nodes.length, after, rfl, rfl, grown⟩

/-! ### Deletion -/

/-- The arena with a node marked. -/
def mark (index : HnswIndex) (id : NodeId) (node : Node) : HnswIndex :=
  { index with nodes := index.nodes.set id { node with deleted := true } }

theorem neighborsAt_mark {node : Node} (here : index.nodes[id]? = some node) (other : NodeId)
    (layer : Nat) : (index.mark id node).neighborsAt other layer = index.neighborsAt other layer := by
  have inside := (List.getElem?_eq_some_iff.mp here).1
  by_cases same : id = other
  · subst same
    simp only [neighborsAt, mark, List.getElem?_set_self inside, here]
    rfl
  · simp [neighborsAt, mark, same]

theorem mark_linked {node : Node} (here : index.nodes[id]? = some node) (linked : index.Linked []) :
    (index.mark id node).Linked [] := by
  constructor
  · intro other layer list found target member
    rw [neighborsAt_mark here] at found
    obtain ⟨away, list', has⟩ := linked.edges other layer list found target member
    exact ⟨away, list', by rw [neighborsAt_mark here, has]⟩
  · intro other layer list found tight
    rw [neighborsAt_mark here] at found
    exact linked.degree other layer list found tight

theorem mem_mark {node other : Node} (here : index.nodes[id]? = some node)
    (member : other ∈ (index.mark id node).nodes) :
    ∃ old ∈ index.nodes, old.vector = other.vector ∧ old.neighbors.length = other.neighbors.length ∧
      (other.deleted = false → old.deleted = false) := by
  rcases List.mem_or_eq_of_mem_set member with member | rfl
  · exact ⟨other, member, rfl, rfl, fun live => live⟩
  · exact ⟨node, List.mem_of_getElem? here, rfl, rfl, nofun⟩

/-- Of the nodes in front, `best` is a live one of the highest level. -/
structure Leads (index : HnswIndex) (front : List (Node × Nat)) (best : Option EntryPoint) : Prop where
  live : ∀ point, best = some point → ∃ node, index.nodes[point.node]? = some node ∧
    node.deleted = false ∧ node.neighbors.length = point.level + 1
  highest : ∀ point, best = some point → ∀ old ∈ front, old.1.deleted = false →
    old.1.neighbors.length ≤ point.level + 1
  dead : best = none → ∀ old ∈ front, old.1.deleted = true

theorem considerEntry_some {front : List (Node × Nat)} {best : Option EntryPoint} {node : Node}
    {idx : Nat} (here : index.nodes[idx]? = some node) (small : idx < nodeIdBound)
    (layers : 1 ≤ node.neighbors.length ∧ node.neighbors.length ≤ 31)
    (leads : Leads index front best) :
    ∃ next, considerEntry best (node, idx) = some next ∧
      Leads index (front ++ [(node, idx)]) next := by
  have same_level : (node.neighbors.length - 1) % 256 + 1 = node.neighbors.length := by omega
  unfold considerEntry
  cases deleted : node.deleted with
  | true =>
    refine ⟨best, by rw [if_pos rfl], leads.live, fun point same old member live => ?_,
      fun none old member => ?_⟩
    · rcases List.mem_append.mp member with member | member
      · exact leads.highest point same old member live
      · rw [List.mem_singleton.mp member, deleted] at live
        cases live
    · rcases List.mem_append.mp member with member | member
      · exact leads.dead none old member
      · rw [List.mem_singleton.mp member]
        exact deleted
  | false =>
    have nonempty : ¬ node.neighbors.isEmpty := by
      intro empty
      rw [List.isEmpty_iff.mp empty] at layers
      exact absurd layers.1 (Nat.not_succ_le_zero 0)
    have this_point : ∃ node', index.nodes[idx % nodeIdBound]? = some node' ∧
        node'.deleted = false ∧
        node'.neighbors.length = (node.neighbors.length - 1) % 256 + 1 :=
      ⟨node, by rw [Nat.mod_eq_of_lt small, here], deleted, same_level.symm⟩
    rw [if_neg Bool.false_ne_true, if_neg nonempty]
    cases best with
    | none =>
      refine ⟨_, rfl, fun point same => by cases same; exact this_point,
        fun point same old member live => ?_, nofun⟩
      cases same
      rcases List.mem_append.mp member with member | member
      · rw [leads.dead rfl old member] at live
        cases live
      · rw [List.mem_singleton.mp member]
        exact same_level.ge
    | some held =>
      refine ⟨_, rfl, fun point same => ?_, fun point same old member live => ?_, nofun⟩
      · cases same
        split
        · exact this_point
        · exact leads.live held rfl
      · cases same
        rcases List.mem_append.mp member with member | member
        · have below := leads.highest held rfl old member live
          split
          · rename_i higher
            exact below.trans (Nat.succ_le_succ higher)
          · exact below
        · rw [List.mem_singleton.mp member]
          split
          · exact same_level.ge
          · rename_i lower
            simp only at lower ⊢
            omega

/-- **The new entry point** is a live node of the highest level. -/
theorem pickNewEntry_some
    (layers : ∀ node ∈ index.nodes, 1 ≤ node.neighbors.length ∧ node.neighbors.length ≤ 31)
    (room : index.nodes.length ≤ nodeIdBound) :
    ∃ entry, index.pickNewEntry = some entry ∧ (∀ point, entry = some point → index.IsTop point) ∧
      (entry = none → ∀ node ∈ index.nodes, node.deleted = true) := by
  have round : ∀ (item : Node × Nat) (rest : List (Node × Nat)) (best : Option EntryPoint),
      (∃ front, index.nodes.zipIdx = front ++ item :: rest ∧ Leads index front best) →
      ∃ next, considerEntry best item = some next ∧
        ∃ front, index.nodes.zipIdx = front ++ rest ∧ Leads index front next := by
    rintro ⟨node, idx⟩ rest best ⟨front, whole, leads⟩
    have listed : (node, idx) ∈ index.nodes.zipIdx := by rw [whole]; simp
    have here := List.mem_zipIdx_iff_getElem?.mp listed
    have inside := (List.getElem?_eq_some_iff.mp here).1
    obtain ⟨next, run, leads'⟩ := considerEntry_some here (lt_of_lt_of_le inside room)
      (layers node (List.mem_of_getElem? here)) leads
    exact ⟨next, run, front ++ [(node, idx)], by simp [whole], leads'⟩
  obtain ⟨entry, run, front, whole, leads⟩ := foldlM_some
    (fun rest best => ∃ front, index.nodes.zipIdx = front ++ rest ∧ Leads index front best)
    round index.nodes.zipIdx none ⟨[], rfl, nofun, nofun, fun _ => nofun⟩
  rw [List.append_nil] at whole
  have listed : ∀ node ∈ index.nodes, ∃ idx, (node, idx) ∈ front := by
    intro node member
    obtain ⟨idx, here⟩ := List.mem_iff_getElem?.mp member
    exact ⟨idx, whole ▸ List.mem_zipIdx_iff_getElem?.mpr here⟩
  refine ⟨entry, run, fun point same => ⟨leads.live point same, fun node member live => ?_⟩,
    fun none node member => ?_⟩
  · obtain ⟨idx, member'⟩ := listed node member
    exact leads.highest point same _ member' live
  · obtain ⟨idx, member'⟩ := listed node member
    exact leads.dead none _ member'

/-- A node is removed by repairing its layers from the bottom up and then moving the entry point, if it
was there. -/
theorem removeNode_repaired (wf : index.Wf) {node : Node} (here : index.nodes[id]? = some node) :
    ∃ repaired, (List.range node.neighbors.length).foldlM (repairLayerAfterDelete ops id)
        (index.mark id node) = some repaired ∧
      SameShape (index.mark id node) repaired ∧ repaired.Linked [] ∧
      index.removeNode ops id =
        if repaired.entry.map EntryPoint.node = some id then do
          let entry ← repaired.pickNewEntry
          some { repaired with entry := entry }
        else some repaired := by
  obtain ⟨low, high⟩ := wf.layers node (List.mem_of_getElem? here)
  have nonempty : ¬ node.neighbors.isEmpty := by
    intro empty
    rw [List.isEmpty_iff.mp empty] at low
    exact absurd low (Nat.not_succ_le_zero 0)
  have levels : (node.neighbors.length - 1) % 256 + 1 = node.neighbors.length := by omega
  have all_layers : ∀ layer ∈ List.range node.neighbors.length,
      (index.mark id node).HasLayer id layer := by
    intro layer member
    obtain ⟨list, has⟩ := hasLayer_iff.mpr ⟨node, here, List.mem_range.mp member⟩
    exact ⟨list, by rw [neighborsAt_mark here, has]⟩
  obtain ⟨repaired, run, shape, linked, _⟩ := repairLayers_some ops id
    (List.range node.neighbors.length) (mark_linked here wf.linked) all_layers
  refine ⟨repaired, run, shape, linked, ?_⟩
  simp only [mark] at run
  simp only [removeNode, here, Option.bind_eq_bind, Option.bind_some]
  rw [if_neg nonempty, levels, run]
  rfl

/-- **A live node is removed**: it is marked, and its neighbors get new edges. -/
theorem removeNode_some (wf : index.Wf) {node : Node} (here : index.nodes[id]? = some node)
    (room : index.nodes.length ≤ nodeIdBound) :
    ∃ after, index.removeNode ops id = some after ∧ after.Wf ∧
      after.contents = index.contents.set id (node.vector, true) ∧ after.params = index.params ∧
      after.metric = index.metric ∧ after.dim = index.dim := by
  obtain ⟨repaired, _, shape, linked, start⟩ := removeNode_repaired ops wf here
  have contents : repaired.contents = index.contents.set id (node.vector, true) := by
    rw [shape.contents, HnswIndex.contents, mark, List.map_set]
    rfl
  have layers : ∀ other ∈ repaired.nodes, 1 ≤ other.neighbors.length ∧ other.neighbors.length ≤ 31 := by
    intro other member
    obtain ⟨other', member', same⟩ := shape.mem member
    simp only [nodeShape, Prod.mk.injEq] at same
    obtain ⟨old, member'', _, length, _⟩ := mem_mark here member'
    rw [← same.2.1, ← length]
    exact wf.layers old member''
  have dims : ∀ other ∈ repaired.nodes, other.vector.length = repaired.dim := by
    intro other member
    obtain ⟨other', member', same⟩ := shape.mem member
    simp only [nodeShape, Prod.mk.injEq] at same
    obtain ⟨old, member'', vector, _, _⟩ := mem_mark here member'
    rw [← same.1, ← vector, shape.dim]
    exact wf.dims old member''
  have length : repaired.nodes.length = index.nodes.length := by
    rw [shape.length, mark, List.length_set]
  have sized : repaired.dim = 0 → repaired.nodes = [] := by
    intro zero
    have none := wf.sized (shape.dim ▸ zero)
    rw [← List.length_eq_zero_iff, length, none, List.length_nil]
  rw [start]
  by_cases moved : repaired.entry.map EntryPoint.node = some id
  · obtain ⟨entry, picked, top, none_live⟩ := pickNewEntry_some layers (length ▸ room)
    rw [if_pos moved, picked]
    refine ⟨_, rfl, ⟨layers, dims, sized, ⟨linked.edges, linked.degree⟩, ?_, none_live⟩, contents,
      shape.params, shape.metric, shape.dim⟩
    exact fun point same => ⟨(top point same).live, (top point same).highest⟩
  · rw [if_neg moved]
    refine ⟨_, rfl, ⟨layers, dims, sized, linked, ?_, ?_⟩, contents, shape.params, shape.metric,
      shape.dim⟩
    · intro point same
      have same' : index.entry = some point := by
        rw [shape.entry] at same
        exact same
      obtain ⟨⟨top, found, live, level⟩, highest⟩ := wf.top point same'
      have away : id ≠ point.node := by
        rintro rfl
        exact moved (by rw [same]; rfl)
      have marked : (index.mark id node).nodes[point.node]? = some top := by
        rw [mark, List.getElem?_set_ne away, found]
      obtain ⟨top', found', same_shape⟩ := shape.node marked
      simp only [nodeShape, Prod.mk.injEq] at same_shape
      refine ⟨⟨top', found', same_shape.2.2.trans live, same_shape.2.1.trans level⟩, ?_⟩
      intro other member alive
      obtain ⟨other', member', same_shape'⟩ := shape.mem member
      simp only [nodeShape, Prod.mk.injEq] at same_shape'
      obtain ⟨old, member'', _, length, dead⟩ := mem_mark here member'
      rw [← same_shape'.2.1, ← length]
      exact highest old member'' (dead (same_shape'.2.2.trans alive))
    · intro none other member
      obtain ⟨other', member', same_shape⟩ := shape.mem member
      simp only [nodeShape, Prod.mk.injEq] at same_shape
      obtain ⟨old, member'', _, _, dead⟩ := mem_mark here member'
      have all_dead := wf.alive (by rw [shape.entry] at none; exact none) old member''
      by_contra alive
      have alive' : other'.deleted = false := by rw [same_shape.2.2]; simpa using alive
      rw [dead alive'] at all_dead
      cases all_dead

/-- **Deletion** of a live node. -/
theorem delete_succeeds (wf : index.Wf) {vector : List F32}
    (live : index.contents[id]? = some (vector, false)) (room : index.nodes.length ≤ nodeIdBound) :
    Succeeds (delete ops id) index fun _ after =>
      after.Wf ∧ after.contents = index.contents.set id (vector, true) ∧
      after.params = index.params ∧ after.metric = index.metric ∧ after.dim = index.dim := by
  rw [contents_getElem?, Option.map_eq_some_iff] at live
  obtain ⟨node, here, same⟩ := live
  simp only [Prod.mk.injEq] at same
  obtain ⟨rfl, alive⟩ := same
  have inside := (List.getElem?_eq_some_iff.mp here).1
  obtain ⟨after, run, removed⟩ := removeNode_some ops wf here room
  refine Succeeds.bind ⟨index, index, rfl, ?_⟩
  show Succeeds (if id ≥ index.nodes.length then _ else _) index _
  rw [if_neg (not_le.mpr inside), if_neg (by simp [isDeleted, here, alive])]
  exact Succeeds.bind ⟨after, index, by rw [run]; rfl, (), after, rfl, removed⟩

end Changes

end HnswIndex

end Sastran

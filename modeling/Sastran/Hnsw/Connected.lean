/-
Which nodes a search can get to.

A neighbor list that is over its bound is trimmed, and trimming does not ask whether an edge is the
only one into a node.

* `inserted_findable` - insertions that trim no list leave every node in reach of the entry point;
  `inserted_lost` shows that any other may lose one.

It rests on what the operations on lists do (`linkLayer_lists`, `addNode_lists`): a list with room only
grows, and other lists stay as they are.
-/

import Sastran.Hnsw.Selection

namespace Sastran

open Partial Device

namespace HnswIndex

variable {index after : HnswIndex} {id : NodeId} {layer : Nat}

section Lists

variable {D : Type} [LinearOrder D] (ops : FloatOps D)

/-! ### Linking -/

/-- A beam search finds something. -/
theorem searchLayer_nonempty {query : List F32} {start : NodeId} {ef : Nat}
    {results : List (Candidate D)} (run : index.searchLayer ops query start layer ef = some results) :
    results ≠ [] := by
  simp only [searchLayer, Option.bind_eq_bind, Option.bind_eq_some_iff] at run
  obtain ⟨dist, _, run⟩ := run
  refine beamLoop_rule ops query (fun beam => beam.results ≠ []) (fun results => results ≠ [])
    (fun _ holds _ => holds) (fun _ _ _ holds _ _ => holds) ?_ _ _ results (List.cons_ne_nil _ _) run
  intro beam closest rest neighbors next holds _ _ expanded
  refine foldlM_rule (fun _ (beam : Beam D) => beam.results ≠ []) ?_ neighbors
    { beam with candidates := rest } next holds expanded
  intro neighbor rest beam next holds visited
  unfold visitNeighbor at visited
  split at visited
  · cases visited
    exact holds
  · simp only [Option.bind_eq_bind, Option.bind_eq_some_iff] at visited
    obtain ⟨dist, _, visited⟩ := visited
    split at visited
    · cases visited
      show (if _ then _ else _) ≠ []
      split
      · -- The result that is taken away is not the only one.
        split
        · rename_i popped
          have length := Heap.popMax_length popped
          have some_left := List.length_pos_iff.mpr holds
          rw [List.length_cons] at length
          exact List.length_pos_iff.mp (by omega)
        · exact List.cons_ne_nil _ _
      · exact List.cons_ne_nil _ _
    · cases visited
      exact holds

/-- **A node is linked at one layer**: its list is that of the nodes chosen, and each of them whose list
has room gets the node at its end. -/
theorem linkLayer_lists {query : List F32} {start : NodeId} {result : HnswIndex × NodeId}
    (linked : index.Linked []) (from_start : index.HasLayer start layer) (different : start ≠ id)
    (unseen : index.Unseen id layer)
    (run : linkLayer ops query id (index, start) layer = some result) :
    ∃ neighbors : List NodeId, (1 ≤ index.params.m → neighbors ≠ []) ∧
      (∀ other ∈ neighbors, other ≠ id ∧ index.HasLayer other layer) ∧
      result.1.neighborsAt id layer = some neighbors ∧
      (∀ other, other ≠ id → other ∉ neighbors →
        result.1.neighborsAt other layer = index.neighborsAt other layer) ∧
      ∀ other list, other ∈ neighbors → index.neighborsAt other layer = some list →
        list.length < index.maxDegree layer →
        result.1.neighborsAt other layer = some (list ++ [id]) := by
  simp only [linkLayer, Option.bind_eq_bind, Option.bind_eq_some_iff] at run
  obtain ⟨candidates, searched, neighbors, selected, changed, changing, wired, wiring, run⟩ := run
  cases run
  obtain ⟨candidates', searched', found⟩ := searchLayer_some ops query (linked.closed_ne unseen)
    ⟨from_start, different⟩ index.params.efConstruction
  rw [searched, Option.some.injEq] at searched'
  subst searched'
  have inside : ∀ candidate ∈ candidates, candidate.id < index.nodes.length :=
    fun candidate member => (found candidate member).1.inside
  obtain ⟨distinct, among, _⟩ := chooseNeighbors_distinct ops
    (searchLayer_measured ops query searched).1 inside selected
  have named : ∀ other ∈ neighbors.map Candidate.id, other ≠ id ∧ index.HasLayer other layer := by
    intro other member
    obtain ⟨candidate, picked, rfl⟩ := List.mem_map.mp member
    exact (found candidate (among candidate picked)).symm
  have away : id ∉ neighbors.map Candidate.id := fun member => (named id member).1 rfl
  obtain ⟨list, _, _, lists⟩ := modifyLayer_lists changing
  have elsewhere : ∀ other, other ≠ id →
      changed.neighborsAt other layer = index.neighborsAt other layer := by
    intro other different
    rw [lists, if_neg fun same => different same.1.symm]
  have linking := wires_wired ops neighbors distinct wiring
  refine ⟨neighbors.map Candidate.id, fun positive => ?_, named, ?_, fun other different missing => ?_,
    fun other list member here room => ?_⟩
  · have chosen := chooseNeighbors_nonempty ops positive
      (searchLayer_nonempty ops searched) inside selected
    rwa [Ne, List.map_eq_nil_iff]
  · rw [linking.outside id away, lists, if_pos ⟨rfl, rfl⟩]
  · rw [linking.outside other missing, elsewhere other different]
  · exact linking.roomy ops member (by rw [elsewhere other (named other member).1, here]) room

/-- The bottom layer is linked last, and no layer above it touches its lists. -/
theorem linkLayers_bottom {query : List F32} {start : NodeId} {top : Nat} (linked : index.Linked [])
    (has : index.HasLayer id top) (from_start : index.HasLayer start top) (different : start ≠ id)
    (unseen : ∀ layer ≤ top, index.Unseen id layer)
    (run : index.linkLayers ops query id start top = some after) :
    ∃ (middle : HnswIndex) (start' : NodeId) (result : HnswIndex × NodeId), SameShape index middle ∧
      middle.Linked [] ∧ middle.HasLayer start' 0 ∧ start' ≠ id ∧
      (∀ other, middle.neighborsAt other 0 = index.neighborsAt other 0) ∧
      linkLayer ops query id (middle, start') 0 = some result ∧ after = result.1 := by
  have split : (List.range (top + 1)).reverse = (List.range' 1 top).reverse ++ [0] := by
    rw [List.range_eq_range', List.range'_succ, List.reverse_cons]
  have descending : (List.range' 1 top).reverse.Pairwise (· > ·) := by
    rw [List.pairwise_reverse]
    exact List.pairwise_lt_range'
  have within : ∀ layer ∈ (List.range' 1 top).reverse, 1 ≤ layer ∧ layer ≤ top := by
    intro layer member
    have bounds := List.mem_range'_1.mp (List.mem_reverse.mp member)
    omega
  obtain ⟨⟨middle, start'⟩, run', shape, linked', away, below⟩ := linkDown_some ops query
    (List.range' 1 top).reverse linked has from_start different descending
    fun layer member => ⟨(within layer member).2, unseen layer (within layer member).2⟩
  obtain ⟨reached, same⟩ := below 0 (Nat.zero_le _) fun layer member => (within layer member).1
  simp only [linkLayers, split, List.foldlM_append, run', Option.bind_eq_bind, Option.bind_some,
    List.foldlM_cons, List.foldlM_nil, Option.bind_eq_some_iff] at run
  obtain ⟨result, ⟨result', last, ended⟩, run⟩ := run
  cases ended
  cases run
  exact ⟨middle, start', result, shape, linked', reached, away, same, last, rfl⟩

/-! ### Insertion -/

/-- **What an insertion does to the bottom layer**: the new node's list is that of the nodes chosen, and
each of them whose list has room gets the new node at its end. -/
theorem addNode_lists (linked : index.Linked []) {entry : EntryPoint}
    (found : index.entry = some entry) (entry_layer : index.HasLayer entry.node entry.level)
    (room : index.nodes.length < nodeIdBound) {processed : List F32}
    (run : index.addNode ops processed = some (id, after)) :
    id = index.nodes.length ∧ ∃ neighbors : List NodeId,
      (1 ≤ index.params.m → neighbors ≠ []) ∧ (∀ other ∈ neighbors, index.HasLayer other 0) ∧
      after.neighborsAt id 0 = some neighbors ∧
      (∀ other < index.nodes.length, other ∉ neighbors →
        after.neighborsAt other 0 = index.neighborsAt other 0) ∧
      ∀ other list, other ∈ neighbors → index.neighborsAt other 0 = some list →
        list.length < index.params.mMax0 → after.neighborsAt other 0 = some (list ++ [id]) := by
  obtain ⟨level, levelDef⟩ : ∃ level, level = index.assignLevel ops := ⟨_, rfl⟩
  have unseen := fun layer => grow_unseen linked processed level layer
  have linked := grow_linked linked processed level
  have new_layer : ∀ layer ≤ level, (index.grow processed level).HasLayer index.nodes.length layer :=
    fun layer low => ⟨[], by rw [neighborsAt_grow_new, if_pos (Nat.lt_succ_of_le low)]⟩
  obtain ⟨start, descended, start_layer, away⟩ := descend_some ops processed
    (fun layer => linked.closed_ne (unseen layer))
    (fun low high id below held => ⟨held.1.mono below, held.2⟩) level
    (⟨entry_layer.grow processed level, entry_layer.inside.ne⟩ :
      (index.grow processed level).HasLayer entry.node entry.level ∧ entry.node ≠ index.nodes.length)
  simp only [addNode, found, ← levelDef, Nat.mod_eq_of_lt room, descended, Option.bind_eq_bind,
    Option.bind_some, Option.bind_eq_some_iff, Option.some.injEq, Prod.mk.injEq] at run
  obtain ⟨wired, linking, rfl, raised⟩ := run
  have lists : ∀ other, after.neighborsAt other 0 = wired.neighborsAt other 0 := by
    intro other
    rw [← raised, raiseEntry]
    split <;> rfl
  obtain ⟨middle, start', result, shape, linked', reached, away', same, last, rfl⟩ :=
    linkLayers_bottom ops linked (new_layer _ (min_le_left level entry.level)) start_layer away
      (fun layer _ => unseen layer) linking
  have unseen' : middle.Unseen index.nodes.length 0 := by
    intro other list found
    rw [same] at found
    exact unseen 0 other list found
  obtain ⟨neighbors, nonempty, named, own, outside, grown⟩ := linkLayer_lists ops linked' reached away'
    unseen' last
  have params : middle.params = index.params := shape.params
  have old : ∀ other < index.nodes.length, middle.neighborsAt other 0 = index.neighborsAt other 0 :=
    fun other small => (same other).trans (neighborsAt_grow_old small)
  have small : ∀ other ∈ neighbors, other < index.nodes.length := by
    intro other member
    obtain ⟨different, has⟩ := named other member
    have grown_length : middle.nodes.length = index.nodes.length + 1 := by
      rw [shape.length]
      simp [grow]
    have below : other < index.nodes.length + 1 := has.inside.trans_eq grown_length
    exact lt_of_le_of_ne (Nat.le_of_lt_succ below) different
  refine ⟨rfl, neighbors, by rwa [params] at nonempty, fun other member => ?_, by rw [lists, own],
    fun other small missing => ?_, fun other list member here room => ?_⟩
  · obtain ⟨list, held⟩ := (named other member).2
    exact ⟨list, by rw [← old other (small other member), held]⟩
  · rw [lists, outside other small.ne missing, old other small]
  · rw [lists]
    refine grown other list member (by rw [old other (small other member), here]) ?_
    rw [maxDegree, if_pos rfl, params]
    exact room

/-- What a successful insertion adds a node to. -/
theorem insert_addNode {vector : List F32} (run : insert ops vector index = .ok id after) :
    ∃ dim processed, ({ index with dim := dim } : HnswIndex).addNode ops processed = some (id, after) := by
  obtain ⟨dim, established | ⟨text, established⟩⟩ := establishDim_outcome vector index
  · rw [insert, bind_ok established, bind_ok (get_eq _)] at run
    refine ⟨dim, ?_⟩
    cases accepted : ops.preprocessVector index.metric vector with
    | none => simp only [accepted] at run; cases run
    | some processed =>
      simp only [accepted, bind_eq] at run
      cases added : ({ index with dim := dim } : HnswIndex).addNode ops processed with
      | none => rw [added] at run; cases run
      | some result =>
        rw [added] at run
        cases run
        exact ⟨processed, added⟩
  · rw [insert, bind_err established] at run
    cases run

end Lists

/-! ### Findable nodes -/

/-- More edges lead to more nodes. -/
theorem reached_mono {start : NodeId} (edges : ∀ one two, index.Edge layer one two → after.Edge layer one two)
    (member : id ∈ index.reached layer start) : id ∈ after.reached layer start :=
  Relation.ReflTransGen.mono edges _ _ member

/-- Every node can be reached from every node at the bottom layer. -/
def Connected (index : HnswIndex) : Prop :=
  ∀ one two, one < index.nodes.length → two < index.nodes.length → two ∈ index.reached 0 one

/-- Every node that the new one is linked to had room for the link back, so no list was trimmed. -/
def Roomy (before after : HnswIndex) (id : NodeId) : Prop :=
  ∀ neighbors other list, after.neighborsAt id 0 = some neighbors → other ∈ neighbors →
    before.neighborsAt other 0 = some list → list.length < before.params.mMax0

section Insertions

variable {D : Type} [LinearOrder D] (ops : FloatOps D) {params : HnswParams}

/-- A graph that successful insertions of a kind lead to. -/
inductive Inserted (params : HnswParams) (allowed : HnswIndex → HnswIndex → NodeId → Prop) :
    HnswIndex → Prop
  | new : Inserted params allowed (new params)
  | insert {before after : HnswIndex} {id : NodeId} (vector : List F32)
      (inserted : Inserted params allowed before) (room : before.nodes.length < nodeIdBound)
      (run : HnswIndex.insert ops vector before = .ok id after) (kind : allowed before after id) :
      Inserted params allowed after

/-- **A node is added** to a connected graph without trimming. -/
theorem Connected.insert (connected : index.Connected) (wf : index.Wf) (positive : 1 ≤ index.params.m)
    (first : index.entry = none → index.nodes = []) (room : index.nodes.length < nodeIdBound)
    {vector : List F32} (run : HnswIndex.insert ops vector index = .ok id after)
    (roomy : Roomy index after id) (length : after.nodes.length = index.nodes.length + 1) :
    after.Connected := by
  obtain ⟨dim, processed, added⟩ := insert_addNode ops run
  have linked : ({ index with dim := dim } : HnswIndex).Linked [] :=
    ⟨wf.linked.edges, wf.linked.degree⟩
  cases found : index.entry with
  | none =>
    intro one two small small'
    rw [length, first found] at small small'
    rw [Nat.lt_one_iff.mp small, Nat.lt_one_iff.mp small']
    exact after.start_mem_reached 0 0
  | some entry =>
    obtain ⟨rfl, neighbors, nonempty, named, own, outside, grown⟩ := addNode_lists ops linked found
      (wf.navigable.entry entry found) room added
    have edges : ∀ one two, index.Edge 0 one two → after.Edge 0 one two := by
      rintro one two ⟨list, here, member⟩
      by_cases chosen : one ∈ neighbors
      · exact ⟨_, grown one list chosen here (roomy neighbors one list own chosen here),
          List.mem_append_left _ member⟩
      · refine ⟨list, ?_, member⟩
        rw [outside one (HasLayer.inside ⟨list, here⟩) chosen]
        exact here
    obtain ⟨link, rest, chosen⟩ := List.exists_cons_of_ne_nil (nonempty positive)
    have picked : link ∈ neighbors := chosen ▸ List.mem_cons_self ..
    obtain ⟨list, here⟩ := named link picked
    have away : after.Edge 0 index.nodes.length link := ⟨neighbors, own, picked⟩
    have back : after.Edge 0 link index.nodes.length :=
      ⟨_, grown link list picked here (roomy neighbors link list own picked here),
        List.mem_append_right _ (List.mem_singleton_self _)⟩
    have inside : link < index.nodes.length := (named link picked).inside
    have old : ∀ one two, one < index.nodes.length → two < index.nodes.length →
        two ∈ after.reached 0 one :=
      fun one two small small' => reached_mono edges (connected one two small small')
    -- The new node leads to the one it is linked to, and the other way round.
    intro one two small small'
    rw [length] at small small'
    rcases Nat.lt_succ_iff_lt_or_eq.mp small with small | rfl <;>
      rcases Nat.lt_succ_iff_lt_or_eq.mp small' with small' | rfl
    · exact old one two small small'
    · exact Relation.ReflTransGen.tail (old one link small inside) back
    · exact Relation.ReflTransGen.head away (old link two inside small')
    · exact after.start_mem_reached 0 _

/-- What insertions keep: the graph is well formed, and no node is deleted. -/
structure Grown (params : HnswParams) (index : HnswIndex) : Prop where
  wf : index.Wf
  fixed : index.params = params
  alive : ∀ node ∈ index.nodes, node.deleted = false

/-- **A successful insertion** adds one live node. -/
theorem Grown.insert (grown : Grown params index) (room : index.nodes.length < nodeIdBound)
    {vector : List F32} (run : HnswIndex.insert ops vector index = .ok id after) :
    Grown params after ∧ after.nodes.length = index.nodes.length + 1 := by
  rcases insert_outcome ops grown.wf room vector with
    ⟨processed, _, _, run', wf, contents, fixed, _⟩ | ⟨_, _, _, run', _⟩
  · rw [run'] at run
    cases run
    have length := congrArg List.length contents
    rw [List.length_append, contents_length, contents_length, List.length_singleton] at length
    refine ⟨⟨wf, fixed.trans grown.fixed, fun node member => ?_⟩, length⟩
    have listed : (node.vector, node.deleted) ∈ index.contents ++ [(processed, false)] :=
      contents ▸ List.mem_map_of_mem (f := fun node : Node => (node.vector, node.deleted)) member
    rcases List.mem_append.mp listed with listed | listed
    · obtain ⟨old, member', same⟩ := List.mem_map.mp listed
      rw [← (Prod.mk.inj same).2]
      exact grown.alive old member'
    · exact (Prod.mk.inj (List.mem_singleton.mp listed)).2
  · rw [run'] at run
    cases run

/-- Without an entry point there is no node. -/
theorem Grown.empty (grown : Grown params index) (none : index.entry = none) : index.nodes = [] := by
  rw [List.eq_nil_iff_forall_not_mem]
  intro node member
  have dead := grown.wf.alive none node member
  rw [grown.alive node member] at dead
  cases dead

theorem Inserted.grown {allowed : HnswIndex → HnswIndex → NodeId → Prop}
    (inserted : Inserted ops params allowed index) : Grown params index := by
  induction inserted with
  | new => exact ⟨new_wf params, rfl, nofun⟩
  | insert vector _ room run _ ih => exact (ih.insert ops room run).1

/-- Insertions are calls like any other. -/
theorem Inserted.reachable {allowed : HnswIndex → HnswIndex → NodeId → Prop}
    (inserted : Inserted ops params allowed index) (small : index.nodes.length < nodeIdBound) :
    Reachable ops params index := by
  induction inserted with
  | new => exact Reachable.new
  | insert vector inserted room run _ ih =>
    have length := (inserted.grown.insert ops room run).2
    exact Reachable.insert vector (ih room) (by omega) run

theorem Inserted.connected (positive : 1 ≤ params.m) (inserted : Inserted ops params Roomy index) :
    index.Connected := by
  induction inserted with
  | new => exact fun _ _ small => absurd small (Nat.not_lt_zero _)
  | insert vector inserted room run roomy ih =>
    have grown := inserted.grown
    refine ih.insert ops grown.wf ?_ grown.empty room run roomy (grown.insert ops room run).2
    rw [grown.fixed]
    exact positive

/-- **Inserted nodes stay findable** while no list is trimmed: where every node that an insertion linked
the new one to had room for the link back, every node can be reached from the entry point at the bottom
layer, and a beam search from there that has room for all nodes returns it. -/
theorem inserted_findable (positive : 1 ≤ params.m) (inserted : Inserted ops params Roomy index)
    {entry : EntryPoint} (found : index.entry = some entry) (inside : id < index.nodes.length) :
    id ∈ index.reached 0 entry.node ∧ ∀ (query : List F32) (ef : Nat), index.nodes.length ≤ ef →
      ∃ results, index.searchLayer ops query entry.node 0 ef = some results ∧
        id ∈ results.map Candidate.id := by
  have navigable := inserted.grown.wf.navigable
  have bottom : index.HasLayer entry.node 0 := (navigable.entry entry found).mono (Nat.zero_le _)
  have member := inserted.connected ops positive entry.node id bottom.inside inside
  refine ⟨member, fun query ef wide => ?_⟩
  obtain ⟨results, run, _⟩ := searchLayer_some ops query (navigable.edged.closed 0) bottom ef
  have all := (searchLayer_exact ops query (navigable.edged.reached_finite bottom)
    ((navigable.edged.reached_ncard_le bottom).trans wide) run).2
  exact ⟨results, run, (all id).mpr member⟩

/-- Insertions one after another, as far as they succeed. -/
def insertAll (vectors : List (List F32)) (index : HnswIndex) : Option HnswIndex :=
  vectors.foldlM (fun index vector => (insert ops vector index).left) index

theorem Inserted.all : ∀ (vectors : List (List F32)) {index after : HnswIndex},
    Inserted ops params (fun _ _ _ => True) index → insertAll ops vectors index = some after →
    index.nodes.length + vectors.length ≤ nodeIdBound →
    Inserted ops params (fun _ _ _ => True) after := by
  intro vectors
  induction vectors with
  | nil =>
    intro index after inserted run _
    cases run
    exact inserted
  | cons first rest ih =>
    intro index after inserted run few
    rw [insertAll, List.foldlM_cons, Option.bind_eq_bind, Option.bind_eq_some_iff] at run
    obtain ⟨next, step, run⟩ := run
    obtain ⟨id, step⟩ := Outcome.left_eq_some.mp step
    rw [List.length_cons] at few
    have room : index.nodes.length < nodeIdBound := by omega
    have length := (inserted.grown.insert ops room step).2
    exact ih (inserted.insert first room step trivial) run (by omega)

end Insertions

/-- The second of two nodes is linked to the first one, which has room. -/
theorem inserted_findable_pair :
    ∃ index : HnswIndex, index.contents = [([F32.one], false), ([0], false)] ∧
      1 ∈ index.reached 0 0 := by
  let params : HnswParams := ⟨.euclideanSquared, 1, 2, 1, 1, 0, 0⟩
  have first : Inserted FloatOps.zeroOne params Roomy _ :=
    Inserted.insert [F32.one] Inserted.new (by decide) rfl (by
      intro neighbors other list own member
      cases own
      cases member)
  have second : Inserted FloatOps.zeroOne params Roomy _ :=
    Inserted.insert [0] first (by decide) rfl (by
      intro neighbors other list own member here
      cases own
      cases List.mem_singleton.mp member
      cases here
      decide)
  exact ⟨_, by decide, (inserted_findable FloatOps.zeroOne (le_refl 1) second rfl (by decide)).1⟩

/-- **Any insertion may lose a node.** Nodes at 9, 7, 35 and 17 are inserted, and the last three are linked
to the first one only. It has room for two links back and gives up the one to 35. -/
theorem inserted_lost : ¬ ∀ (params : HnswParams) (index : HnswIndex) (entry : EntryPoint) (id : NodeId),
    1 ≤ params.m → params.m ≤ params.mMax0 → 1 ≤ params.efConstruction →
    Inserted FloatOps.whole params (fun _ _ _ => True) index → index.entry = some entry →
    id < index.nodes.length → id ∈ index.reached 0 entry.node := by
  intro always
  obtain ⟨params, paramsDef⟩ : ∃ params : HnswParams, params = ⟨.euclideanSquared, 1, 2, 4, 4, 0, 0⟩ :=
    ⟨_, rfl⟩
  have ran : (insertAll FloatOps.whole [[F32.ofWhole false 9], [F32.ofWhole false 7],
      [F32.ofWhole false 35], [F32.ofWhole false 17]] (new params)).map
      (fun index => (index.nodes.map Node.neighbors, index.entry)) =
      some ([[[1, 3]], [[0]], [[0]], [[0]]], some ⟨0, 0⟩) := by
    rw [paramsDef]
    decide +kernel
  obtain ⟨index, run, same⟩ := Option.map_eq_some_iff.mp ran
  obtain ⟨lists, entry⟩ := Prod.mk.inj same
  have inserted := Inserted.all FloatOps.whole _ Inserted.new run
    (by rw [paramsDef]; decide)
  have length := congrArg List.length lists
  rw [List.length_map] at length
  have found : ∀ id, index.neighborsAt id 0 =
      ([[[1, 3]], [[0]], [[0]], [[0]]] : List (List (List NodeId)))[id]?.bind (·[0]?) := by
    intro id
    rw [← lists, neighborsAt_lists]
  have closed : index.Closed 0 fun id => id ∈ [0, 1, 3] := by
    intro id member
    simp only [List.mem_cons, List.not_mem_nil, or_false] at member
    rcases member with rfl | rfl | rfl
    · exact ⟨[1, 3], found 0, by decide⟩
    · exact ⟨[0], found 1, by decide⟩
    · exact ⟨[0], found 3, by decide⟩
  have reached := always params index ⟨0, 0⟩ 2 (by rw [paramsDef]) (by rw [paramsDef]; decide)
    (by rw [paramsDef]; decide) inserted entry (by rw [length]; decide)
  exact absurd (closed.reached (by decide) reached) (by decide)

theorem row_reachable {mMax0 : Nat}
    (run : insertAll FloatOps.whole [[0], [F32.ofWhole false 2], [F32.ofWhole false 3]]
      (new (row mMax0).params) = some (row mMax0)) :
    Reachable FloatOps.whole (row mMax0).params (row mMax0) :=
  (Inserted.all FloatOps.whole _ Inserted.new run (show 0 + 3 ≤ nodeIdBound by decide)).reachable
    FloatOps.whole (show 3 < nodeIdBound by decide)

end HnswIndex

end Sastran

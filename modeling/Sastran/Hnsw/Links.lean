/-
Rewiring: what insertion and deletion do to the edges.

`SameShape` says that a change of the graph left all but edges alone, and `Linked` that every edge
leads to another node of its layer and that no neighbor list is over its bound, except the `loose`
ones, which are just being rewired. Linking a new node (`linkLayers_some`) and giving the neighbors of
a deleted one new edges (`repairLayer_some`) never fail and keep both.
-/

import Sastran.Hnsw.Graph

namespace Sastran

open Partial

namespace HnswIndex

variable {index : HnswIndex} {id : NodeId} {layer : Nat}

/-! ### Rewiring -/

/-- What a node is besides its edges. -/
def nodeShape (node : Node) : List F32 × Nat × Bool :=
  (node.vector, node.neighbors.length, node.deleted)

/-- Only edges differ. -/
structure SameShape (before after : HnswIndex) : Prop where
  rest : after = { before with nodes := after.nodes }
  nodes : after.nodes.map nodeShape = before.nodes.map nodeShape

namespace SameShape

variable {first middle last : HnswIndex}

theorem refl (index : HnswIndex) : SameShape index index := ⟨rfl, rfl⟩

theorem trans (one : SameShape first middle) (two : SameShape middle last) : SameShape first last := by
  refine ⟨?_, two.nodes.trans one.nodes⟩
  rw [two.rest, one.rest]

theorem params (same : SameShape first last) : last.params = first.params := by rw [same.rest]

theorem metric (same : SameShape first last) : last.metric = first.metric := by rw [same.rest]

theorem dim (same : SameShape first last) : last.dim = first.dim := by rw [same.rest]

theorem entry (same : SameShape first last) : last.entry = first.entry := by rw [same.rest]

theorem length (same : SameShape first last) : last.nodes.length = first.nodes.length := by
  simpa using congrArg List.length same.nodes

theorem node (same : SameShape first last) {node : Node} (here : first.nodes[id]? = some node) :
    ∃ node', last.nodes[id]? = some node' ∧ nodeShape node' = nodeShape node := by
  have shapes := congrArg (·[id]?) same.nodes
  simp only [List.getElem?_map, here, Option.map_some, Option.map_eq_some_iff] at shapes
  exact shapes

theorem mem (same : SameShape first last) {node : Node} (member : node ∈ last.nodes) :
    ∃ node' ∈ first.nodes, nodeShape node' = nodeShape node := by
  have shape := List.mem_map_of_mem (f := nodeShape) member
  rw [same.nodes] at shape
  obtain ⟨node', member', same'⟩ := List.mem_map.mp shape
  exact ⟨node', member', same'⟩

theorem hasLayer (same : SameShape first last) (has : first.HasLayer id layer) :
    last.HasLayer id layer := by
  obtain ⟨node, here, inside⟩ := hasLayer_iff.mp has
  obtain ⟨node', here', shape⟩ := same.node here
  simp only [nodeShape, Prod.mk.injEq] at shape
  exact hasLayer_iff.mpr ⟨node', here', shape.2.1 ▸ inside⟩

end SameShape

/-- Only edges of one layer differ. -/
structure Rewired (layer : Nat) (before after : HnswIndex) : Prop where
  shape : SameShape before after
  others : ∀ id layer', layer' ≠ layer → after.neighborsAt id layer' = before.neighborsAt id layer'

theorem Rewired.refl (layer : Nat) (index : HnswIndex) : Rewired layer index index :=
  ⟨SameShape.refl index, fun _ _ _ => rfl⟩

theorem Rewired.trans {first middle last : HnswIndex} (one : Rewired layer first middle)
    (two : Rewired layer middle last) : Rewired layer first last :=
  ⟨one.shape.trans two.shape, fun id layer' away =>
    (two.others id layer' away).trans (one.others id layer' away)⟩

/-- The bound of a neighbor list: that of its layer, or that of a new node's lists. -/
def bound (index : HnswIndex) (layer : Nat) : Nat := max index.params.m (index.maxDegree layer)

theorem SameShape.bound {first last : HnswIndex} (same : SameShape first last) (layer : Nat) :
    last.bound layer = first.bound layer := by
  rw [HnswIndex.bound, HnswIndex.bound, maxDegree, maxDegree, same.params]

/-- Every edge leads to another node of its layer, and no list is over its bound unless it is one of
the `loose` ones. -/
structure Linked (index : HnswIndex) (loose : List (NodeId × Nat)) : Prop where
  edges : ∀ id layer list, index.neighborsAt id layer = some list →
    ∀ other ∈ list, other ≠ id ∧ index.HasLayer other layer
  degree : ∀ id layer list, index.neighborsAt id layer = some list → (id, layer) ∉ loose →
    list.length ≤ index.bound layer

variable {loose : List (NodeId × Nat)}

/-- The nodes of a layer are a closed set. -/
theorem Linked.closed (linked : index.Linked loose) (layer : Nat) :
    index.Closed layer fun id => index.HasLayer id layer := by
  rintro id ⟨list, found⟩
  exact ⟨list, found, fun other member => (linked.edges id layer list found other member).2⟩

/-- So are those of them no list of the layer mentions. -/
theorem Linked.closed_ne (linked : index.Linked loose) {new : NodeId}
    (unseen : ∀ id list, index.neighborsAt id layer = some list → new ∉ list) :
    index.Closed layer fun id => index.HasLayer id layer ∧ id ≠ new := by
  rintro id ⟨⟨list, found⟩, _⟩
  refine ⟨list, found, fun other member => ⟨(linked.edges id layer list found other member).2, ?_⟩⟩
  rintro rfl
  exact unseen id list found member

theorem modifyLayer_some {list : List NodeId} (here : index.neighborsAt id layer = some list)
    (change : List NodeId → List NodeId) :
    ∃ after, index.modifyLayer id layer change = some after ∧ SameShape index after ∧
      ∀ id' layer', after.neighborsAt id' layer' =
        if id = id' ∧ layer = layer' then some (change list) else index.neighborsAt id' layer' := by
  obtain ⟨node, found, atLayer⟩ := neighborsAt_eq_some.mp here
  obtain ⟨inside, holds⟩ := List.getElem?_eq_some_iff.mp found
  have insideLayer := (List.getElem?_eq_some_iff.mp atLayer).1
  refine ⟨{ index with
      nodes := index.nodes.set id { node with neighbors := node.neighbors.set layer (change list) } },
    by simp [modifyLayer, found, atLayer], ⟨rfl, ?_⟩, ?_⟩
  · rw [List.map_set]
    apply List.ext_getElem?
    intro other
    rw [List.getElem?_set]
    split
    · rename_i same
      subst same
      simp [inside, holds, nodeShape]
    · rfl
  · intro id' layer'
    by_cases sameId : id = id'
    · subst sameId
      by_cases sameLayer : layer = layer'
      · subst sameLayer
        simp [neighborsAt, inside, insideLayer]
      · simp [neighborsAt, inside, sameLayer, holds]
    · simp [neighborsAt, sameId]

/-- **A list is changed** to one that leads to other nodes of the layer. -/
theorem modifyLayer_linked {list : List NodeId} (here : index.neighborsAt id layer = some list)
    (linked : index.Linked loose) (change : List NodeId → List NodeId)
    (edges : ∀ other ∈ change list, other ≠ id ∧ index.HasLayer other layer)
    (loose' : List (NodeId × Nat))
    (degree : (id, layer) ∉ loose' → (change list).length ≤ index.bound layer)
    (kept : ∀ point ∈ loose, point ≠ (id, layer) → point ∈ loose') :
    ∃ after, index.modifyLayer id layer change = some after ∧ Rewired layer index after ∧
      after.Linked loose' := by
  obtain ⟨after, run, shape, lists⟩ := modifyLayer_some here change
  refine ⟨after, run, ⟨shape, fun id' layer' away => ?_⟩, ⟨?_, ?_⟩⟩
  · rw [lists, if_neg fun both => away both.2.symm]
  · intro id' layer' list' found other member
    rw [lists] at found
    split at found
    · rename_i same
      obtain ⟨rfl, rfl⟩ := same
      cases found
      exact ⟨(edges other member).1, shape.hasLayer (edges other member).2⟩
    · obtain ⟨different, has⟩ := linked.edges id' layer' list' found other member
      exact ⟨different, shape.hasLayer has⟩
  · intro id' layer' list' found tight
    rw [shape.bound]
    rw [lists] at found
    split at found
    · rename_i same
      obtain ⟨rfl, rfl⟩ := same
      cases found
      exact degree tight
    · rename_i different
      refine linked.degree id' layer' list' found fun member => tight (kept _ member ?_)
      rintro same
      cases same
      exact different ⟨rfl, rfl⟩

/-- An edge more leaves its list loose. -/
theorem push_some (linked : index.Linked loose) (has : index.HasLayer id layer) {other : NodeId}
    (target : index.HasLayer other layer) (different : other ≠ id) :
    ∃ after, index.modifyLayer id layer (· ++ [other]) = some after ∧ Rewired layer index after ∧
      after.Linked ((id, layer) :: loose) := by
  obtain ⟨list, here⟩ := has
  refine modifyLayer_linked here linked (· ++ [other]) ?_ _ ?_ ?_
  · intro target' member
    rcases List.mem_append.mp member with member | member
    · exact linked.edges id layer list here target' member
    · rw [List.mem_singleton.mp member]
      exact ⟨different, target⟩
  · exact fun tight => absurd (List.mem_cons_self ..) tight
  · exact fun point member _ => List.mem_cons_of_mem _ member

/-! ### Selection -/

section Surgery

variable {D : Type} [LinearOrder D] (ops : FloatOps D)

theorem admits_some {candidate : Candidate D} (inside : candidate.id < index.nodes.length) :
    ∀ chosen : List (Candidate D), (∀ other ∈ chosen, other.id < index.nodes.length) →
      ∃ admitted, index.admits ops candidate chosen = some admitted := by
  intro chosen
  induction chosen with
  | nil => exact fun _ => ⟨true, rfl⟩
  | cons first rest ih =>
    intro all
    obtain ⟨admitted, run⟩ := ih fun other member => all other (List.mem_cons_of_mem _ member)
    have first_inside := all first (List.mem_cons_self ..)
    simp only [admits, List.getElem?_eq_getElem inside, List.getElem?_eq_getElem first_inside,
      Option.bind_eq_bind, Option.bind_some]
    split
    · exact ⟨false, rfl⟩
    · exact ⟨admitted, run⟩

/-- The chosen candidates are those chosen before and some of the rest, in order. -/
theorem chooseFrom_some (m : Nat) : ∀ (candidates chosen : List (Candidate D)),
    (∀ candidate ∈ candidates, candidate.id < index.nodes.length) →
    (∀ candidate ∈ chosen, candidate.id < index.nodes.length) → chosen.length ≤ m →
    ∃ more, index.chooseFrom ops m chosen candidates = some (chosen ++ more) ∧
      more.Sublist candidates ∧ (chosen ++ more).length ≤ m := by
  intro candidates
  induction candidates with
  | nil => exact fun chosen _ _ few => ⟨[], by simp [chooseFrom], List.Sublist.refl _, by simpa using few⟩
  | cons first rest ih =>
    intro chosen inside inside' few
    have here := inside first (List.mem_cons_self ..)
    have there := fun candidate member => inside candidate (List.mem_cons_of_mem first member)
    unfold chooseFrom
    split
    · exact ⟨[], by simp, List.nil_sublist _, by simpa using few⟩
    · rename_i room
      obtain ⟨admitted, run⟩ := admits_some ops here chosen inside'
      rw [run]
      cases admitted with
      | true =>
        have inside'' : ∀ candidate ∈ chosen ++ [first], candidate.id < index.nodes.length := by
          intro candidate member
          rcases List.mem_append.mp member with member | member
          · exact inside' candidate member
          · rw [List.mem_singleton.mp member]
            exact here
        obtain ⟨more, run, sub, few'⟩ := ih (chosen ++ [first]) there inside''
          (by simp only [List.length_append, List.length_singleton]; omega)
        refine ⟨first :: more, ?_, sub.cons_cons first, ?_⟩
        · simpa using run
        · simpa [Nat.add_assoc, Nat.add_comm] using few'
      | false =>
        obtain ⟨more, run, sub, few'⟩ := ih chosen there inside' few
        exact ⟨more, by simpa using run, sub.cons first, few'⟩

/-- **Selection** keeps at most `m` of the candidates, in ascending order. -/
theorem chooseNeighbors_some (candidates : List (Candidate D)) (m : Nat)
    (inside : ∀ candidate ∈ candidates, candidate.id < index.nodes.length) :
    ∃ chosen, index.chooseNeighbors ops candidates m = some chosen ∧
      chosen.Sublist (sortByDist candidates) ∧ (∀ candidate ∈ chosen, candidate ∈ candidates) ∧
      chosen.length ≤ m := by
  have sorted : ∀ candidate ∈ sortByDist candidates, candidate ∈ candidates :=
    fun candidate member => (List.mem_insertionSort _).mp member
  obtain ⟨chosen, run, sub, few⟩ := chooseFrom_some ops m (sortByDist candidates) []
    (fun candidate member => inside candidate (sorted candidate member)) nofun (Nat.zero_le _)
  exact ⟨chosen, run, sub, fun candidate member => sorted candidate (sub.mem member), by simpa using few⟩

/-! ### Trimming -/

theorem maxDegree_le_bound (index : HnswIndex) (layer : Nat) :
    index.maxDegree layer ≤ index.bound layer := le_max_right _ _

/-- **A trimmed list** is within its bound. -/
theorem trimOver_some (linked : index.Linked ((id, layer) :: loose)) (has : index.HasLayer id layer)
    {max : Nat} (fits : max ≤ index.bound layer) :
    ∃ after, index.trimOver ops id layer max = some after ∧ Rewired layer index after ∧
      after.Linked loose := by
  obtain ⟨list, here⟩ := has
  simp only [trimOver, here, Option.bind_eq_bind, Option.bind_some]
  split
  · rename_i full
    obtain ⟨node, found, _⟩ := neighborsAt_eq_some.mp here
    have edges := linked.edges id layer list here
    have each : ∀ neighbor ∈ list, ∃ candidate, index.measure ops node neighbor = some candidate := by
      intro neighbor member
      obtain ⟨dist, measured⟩ := distance_some ops node.vector
        (edges neighbor member).2.inside
      exact ⟨⟨neighbor, dist⟩, by simp [measure, measured]⟩
    obtain ⟨candidates, measured, all⟩ := mapM_some each
    have listed : ∀ candidate ∈ candidates, candidate.id ∈ list := by
      intro candidate member
      obtain ⟨neighbor, member', found⟩ := mem_of_mapM_some all member
      simp only [measure, Option.map_eq_some_iff] at found
      obtain ⟨dist, _, rfl⟩ := found
      exact member'
    obtain ⟨chosen, run, _, among, few⟩ := chooseNeighbors_some ops candidates max
      fun candidate member => (edges _ (listed candidate member)).2.inside
    have edges' : ∀ other ∈ chosen.map Candidate.id, other ≠ id ∧ index.HasLayer other layer := by
      intro other member
      obtain ⟨candidate, member', rfl⟩ := List.mem_map.mp member
      exact edges _ (listed candidate (among candidate member'))
    have kept : ∀ point ∈ (id, layer) :: loose, point ≠ (id, layer) → point ∈ loose :=
      fun point member away => (List.mem_cons.mp member).resolve_left away
    obtain ⟨after, changed, rewired, linked'⟩ := modifyLayer_linked here linked
      (fun _ => chosen.map Candidate.id) edges' _ (fun _ => by simpa using few.trans fits) kept
    refine ⟨after, ?_, rewired, linked'⟩
    rw [trimNeighbors, here]
    simp only [Option.bind_eq_bind, Option.bind_some]
    rw [if_neg (by omega), found]
    simpa [measured, run] using changed
  · rename_i within
    refine ⟨index, rfl, Rewired.refl layer index, linked.edges, ?_⟩
    intro id' layer' list' found tight
    by_cases same : (id', layer') = (id, layer)
    · cases same
      rw [here] at found
      cases found
      exact (not_lt.mp within).trans fits
    · exact linked.degree id' layer' list' found fun member =>
        tight ((List.mem_cons.mp member).resolve_left same)

/-- **An edge to another node**, whose list is trimmed where it is over its bound. -/
theorem wire_some (linked : index.Linked loose) (has : index.HasLayer id layer) {other : NodeId}
    (target : index.HasLayer other layer) (different : other ≠ id) {max : Nat}
    (fits : max ≤ index.bound layer) :
    ∃ after, index.wire ops id layer max other = some after ∧ Rewired layer index after ∧
      after.Linked loose := by
  obtain ⟨pushed, run, rewired, linked'⟩ := push_some linked has target different
  obtain ⟨after, run', rewired', linked''⟩ := trimOver_some ops linked'
    (rewired.shape.hasLayer has) (fits.trans_eq (rewired.shape.bound layer).symm)
  exact ⟨after, by simp [wire, run, run'], rewired.trans rewired', linked''⟩

/-! ### Linking a new node -/

/-- The closest candidate is one of them. -/
theorem closest_mem {candidates : List (Candidate D)} {candidate : Candidate D}
    (found : closest candidates = some candidate) : candidate ∈ candidates := by
  cases candidates with
  | nil => cases found
  | cons first rest =>
    simp only [closest, Option.some.injEq] at found
    subst found
    have among : ∀ (rest : List (Candidate D)) (best : Candidate D),
        rest.foldl (fun best candidate => if candidate.dist < best.dist then candidate else best) best
          ∈ best :: rest := by
      intro rest
      induction rest with
      | nil => exact fun best => List.mem_singleton.mpr rfl
      | cons next rest ih =>
        intro best
        rw [List.foldl_cons]
        rcases List.mem_cons.mp (ih (if next.dist < best.dist then next else best)) with same | member
        · rw [same]
          split
          · exact List.mem_cons_of_mem _ (List.mem_cons_self ..)
          · exact List.mem_cons_self ..
        · exact List.mem_cons_of_mem _ (List.mem_cons_of_mem _ member)
    exact among rest first

/-- No list of the layer mentions the node. -/
def Unseen (index : HnswIndex) (id : NodeId) (layer : Nat) : Prop :=
  ∀ other list, index.neighborsAt other layer = some list → id ∉ list

theorem linkLayer_some (query : List F32) {start : NodeId} (linked : index.Linked [])
    (has : index.HasLayer id layer) (from_start : index.HasLayer start layer) (different : start ≠ id)
    (unseen : index.Unseen id layer) :
    ∃ result, linkLayer ops query id (index, start) layer = some result ∧
      Rewired layer index result.1 ∧ result.1.Linked [] ∧ result.1.HasLayer result.2 layer ∧
      result.2 ≠ id := by
  obtain ⟨candidates, searched, found⟩ := searchLayer_some ops query
    (linked.closed_ne unseen) ⟨from_start, different⟩ index.params.efConstruction
  obtain ⟨neighbors, selected, _, among, few⟩ := chooseNeighbors_some ops candidates
    index.params.m fun candidate member => (found candidate member).1.inside
  have edges : ∀ other ∈ neighbors.map Candidate.id, other ≠ id ∧ index.HasLayer other layer := by
    intro other member
    obtain ⟨candidate, member', rfl⟩ := List.mem_map.mp member
    exact (found candidate (among candidate member')).symm
  obtain ⟨list, here⟩ := has
  obtain ⟨grown, changed, rewired, linked'⟩ := modifyLayer_linked here linked
    (fun _ => neighbors.map Candidate.id) edges []
    (fun _ => by rw [List.length_map]; exact few.trans (le_max_left _ _)) nofun
  have round : ∀ (candidate : Candidate D) (rest : List (Candidate D)) (wired : HnswIndex),
      ((∀ other ∈ candidate :: rest, other.id ≠ id ∧ index.HasLayer other.id layer) ∧
        Rewired layer index wired ∧ wired.Linked []) →
      ∃ next, wired.wire ops candidate.id layer (index.maxDegree layer) id = some next ∧
        (∀ other ∈ rest, other.id ≠ id ∧ index.HasLayer other.id layer) ∧
        Rewired layer index next ∧ next.Linked [] := by
    rintro candidate rest wired ⟨all, rewired, linked⟩
    obtain ⟨away, has⟩ := all candidate (List.mem_cons_self ..)
    obtain ⟨next, run, rewired', linked'⟩ := wire_some ops linked
      (rewired.shape.hasLayer has) (rewired.shape.hasLayer ⟨list, here⟩) away.symm
      ((maxDegree_le_bound index layer).trans_eq (rewired.shape.bound layer).symm)
    exact ⟨next, run, fun other member => all other (List.mem_cons_of_mem _ member),
      rewired.trans rewired', linked'⟩
  obtain ⟨wired, run, _, rewired', linked''⟩ := foldlM_some
    (fun rest wired => (∀ other ∈ rest, other.id ≠ id ∧ index.HasLayer other.id layer) ∧
      Rewired layer index wired ∧ wired.Linked [])
    round neighbors grown
    ⟨fun other member => (found other (among other member)).symm, rewired, linked'⟩
  refine ⟨_, by simp only [linkLayer, searched, selected, changed, run, Option.bind_eq_bind,
    Option.bind_some]; rfl, rewired', linked'', ?_⟩
  simp only
  split
  · rename_i candidate nearest
    obtain ⟨has, away⟩ := found candidate (closest_mem nearest)
    exact ⟨rewired'.shape.hasLayer has, away⟩
  · exact ⟨rewired'.shape.hasLayer from_start, different⟩

/-- A node is linked at layers from the top down; the lists of the layers below stay. -/
theorem linkDown_some (query : List F32) : ∀ (layers : List Nat) {index : HnswIndex} {start : NodeId}
    {top : Nat}, index.Linked [] → index.HasLayer id top → index.HasLayer start top → start ≠ id →
    layers.Pairwise (· > ·) → (∀ layer ∈ layers, layer ≤ top ∧ index.Unseen id layer) →
    ∃ state, layers.foldlM (linkLayer ops query id) (index, start) = some state ∧
      SameShape index state.1 ∧ state.1.Linked [] ∧ state.2 ≠ id ∧
      ∀ lower ≤ top, (∀ layer ∈ layers, lower < layer) → state.1.HasLayer state.2 lower ∧
        ∀ other, state.1.neighborsAt other lower = index.neighborsAt other lower := by
  intro layers
  induction layers with
  | nil =>
    intro index start top linked _ from_start different _ _
    exact ⟨(index, start), rfl, SameShape.refl index, linked, different,
      fun lower low _ => ⟨from_start.mono low, fun _ => rfl⟩⟩
  | cons first rest ih =>
    intro index start top linked has from_start different descending all
    obtain ⟨low, unseen⟩ := all first (List.mem_cons_self ..)
    obtain ⟨above, descending⟩ := List.pairwise_cons.mp descending
    obtain ⟨next, run, rewired, linked', reached, away⟩ := linkLayer_some ops query linked
      (has.mono low) (from_start.mono low) different unseen
    have all' : ∀ layer ∈ rest, layer ≤ first ∧ next.1.Unseen id layer := by
      intro layer member
      refine ⟨(above layer member).le, fun other list found => ?_⟩
      rw [rewired.others other layer (above layer member).ne] at found
      exact (all layer (List.mem_cons_of_mem _ member)).2 other list found
    obtain ⟨state, run', shape, linked'', away', below⟩ := ih linked'
      (rewired.shape.hasLayer (has.mono low)) reached away descending all'
    refine ⟨state, ?_, rewired.shape.trans shape, linked'', away', fun lower _ under => ?_⟩
    · rw [List.foldlM_cons, run]
      exact run'
    · have strict := under first (List.mem_cons_self ..)
      obtain ⟨has', same⟩ := below lower strict.le fun layer member =>
        under layer (List.mem_cons_of_mem _ member)
      exact ⟨has', fun other => (same other).trans (rewired.others other lower strict.ne)⟩

/-- **A node is linked** at layers from the top down. -/
theorem linkLayers_some (query : List F32) {start : NodeId} {top : Nat} (linked : index.Linked [])
    (has : index.HasLayer id top) (from_start : index.HasLayer start top) (different : start ≠ id)
    (unseen : ∀ layer ≤ top, index.Unseen id layer) :
    ∃ after, index.linkLayers ops query id start top = some after ∧ SameShape index after ∧
      after.Linked [] := by
  have descending : (List.range (top + 1)).reverse.Pairwise (· > ·) := by
    rw [List.pairwise_reverse]
    exact List.pairwise_lt_range
  obtain ⟨⟨wired, current⟩, run, shape, linked', _⟩ := linkDown_some ops query
    (List.range (top + 1)).reverse linked has from_start different descending fun lower member => by
      have low : lower ≤ top := Nat.le_of_lt_succ (List.mem_range.mp (List.mem_reverse.mp member))
      exact ⟨low, unseen lower low⟩
  exact ⟨wired, by simp [linkLayers, run], shape, linked'⟩

/-- **The descent** ends at a node of the layer it descends to. -/
theorem descend_some (query : List F32) {within : Nat → NodeId → Prop}
    (closed : ∀ layer, index.Closed layer (within layer))
    (lower : ∀ low high id, low ≤ high → within high id → within low id) {start : NodeId} (low : Nat)
    {top : Nat} (member : within top start) :
    ∃ found, index.descend ops query low top start = some found ∧ within (min low top) found := by
  have round : ∀ (layer : Nat) (rest : List Nat) (current : NodeId),
      (∃ count, (layer :: rest) = (List.range' (low + 1) count).reverse ∧ within (low + count) current) →
      ∃ next, index.greedySearchLayer ops query current layer = some next ∧
        ∃ count, rest = (List.range' (low + 1) count).reverse ∧ within (low + count) next := by
    rintro layer rest current ⟨count, layers, here⟩
    cases count with
    | zero => simp at layers
    | succ count =>
      rw [List.range'_concat, List.reverse_append] at layers
      simp only [List.reverse_singleton, List.singleton_append, List.cons.injEq] at layers
      obtain ⟨rfl, rfl⟩ := layers
      have here' : within (low + 1 + 1 * count) current := by
        have same : low + (count + 1) = low + 1 + 1 * count := by omega
        rwa [same] at here
      obtain ⟨next, run, reached⟩ := greedySearchLayer_some ops query (closed _) here'
      exact ⟨next, run, count, rfl, lower _ _ _ (by omega) reached⟩
  by_cases high : low ≤ top
  · have count : low + (top - low) = top := Nat.add_sub_cancel' high
    obtain ⟨found, run, count', layers, here⟩ := foldlM_some
      (fun (rest : List Nat) (current : NodeId) =>
        ∃ count, rest = (List.range' (low + 1) count).reverse ∧ within (low + count) current)
      round (List.range' (low + 1) (top - low)).reverse start ⟨top - low, rfl, count.symm ▸ member⟩
    have none : 0 = count' := by simpa using congrArg List.length layers
    rw [min_eq_left high]
    exact ⟨found, run, by simpa [← none] using here⟩
  · have none : top - low = 0 := by omega
    rw [min_eq_right (by omega)]
    exact ⟨start, by simp [descend, none], member⟩

/-! ### Repairing the edges of a deleted node -/

theorem searchLayerSkippingDeleted_some (query : List F32) {within : NodeId → Prop}
    (closed : index.Closed layer within) {start : NodeId} (member : within start) (ef : Nat) :
    ∃ results, index.searchLayerSkippingDeleted ops query start layer ef = some results ∧
      ∀ result ∈ results, within result.id ∧
        ∃ node, index.nodes[result.id]? = some node ∧ node.deleted = false := by
  obtain ⟨raw, searched, found⟩ := searchLayer_some ops query closed member ef
  have each : ∀ candidate ∈ raw, ∃ live, (do
      let node ← index.nodes[candidate.id]?
      some (!node.deleted)) = some live := by
    intro candidate member
    have inside := (closed.hasLayer (found candidate member)).inside
    exact ⟨_, by rw [List.getElem?_eq_getElem inside]; rfl⟩
  refine ⟨_, by
    simp only [searchLayerSkippingDeleted, searched, Option.bind_eq_bind, Option.bind_some]
    exact filterM_some each, ?_⟩
  intro result member
  obtain ⟨member, live⟩ := List.mem_filter.mp member
  refine ⟨found result member, ?_⟩
  simp only [beq_iff_eq, Option.bind_eq_some_iff, Option.some.injEq, Bool.not_eq_eq_eq_not,
    Bool.not_true] at live
  exact live

/-- **A neighbor of a deleted node** gets new edges. -/
theorem repairNeighbor_some (deletedId : NodeId) (linked : index.Linked [])
    (has : index.HasLayer id layer) :
    ∃ after, repairNeighbor ops deletedId layer index id = some after ∧ Rewired layer index after ∧
      after.Linked [] := by
  obtain ⟨list, here⟩ := has
  have edges := linked.edges id layer list here
  have shorter : (list.filter (· ≠ deletedId)).length ≤ index.bound layer :=
    (List.length_filter_le _ _).trans (linked.degree id layer list here nofun)
  obtain ⟨cut, changed, rewired, linked'⟩ := modifyLayer_linked here linked
    (List.filter (· ≠ deletedId)) (fun other member => edges other (List.mem_filter.mp member).1) []
    (fun _ => shorter) nofun
  have has := rewired.shape.hasLayer ⟨list, here⟩
  obtain ⟨node, found, _⟩ := hasLayer_iff.mp has
  obtain ⟨raw, searched, reached⟩ := searchLayerSkippingDeleted_some ops node.vector
    (linked'.closed layer) has cut.params.efConstruction
  obtain ⟨kept, linkedList⟩ := has
  obtain ⟨chosen, selected, _, among, _⟩ := chooseNeighbors_some ops
    (raw.filter fun candidate => candidate.id ≠ id ∧ candidate.id ∉ kept) cut.params.m
    fun candidate member => (reached candidate (List.mem_filter.mp member).1).1.inside
  have novel : ∀ candidate ∈ chosen, candidate.id ≠ id ∧ cut.HasLayer candidate.id layer := by
    intro candidate member
    obtain ⟨member', new⟩ := List.mem_filter.mp (among candidate member)
    simp only [decide_eq_true_eq] at new
    exact ⟨new.1, (reached candidate member').1⟩
  have fits : index.maxDegree layer ≤ cut.bound layer :=
    (maxDegree_le_bound index layer).trans_eq (rewired.shape.bound layer).symm
  have round : ∀ (candidate : Candidate D) (rest : List (Candidate D)) (wired : HnswIndex),
      ((∀ other ∈ candidate :: rest, other.id ≠ id ∧ cut.HasLayer other.id layer) ∧
        Rewired layer cut wired ∧ wired.Linked [(id, layer)]) →
      ∃ next, (do
          let pushed ← wired.modifyLayer id layer (· ++ [candidate.id])
          pushed.wire ops candidate.id layer (index.maxDegree layer) id) = some next ∧
        (∀ other ∈ rest, other.id ≠ id ∧ cut.HasLayer other.id layer) ∧
        Rewired layer cut next ∧ next.Linked [(id, layer)] := by
    rintro candidate rest wired ⟨all, rewired, linked⟩
    obtain ⟨away, target⟩ := all candidate (List.mem_cons_self ..)
    have here := rewired.shape.hasLayer ⟨kept, linkedList⟩
    obtain ⟨pushed, run, rewired', linked'⟩ := push_some linked here (rewired.shape.hasLayer target) away
    have both := rewired.trans rewired'
    have tight : pushed.Linked [(id, layer)] :=
      ⟨linked'.edges, fun id' layer' list found outside => linked'.degree id' layer' list found
        (by simpa using outside)⟩
    obtain ⟨next, run', rewired'', linked''⟩ := wire_some ops tight
      (both.shape.hasLayer target) (both.shape.hasLayer ⟨kept, linkedList⟩) away.symm
      (fits.trans_eq (both.shape.bound layer).symm)
    exact ⟨next, by simp [run, run'], fun other member => all other (List.mem_cons_of_mem _ member),
      both.trans rewired'', linked''⟩
  have loose : cut.Linked [(id, layer)] :=
    ⟨linked'.edges, fun id' layer' list found _ => linked'.degree id' layer' list found nofun⟩
  obtain ⟨wired, run, _, rewired', linked''⟩ := foldlM_some
    (fun rest wired => (∀ other ∈ rest, other.id ≠ id ∧ cut.HasLayer other.id layer) ∧
      Rewired layer cut wired ∧ wired.Linked [(id, layer)])
    round chosen cut ⟨novel, Rewired.refl layer cut, loose⟩
  obtain ⟨after, trimmed, rewired'', linked'''⟩ := trimOver_some ops linked''
    (rewired'.shape.hasLayer ⟨kept, linkedList⟩) (fits.trans_eq (rewired'.shape.bound layer).symm)
  refine ⟨after, ?_, (rewired.trans rewired').trans rewired'', linked'''⟩
  simp only [repairNeighbor, changed, found, searched, linkedList, selected, Option.bind_eq_bind,
    Option.bind_some]
  simp only [Option.bind_eq_bind] at run
  rw [run]
  exact trimmed

theorem repairLayer_some (deletedId : NodeId) (linked : index.Linked [])
    (has : index.HasLayer deletedId layer) :
    ∃ after, repairLayerAfterDelete ops deletedId index layer = some after ∧ Rewired layer index after ∧
      after.Linked [] := by
  obtain ⟨neighbors, here⟩ := has
  have edges := linked.edges deletedId layer neighbors here
  have each : ∀ neighbor ∈ neighbors, ∃ live, (do
      let node ← index.nodes[neighbor]?
      some (!node.deleted)) = some live := by
    intro neighbor member
    exact ⟨_, by rw [List.getElem?_eq_getElem (edges neighbor member).2.inside]; rfl⟩
  have round : ∀ (neighbor : NodeId) (rest : List NodeId) (repaired : HnswIndex),
      ((∀ other ∈ neighbor :: rest, index.HasLayer other layer) ∧ Rewired layer index repaired ∧
        repaired.Linked []) →
      ∃ next, repairNeighbor ops deletedId layer repaired neighbor = some next ∧
        (∀ other ∈ rest, index.HasLayer other layer) ∧ Rewired layer index next ∧ next.Linked [] := by
    rintro neighbor rest repaired ⟨all, rewired, linked⟩
    obtain ⟨next, run, rewired', linked'⟩ := repairNeighbor_some ops deletedId
      linked (rewired.shape.hasLayer (all neighbor (List.mem_cons_self ..)))
    exact ⟨next, run, fun other member => all other (List.mem_cons_of_mem _ member),
      rewired.trans rewired', linked'⟩
  have affected : ∀ neighbor ∈ neighbors.filter fun neighbor => (do
      let node ← index.nodes[neighbor]?
      some (!node.deleted)) == some true, index.HasLayer neighbor layer :=
    fun neighbor member => (edges neighbor (List.mem_filter.mp member).1).2
  obtain ⟨after, run, _, rewired, linked'⟩ := foldlM_some
    (fun rest repaired => (∀ other ∈ rest, index.HasLayer other layer) ∧ Rewired layer index repaired ∧
      repaired.Linked [])
    round _ index ⟨affected, Rewired.refl layer index, linked⟩
  refine ⟨after, ?_, rewired, linked'⟩
  simp only [repairLayerAfterDelete, here, Option.bind_eq_bind, Option.bind_some]
  have filtered := filterM_some each
  simp only [Option.bind_eq_bind] at filtered run
  rw [filtered]
  exact run

/-- **Repair of several layers**; the lists of the others stay. -/
theorem repairLayers_some (deletedId : NodeId) : ∀ (layers : List Nat) {index : HnswIndex},
    index.Linked [] → (∀ layer ∈ layers, index.HasLayer deletedId layer) →
    ∃ after, layers.foldlM (repairLayerAfterDelete ops deletedId) index = some after ∧
      SameShape index after ∧ after.Linked [] ∧ ∀ layer ∉ layers, ∀ other,
        after.neighborsAt other layer = index.neighborsAt other layer := by
  intro layers
  induction layers with
  | nil => exact fun {index} linked _ => ⟨index, rfl, SameShape.refl index, linked, fun _ _ _ => rfl⟩
  | cons first rest ih =>
    intro index linked has
    obtain ⟨next, run, rewired, linked'⟩ := repairLayer_some ops deletedId linked
      (has first (List.mem_cons_self ..))
    obtain ⟨after, run', shape, linked'', others⟩ := ih linked' fun layer member =>
      rewired.shape.hasLayer (has layer (List.mem_cons_of_mem _ member))
    refine ⟨after, ?_, rewired.shape.trans shape, linked'', fun layer missing other => ?_⟩
    · rw [List.foldlM_cons, run]
      exact run'
    · obtain ⟨different, missing⟩ := not_or.mp fun member => missing (List.mem_cons.mpr member)
      exact (others layer missing other).trans (rewired.others other layer different)

end Surgery

end HnswIndex

end Sastran

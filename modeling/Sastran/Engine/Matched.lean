/-
The maps of the vector index over calls and recoveries.

* `Upkept.recover` - what a recovery does to the index it is building, whichever calls on the file system
  fail on the way.
* `recoverVectorIndex_matched` - an index that was recovered has matching maps.
* `maps_matched` - and so it does after any calls.
-/

import Sastran.Engine.Maps

namespace Sastran

open Device VectorIndex

variable {D : Type} {env : Env D} {world : World Fs}

/-! ### Recoveries -/

theorem SsTableIterator.Yields.valid {hashes : Hashes} {iterator : SsTableIterator}
    {rest : List (Key × Entry)} (yields : iterator.Yields hashes rest) :
    ∀ entry ∈ rest, ValidEntry entry.1 entry.2 := by
  cases yields with
  | between _ _ _ _ _ _ _ valid _ => exact valid
  | inside _ _ _ _ _ _ _ _ _ _ valid _ => exact valid

section Ingesting

variable {step : Building → Key → Entry → IoM Building} {inv : Building → Prop}
  (each : ∀ built key entry (world : World Fs), ValidEntry key entry → inv built →
    Ensures (step built key entry) world fun after _ => inv after)

include each

theorem ingestSstable_ensures {built : Building} (start : inv built) {entry : SsTableEntry}
    {map : SortedMap Key Entry} (reads : entry.reader.Reads env.hashes map) :
    Ensures (ingestSstable env step built entry) world fun after _ => inv after := by
  refine Ensures.loop (fun state _ => (∃ rest, state.1.Yields env.hashes rest) ∧ inv state.2) ?_ _ _ _
    ⟨⟨_, SsTableReader.iter_yields reads⟩, start⟩
  rintro ⟨iterator, built⟩ world ⟨⟨rest, yields⟩, holds⟩
  refine Ensures.bind ((SsTableIterator.next_ensures yields).mono fun item middle got => ?_)
  obtain ⟨item, following⟩ := item
  match item with
  | none => exact Ensures.pure holds
  | some (.error error) => exact Ensures.throw
  | some (.ok (key, entry)) =>
    obtain ⟨rest', rfl, yields'⟩ := got.resolve_right id
    have valid := yields.valid _ (List.mem_cons_self ..)
    refine Ensures.bind ((each built key entry middle valid holds).mono
      fun built' after holds' => ?_)
    exact Ensures.pure ⟨⟨rest', yields'⟩, holds'⟩

/-- **What a recovery keeps.** -/
theorem ingestAll_ensures {index : VectorIndex} (start : inv ⟨index, []⟩) {memtable : Memtable}
    (valid : ValidMap memtable.map) {tables : List SsTableEntry}
    (whole : ∀ entry ∈ tables, ∃ map, entry.reader.Reads env.hashes map) :
    Ensures (ingestAll env step index memtable tables) world fun after _ =>
      ∃ seen, inv ⟨after, seen⟩ := by
  have held : Ensures (Prog.foldM (fun state entry => step state entry.1 entry.2) ⟨index, []⟩
      memtable.iter) world fun built _ => inv built := by
    refine (Ensures.foldM (fun rest built _ => inv built ∧ ∀ entry ∈ rest, ValidEntry entry.1 entry.2)
      ?_ _ _ _ ⟨start, fun entry member => ?_⟩).mono fun built after holds => holds.1
    · rintro built first rest world ⟨holds, named⟩
      refine (each built first.1 first.2 world (named first (List.mem_cons_self ..)) holds).mono
        fun built' after holds' => ?_
      exact ⟨holds', fun entry member => named entry (List.mem_cons_of_mem _ member)⟩
    · exact valid entry.1 entry.2 ((memtable.map.mem_entries_iff entry.1 entry.2).mp member)
  refine Ensures.bind (held.mono fun built middle holds => ?_)
  refine Ensures.bind ((Ensures.foldM (fun rest built _ => inv built ∧
    ∀ entry ∈ rest, ∃ map, entry.reader.Reads env.hashes map) ?_ _ _ _ ⟨holds, whole⟩).mono
      fun built' after holds' => ?_)
  · rintro built first rest world ⟨holds, readable⟩
    obtain ⟨map, reads⟩ := readable first (List.mem_cons_self ..)
    refine (ingestSstable_ensures each holds reads).mono fun built' after holds' => ?_
    exact ⟨holds', fun entry member => readable entry (List.mem_cons_of_mem _ member)⟩
  · exact Ensures.pure ⟨built'.seen, holds'.1⟩

end Ingesting

theorem building_ensures {α : Type} {program : IndexM α} {index : VectorIndex}
    {post : VectorIndex → Prop} (holds : Ensures program index fun _ after => post after) :
    Ensures (building program index) world fun after _ => post after := by
  intro after world' ended
  unfold building at ended
  cases ran : program index with
  | ok value index' =>
    rw [ran] at ended
    cases ended
    exact holds value after ran
  | err error index' =>
    rw [ran] at ended
    cases ended
  | stuck =>
    rw [ran] at ended
    cases ended

variable [LinearOrder D]

/-- A relation between indexes that dropping a key and replacing its vector respect. -/
structure Upkept (env : Env D) (rel : VectorIndex → VectorIndex → Prop) : Prop where
  composes : Composes rel
  drop : ∀ key, Respects rel (IndexM.dropKey env.ops key)
  replace : ∀ {key : Key} {bytes : Bytes} {embedding : List F32}, ValidEntry key (.vector bytes) →
    decodeVector bytes = .ok embedding → ∀ mismatch, Respects rel (do
      IndexM.establish embedding.length mismatch
      IndexM.dropKey env.ops key
      IndexM.addKey env.ops key embedding)

namespace Upkept

variable {rel : VectorIndex → VectorIndex → Prop} {inner : EngineInner} (upkept : Upkept env rel)

include upkept

/-- Applying a newer entry to an index. -/
theorem delta {key : Key} {entry : Entry} (valid : ValidEntry key entry) :
    Respects rel (deltaProgram env key entry) := by
  cases entry with
  | tombstone => exact upkept.drop key
  | put value => exact upkept.drop key
  | vector bytes =>
    refine fun index => Leads.bind upkept.composes (Respects.ofExcept upkept.composes _ index)
      fun embedding middle run => ?_
    exact upkept.replace valid (ofExcept_eq_ok.mp run).1 _ middle

variable (valid : ValidMap inner.memtable.map)
  (whole : ∀ entry ∈ inner.levels.l0 ++ inner.levels.l1, ∃ map, entry.reader.Reads env.hashes map)

include valid whole

/-- Loading a snapshot and applying what is newer. -/
theorem load (path : FileName) : Ensures (loadSnapshotAndApplyDelta env inner path) world fun index _ =>
    ∃ bytes read hnsw keys marker, readFileFully path world = .ok bytes read ∧
      HnswIndex.decodeSnapshot env.hashes bytes = .ok (hnsw, keys, marker) ∧
      rel (loadedIndex hnsw keys) index := by
  refine Ensures.bind ((Ensures.itself (readFileFully path) world).mono fun bytes read run => ?_)
  cases decoded : HnswIndex.decodeSnapshot env.hashes bytes with
  | error error => exact Ensures.bind Ensures.throw
  | ok parts =>
    obtain ⟨hnsw, keys, marker⟩ := parts
    have delta : ∀ built key entry (world : World Fs), ValidEntry key entry →
        rel (loadedIndex hnsw keys) built.index →
        Ensures (applyDeltaEntry env built key entry) world fun after _ =>
          rel (loadedIndex hnsw keys) after.index := by
      intro built key entry world valid holds
      unfold applyDeltaEntry Building.once
      split
      · exact Ensures.pure holds
      refine Ensures.bind ((building_ensures ((upkept.delta valid).ensures
        built.index)).mono fun index after advances => ?_)
      exact Ensures.pure (upkept.composes.trans _ _ _ holds advances)
    have tables : ∀ entry ∈ deltaTables inner.levels marker, ∃ map,
        entry.reader.Reads env.hashes map := by
      intro entry member
      exact whole entry (List.mem_filter.mp ((List.mem_insertionSort _).mp member)).1
    have loaded : (Prog.ofExcept (.ok (hnsw, keys, marker)) : IoM _) read =
        .ok (hnsw, keys, marker) read := rfl
    refine Ensures.bind_ok loaded ?_
    refine (ingestAll_ensures delta (upkept.composes.refl _) valid tables).mono fun index after holds => ?_
    exact ⟨bytes, read, hnsw, keys, marker, run, decoded, holds.choose_spec⟩

/-- Building an index from nothing: only keys that were seen are registered. -/
theorem rebuild : Ensures (fullRebuildIndexFromLsm env inner) world fun index _ =>
    rel (VectorIndex.new env.options.hnswParams) index := by
  let start := VectorIndex.new env.options.hnswParams
  let inv : Building → Prop := fun built => rel start built.index ∧
    ∀ key, built.index.keyToNode.find? key ≠ none → key ∈ built.seen
  have rebuild : ∀ built key entry (world : World Fs), ValidEntry key entry → inv built →
      Ensures (ingestEntry env built key entry) world fun after _ => inv after := by
    intro built key entry world valid holds
    unfold ingestEntry Building.once
    split <;> rename_i unseen
    · exact Ensures.pure holds
    have fresh : built.index.keyToNode.find? key = none := by
      by_contra registered
      exact unseen (holds.2 key registered)
    have step : Ensures (rebuildProgram env key entry) built.index fun _ after =>
        inv ⟨after, key :: built.seen⟩ := by
      have skipped : inv ⟨built.index, key :: built.seen⟩ :=
        ⟨holds.1, fun other registered => List.mem_cons_of_mem _ (holds.2 other registered)⟩
      cases entry with
      | tombstone => exact Ensures.pure skipped
      | put value => exact Ensures.pure skipped
      | vector bytes =>
        refine Ensures.bind (Ensures.ofExcept fun embedding decoded => ?_)
        have kept := fun mismatch => (upkept.replace valid decoded mismatch).ensures built.index
        simp only [Ensures, ← IndexM.replaceKey_unregistered env.ops fresh] at kept
        refine (Ensures.and (kept _) (Ensures.bind ((IndexM.establish_ensures _ _ _).mono
          fun _ middle same => IndexM.addKey_ensures env.ops key embedding middle |>.mono
            fun _ after added => (⟨middle, same, added⟩ : ∃ middle : VectorIndex,
              middle = { built.index with expectedDim := some embedding.length } ∧
              ∃ id, after.keyToNode = middle.keyToNode.insert key id)))).mono fun _ after both => ?_
        obtain ⟨advances, middle, rfl, id, inserted⟩ := both
        refine ⟨upkept.composes.trans _ _ _ holds.1 advances, fun other registered => ?_⟩
        rw [inserted, SortedMap.find?_insert] at registered
        split at registered <;> rename_i isKey
        · exact isKey ▸ List.mem_cons_self ..
        · exact List.mem_cons_of_mem _ (holds.2 other registered)
    refine Ensures.bind ((building_ensures step).mono fun index after holds' => ?_)
    exact Ensures.pure holds'
  refine (ingestAll_ensures rebuild ⟨upkept.composes.refl _, fun _ registered => absurd rfl registered⟩ valid
    whole).mono fun index after holds => ?_
  obtain ⟨_, advances, _⟩ := holds
  exact advances

/-- **A recovered index** comes from the newest snapshot, or from nothing. -/
theorem recover : Ensures (recoverVectorIndex env inner) world fun index _ =>
    rel (VectorIndex.new env.options.hnswParams) index ∨
    ∃ path found bytes read hnsw keys marker, discoverLatestSnapshot world = .ok (some path) found ∧
      readFileFully path found = .ok bytes read ∧
      HnswIndex.decodeSnapshot env.hashes bytes = .ok (hnsw, keys, marker) ∧
      rel (loadedIndex hnsw keys) index := by
  refine Ensures.bind ((Ensures.itself discoverLatestSnapshot world).mono fun snapshotPath found run => ?_)
  cases snapshotPath with
  | none => exact (upkept.rebuild valid whole).mono fun index _ rebuilt => Or.inl rebuilt
  | some path =>
    refine Ensures.bind (Ensures.attempt ((upkept.load valid whole path).mono
      fun index after loaded => ?_) fun error after _ => ?_)
    · obtain ⟨bytes, read, hnsw, keys, marker, facts⟩ := loaded
      exact Ensures.pure (Or.inr ⟨path, found, bytes, read, hnsw, keys, marker, run, facts⟩)
    · exact (upkept.rebuild valid whole).mono fun index _ rebuilt => Or.inl rebuilt

end Upkept

theorem VectorIndex.Advances.upkept : Upkept env Advances where
  composes := Advances.composes
  drop := IndexM.dropKey_respects env.ops
  replace := fun valid _ mismatch =>
    IndexM.establish_replace_respects env.ops valid.key_ne_nil _ mismatch

/-- **A recovered index** has matching maps, be it loaded from a snapshot or built from nothing. -/
theorem recoverVectorIndex_matched {inner : EngineInner} (valid : ValidMap inner.memtable.map)
    (whole : ∀ entry ∈ inner.levels.l0 ++ inner.levels.l1,
      ∃ map, entry.reader.Reads env.hashes map) :
    Ensures (recoverVectorIndex env inner) world fun index _ =>
      index.hnsw.nodes.length < nodeIdBound → index.Matched := by
  refine (Advances.upkept.recover valid whole).mono fun index _ recovered room => ?_
  rcases recovered with rebuilt | ⟨_, _, _, _, _, _, _, _, _, decoded, loaded⟩
  · exact rebuilt.2 room (new_matched _)
  · exact loaded.2 room (loadedIndex_matched decoded)

/-! ### Calls -/

/-- What a call does to the index of an engine. -/
def EngineAdvances (before after : Engine × World Fs) : Prop :=
  Advances before.1.vectorIndex after.1.vectorIndex

theorem EngineAdvances.composes : Composes EngineAdvances where
  refl := fun _ => Advances.composes.refl _
  trans := fun _ _ _ => Advances.composes.trans _ _ _

namespace Engine

/-- A step on a part of the engine changes that part only. -/
theorem zoom_respects {τ α : Type} {part : Engine × World Fs → τ}
    {put : τ → Engine × World Fs → Engine × World Fs} (program : Prog Error τ α)
    (frame : ∀ piece state, (put piece state).1.vectorIndex = state.1.vectorIndex) :
    Respects EngineAdvances (Prog.zoom part put program) := by
  intro state
  have same : ∀ piece, EngineAdvances state (put piece state) := by
    intro piece
    unfold EngineAdvances
    rw [frame]
    exact Advances.composes.refl _
  constructor <;> intro result after ended <;> unfold Prog.zoom at ended <;>
    cases ran : program (part state) <;> rw [ran] at ended <;> cases ended
  · exact same _
  · exact same _

theorem onInner_respects {α : Type} (program : InnerM α) :
    Respects EngineAdvances (onInner program) := zoom_respects program fun _ _ => rfl

theorem onWorld_respects {α : Type} (program : IoM α) :
    Respects EngineAdvances (onWorld program) := zoom_respects program fun _ _ => rfl

theorem onIndex_respects {α : Type} {program : IndexM α} (respects : Respects Advances program) :
    Respects EngineAdvances (onIndex program) := by
  intro state
  constructor <;> intro result after ended <;> unfold onIndex Prog.zoom at ended <;>
    cases ran : program state.1.vectorIndex <;> rw [ran] at ended <;> cases ended
  · exact (respects _).1 _ _ ran
  · exact (respects _).2 _ _ ran

omit [LinearOrder D] in
theorem writeSnapshotAfter_respects (nextIdAfter : Option Nat) :
    Respects EngineAdvances (writeSnapshotAfter env nextIdAfter) := by
  cases nextIdAfter with
  | none => exact Respects.pure EngineAdvances.composes ()
  | some next =>
    have encode : Respects EngineAdvances (encodeIndex env next) := by
      refine fun state => ⟨fun bytes after ended => ?_, nofun⟩
      cases ended
      exact Advances.composes.refl _
    exact Respects.bind EngineAdvances.composes encode fun bytes =>
      Respects.bind EngineAdvances.composes (onWorld_respects _) fun _ => onWorld_respects _

omit [LinearOrder D] in
/-- What was logged is a record the log accepts. -/
theorem logRecord_valid (kind : RecordKind) (key value : Bytes) (state : EngineInner × World Fs) :
    Ensures (logRecord env kind key value) state fun _ _ => Record.Valid ⟨kind, key, value⟩ := by
  refine Ensures.bind_any fun inner middle => ?_
  have appended : Ensures (inner.writer.append env.hashes kind key value) middle.2 fun _ _ =>
      Record.Valid ⟨kind, key, value⟩ :=
    Ensures.bind (Ensures.ofExcept fun scratch encoded _ _ _ => (Record.encode_eq_ok_iff.mp encoded).1)
  refine Ensures.bind (Ensures.zoom (appended.mono fun _ after valid => ?_))
  exact Ensures.bind_any fun _ _ => Ensures.bind_any fun _ _ => Ensures.pure valid

omit [LinearOrder D] in
theorem logMutation_valid (kind : RecordKind) (key value : Bytes) (state : EngineInner × World Fs) :
    Ensures (logMutation env kind key value) state fun _ _ => Record.Valid ⟨kind, key, value⟩ := by
  refine Ensures.bind ((logRecord_valid kind key value state).mono fun before after valid => ?_)
  exact Ensures.bind_any fun _ _ => Ensures.bind_any fun _ _ => Ensures.bind_any fun _ _ =>
    Ensures.pure valid

theorem checkEmbedding_respects (embedding : List F32) :
    Respects Advances (checkEmbedding embedding) := by
  intro index
  refine Leads.bind Advances.composes ⟨fun value after ended => ?_, nofun⟩ fun held after _ => ?_
  · cases ended
    exact Advances.composes.refl _
  refine Respects.ite (Respects.throw Advances.composes _) ?_ after
  refine Respects.ite (Respects.throw Advances.composes _) ?_
  cases held.expectedDim with
  | none => exact Respects.pure Advances.composes ()
  | some d =>
    exact Respects.ite (Respects.throw Advances.composes _) (Respects.pure Advances.composes ())

theorem putIndexed_respects (key : Key) (embedding : List F32) :
    Respects EngineAdvances (putIndexed env key embedding) := by
  refine Respects.bind EngineAdvances.composes
    (onIndex_respects (checkEmbedding_respects embedding)) fun _ state => ?_
  refine Leads.bind EngineAdvances.composes (onInner_respects _ state) fun nextIdAfter middle ran => ?_
  have logged : Ensures (onInner (logMutation env .vector key (encodeVector embedding))) state
      fun _ _ => key ≠ [] :=
    Ensures.zoom ((logMutation_valid _ _ _ _).mono fun _ _ valid => valid.key_ne_nil)
  have named := logged nextIdAfter middle ran
  exact Respects.bind EngineAdvances.composes
    (onIndex_respects (IndexM.establish_replace_respects env.ops named embedding _))
    (fun _ => writeSnapshotAfter_respects nextIdAfter) middle

theorem delete_respects (key : Key) : Respects EngineAdvances (delete env key) :=
  Respects.bind EngineAdvances.composes (onInner_respects _) fun nextIdAfter =>
    Respects.bind EngineAdvances.composes (onIndex_respects (IndexM.dropKey_respects env.ops key))
      fun _ => writeSnapshotAfter_respects nextIdAfter

end Engine

/-- An index as recoveries and calls leave it, and as a recovery from a snapshot has it between two
entries. The tables a recovery reads are whole, as `SsTableWriter` leaves them; the file system may
be in any state, and calls on it may fail. There are always fewer nodes than ids. -/
inductive VectorIndex.History (env : Env D) : VectorIndex → Prop
  | recovered {inner : EngineInner} {world after : World Fs} {index : VectorIndex}
      (valid : ValidMap inner.memtable.map)
      (whole : ∀ entry ∈ inner.levels.l0 ++ inner.levels.l1,
        ∃ map, entry.reader.Reads env.hashes map)
      (run : recoverVectorIndex env inner world = .ok index after)
      (room : index.hnsw.nodes.length < nodeIdBound) : History env index
  | loaded {bytes : Bytes} {hnsw : HnswIndex} {keys : SortedMap Key NodeId} {marker : Nat}
      (decoded : HnswIndex.decodeSnapshot env.hashes bytes = .ok (hnsw, keys, marker)) :
      History env (loadedIndex hnsw keys)
  | applied {index after : VectorIndex} {key : Key} {entry : Entry} (reached : History env index)
      (valid : ValidEntry key entry) (ended : Ended (deltaProgram env key entry) index after)
      (room : after.hnsw.nodes.length < nodeIdBound) : History env after
  | putIndexed {engine after : Engine} {world world' : World Fs} (key : Key) (embedding : List F32)
      (reached : History env engine.vectorIndex)
      (ended : Ended (Engine.putIndexed env key embedding) (engine, world) (after, world'))
      (room : after.vectorIndex.hnsw.nodes.length < nodeIdBound) : History env after.vectorIndex
  | delete {engine after : Engine} {world world' : World Fs} (key : Key)
      (reached : History env engine.vectorIndex)
      (ended : Ended (Engine.delete env key) (engine, world) (after, world'))
      (room : after.vectorIndex.hnsw.nodes.length < nodeIdBound) : History env after.vectorIndex

theorem VectorIndex.History.matched {index : VectorIndex} (history : History env index) :
    index.Matched := by
  induction history with
  | recovered valid whole run room => exact recoverVectorIndex_matched valid whole _ _ run room
  | loaded decoded => exact loadedIndex_matched decoded
  | applied _ valid ended room ih =>
    exact ((Advances.upkept.delta valid).ended ended).2 room ih
  | putIndexed key embedding _ ended room ih =>
    exact ((Engine.putIndexed_respects key embedding).ended ended).2 room ih
  | delete key _ ended room ih => exact ((Engine.delete_respects key).ended ended).2 room ih

/-- **The maps are inverse bijections onto the live nodes**, whatever calls and recoveries came before.
So the node that unregistering a key hands over to the graph's deletion is a live one, and a snapshot
has a distinct non-empty key for every live node. -/
theorem maps_matched {index : VectorIndex} (history : VectorIndex.History env index) :
    (∀ key id, index.keyToNode.find? key = some id ↔ index.nodeToKey.find? id = some key) ∧
    (∀ key id, index.keyToNode.find? key = some id → key ≠ []) ∧
    (∀ id : NodeId, (∃ key, index.nodeToKey.find? id = some key) ↔
      ∃ node, index.hnsw.nodes[id]? = some node ∧ node.deleted = false) ∧
    (∀ key id rest, index.unregister key = (some id, rest) →
      ∃ node, rest.hnsw.nodes[id]? = some node ∧ node.deleted = false) ∧
    ∀ (id : NodeId) node, index.hnsw.nodes[id]? = some node → node.deleted = false →
      HnswIndex.keyOf index.keyToNode id ≠ [] ∧
      ∀ (other : NodeId) node', index.hnsw.nodes[other]? = some node' → node'.deleted = false →
        HnswIndex.keyOf index.keyToNode other = HnswIndex.keyOf index.keyToNode id → other = id := by
  have matched := history.matched
  have live : ∀ id : NodeId, (∃ key, index.nodeToKey.find? id = some key) ↔
      ∃ node, index.hnsw.nodes[id]? = some node ∧ node.deleted = false := by
    intro id
    rw [matched.live, HnswIndex.contents_getElem?]
    constructor
    · rintro ⟨vector, found⟩
      obtain ⟨node, here, same⟩ := Option.map_eq_some_iff.mp found
      exact ⟨node, here, (Prod.mk.inj same).2⟩
    · rintro ⟨node, here, alive⟩
      exact ⟨node.vector, by rw [here, Option.map_some, alive]⟩
  have named : ∀ (id : NodeId) node, index.hnsw.nodes[id]? = some node → node.deleted = false →
      ∃ key, index.keyToNode.find? key = some id ∧ HnswIndex.keyOf index.keyToNode id = key := by
    intro id node here alive
    obtain ⟨key, found⟩ := (live id).mpr ⟨node, here, alive⟩
    have registered := (matched.inverse key id).mpr found
    refine ⟨key, registered, HnswIndex.keyOf_eq registered fun other found' => ?_⟩
    rw [matched.inverse, found] at found'
    exact (Option.some.inj found').symm
  refine ⟨matched.inverse, matched.nonempty, live, ?_, ?_⟩
  · intro key id rest run
    unfold unregister at run
    cases found : index.keyToNode.find? key with
    | none =>
      rw [found] at run
      cases run
    | some id' =>
      rw [found] at run
      cases run
      exact (live id).mp ⟨key, (matched.inverse key id).mp found⟩
  · intro id node here alive
    obtain ⟨key, found, same⟩ := named id node here alive
    refine ⟨same ▸ matched.nonempty key id found, fun other node' here' alive' equal => ?_⟩
    obtain ⟨key', found', same'⟩ := named other node' here' alive'
    rw [same, same'] at equal
    rw [equal, found] at found'
    exact (Option.some.inj found').symm

/-- A key whose vector is replaced, a vector that is rejected, and the deletion of a key without one. -/
theorem maps_matched_replaced :
    ∃ index : VectorIndex, index.hnsw.contents = [([0], true), ([F32.one], false)] ∧
      ∀ key id, index.keyToNode.find? key = some id ↔ index.nodeToKey.find? id = some key := by
  let env := Env.zeroOne ⟨1000, 4, 0, ⟨.euclideanSquared, 1, 2, 1, 1, 0, 0⟩⟩
  let inner : EngineInner := ⟨⟨⟨0⟩⟩, Memtable.new, ⟨[], []⟩, 0, false⟩
  let world := World.fresh Fs.empty
  let engine : Engine := ⟨inner, VectorIndex.new env.options.hnswParams⟩
  have whole : ∀ entry ∈ inner.levels.l0 ++ inner.levels.l1,
    ∃ map, entry.reader.Reads env.hashes map := nofun
  have recovered : History env engine.vectorIndex := History.recovered ValidMap.empty whole
    (rfl : recoverVectorIndex env inner world = .ok engine.vectorIndex _) (by decide)
  have first : History env _ := History.putIndexed [7] [0] recovered
    (Or.inl ⟨(), (rfl : Engine.putIndexed env [7] [0] (engine, world) = .ok () (_, _))⟩) (by decide)
  have second : History env _ := History.putIndexed [7] [F32.one] first
    (Or.inl ⟨(), (rfl : Engine.putIndexed env [7] [F32.one] (_, world) = .ok () (_, _))⟩) (by decide)
  have rejected : History env _ := History.putIndexed [8] [0, 0] second
    (Or.inr ⟨_, (rfl : Engine.putIndexed env [8] [0, 0] (_, world) = .err _ (_, _))⟩) (by decide)
  have deleted : History env _ := History.delete [9] rejected
    (Or.inl ⟨(), (rfl : Engine.delete env [9] (_, world) = .ok () (_, _))⟩) (by decide)
  exact ⟨_, by decide, (maps_matched deleted).1⟩

end Sastran

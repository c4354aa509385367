/-
Table ids and the snapshot's marker.

The next id is not stored: opening recomputes it from the table files that are left. `AllocRuns` are runs
with the ids used up so far. Over them the next id stays above those ids and not below the marker of any
snapshot, as long as the engine is closed with its newest table still there (`ids_ahead`); a compaction
of nothing but tombstones leaves no table, and then it falls back to zero (`ids_ahead_fails`).
-/

import Sastran.Engine.Maps
import Sastran.Engine.Runs

namespace Sastran

open Device SsTable

/-! ### The marker of a snapshot -/

namespace Snapshot

open LittleEndian

theorem readU32_any (value : Nat) : Takes readU32 (leBytes 4 value) (leNat (leBytes 4 value)) :=
  (readBytes_takes _ (leBytes_length 4 value) _).bind_pure (Takes.pure _)

theorem readU64_any (value : Nat) : Takes readU64 (leBytes 8 value) (leNat (leBytes 8 value)) :=
  (readBytes_takes _ (leBytes_length 8 value) _).bind_pure (Takes.pure _)

/-- The marker is read back, whatever the parameters in front of it. -/
theorem readParams_marker (index : HnswIndex) {marker : Nat} (small : marker < u64Bound) :
    ∃ params, Takes readParams (index.encodeParams marker) (params, marker) := by
  have metric : Takes (DistanceMetric.fromTag index.metric.toTag : Except Error DistanceMetric) []
      index.metric := by
    rw [DistanceMetric.fromTag_toTag]
    exact fun rest => rfl
  let word : Nat → Nat := fun value => leNat (leBytes 4 value)
  refine ⟨⟨index.metric, word index.params.m, word index.params.mMax0,
    word index.params.efConstruction, word index.params.efSearch, word index.dim,
    leNat (leBytes 8 index.params.seed)⟩, ?_⟩
  refine (readU8_takes index.metric.toTag).bind (metric.bind_nil ?_)
  refine (readU32_any index.params.m).bind ?_
  refine (readU32_any index.params.mMax0).bind ?_
  refine (readU32_any index.params.efConstruction).bind ?_
  refine (readU32_any index.params.efSearch).bind ?_
  refine (readU32_any index.dim).bind ?_
  refine (readU64_any index.params.seed).bind ?_
  exact (readU64_takes small).bind_pure (Takes.pure _)

end Snapshot

open Snapshot in
/-- **A snapshot that decodes has the marker it was written with.** -/
theorem decodeSnapshot_marker {hashes : Hashes} {index decoded : HnswIndex}
    {keys keys' : SortedMap Key NodeId} {marker marker' : Nat} (small : marker < u64Bound)
    (run : HnswIndex.decodeSnapshot hashes (HnswIndex.encodeSnapshot hashes index marker keys) =
      .ok (decoded, keys', marker')) : marker' = marker := by
  obtain ⟨params, taken⟩ := readParams_marker index small
  have crc : (LittleEndian.leBytes 4 (hashes.crc32 (index.encodeBody marker keys)).toNat).length = 4 :=
    LittleEndian.leBytes_length _ _
  obtain ⟨_, _, _, ran, _⟩ := HnswIndex.decodeSnapshot_parts run
  rw [HnswIndex.encodeSnapshot, List.length_append, crc, Nat.add_sub_cancel, List.take_left] at ran
  obtain ⟨_, _, header, ran⟩ := Reader.bind_eq_ok.mp ran
  have front := readHeader_takes (index.encodeParams marker ++ (HnswIndex.encodeEntry index.entry ++
    (LittleEndian.leBytes 4 index.nodes.length ++ HnswIndex.encodeNodes keys index.nodes)))
  obtain ⟨rfl, rfl⟩ := Prod.mk.inj (Except.ok.inj (header.symm.trans front))
  obtain ⟨_, _, ranParams, ran⟩ := Reader.bind_eq_ok.mp ran
  obtain ⟨rfl, rfl⟩ := Prod.mk.inj (Except.ok.inj (ranParams.symm.trans (taken _)))
  obtain ⟨_, _, _, ran⟩ := Reader.bind_eq_ok.mp ran
  obtain ⟨_, _, _, ran⟩ := Reader.bind_eq_ok.mp ran
  obtain ⟨_, _, _, ran⟩ := Reader.bind_eq_ok.mp ran
  obtain ⟨same, _⟩ := Prod.mk.inj (Except.ok.inj ran)
  simp only [Prod.mk.injEq] at same
  exact same.2.1.symm

/-! ### Runs with their ids -/

variable {D : Type} [LinearOrder D] {env : Env D}

/-- Runs whose engines may be closed in certain states only, with the table ids used up so far: a call
uses up the ids from the next one before it up to the next one after it. -/
inductive AllocRuns (env : Env D) (may : Engine → Prop) : List Nat → Engine × World Fs → Prop
  | opened {engine : Engine} {world : World Fs}
      (run : Engine.open env (World.fresh Fs.empty) = .ok engine world) :
      AllocRuns env may [] (engine, world)
  | called {ids : List Nat} {before after : Engine × World Fs} (call : Call)
      (runs : AllocRuns env may ids before) (run : call.run env before = .ok () after) :
      AllocRuns env may (ids ++ List.range' before.1.inner.nextSstId
        (after.1.inner.nextSstId - before.1.inner.nextSstId)) after
  | reopened {ids : List Nat} {before after : Engine × World Fs}
      (runs : AllocRuns env may ids before) (closing : may before.1)
      (run : Engine.reopen env before = .ok () after) : AllocRuns env may ids after

/-- The next id is above the ids used up, and no snapshot's marker is above it. -/
def IdsAhead (hashes : Hashes) (ids : List Nat) (state : Engine × World Fs) : Prop :=
  (∀ id ∈ ids, id < state.1.inner.nextSstId) ∧
    ∀ id bytes hnsw keys marker, state.2.now.content (snapshotFilename id) = some bytes →
      HnswIndex.decodeSnapshot hashes bytes = .ok (hnsw, keys, marker) →
      marker ≤ state.1.inner.nextSstId

/-- The newest table ever written is still there, or none was. -/
def Anchored (engine : Engine) : Prop :=
  engine.inner.nextSstId = 0 ∨
    ∃ entry ∈ engine.inner.levels.l0 ++ engine.inner.levels.l1, entry.id + 1 = engine.inner.nextSstId

instance Anchored.decidable (engine : Engine) : Decidable (Anchored engine) :=
  inferInstanceAs (Decidable (engine.inner.nextSstId = 0 ∨
    ∃ entry ∈ engine.inner.levels.l0 ++ engine.inner.levels.l1, entry.id + 1 = engine.inner.nextSstId))

/-- The invariant: the ids used up are those below the next one, and so are all markers, but for the next
one itself. -/
structure Allocated (env : Env D) (ids : List Nat) (state : Engine × World Fs) (lsm : Lsm)
    (records : List Record) (snapshots : List (Nat × Bytes)) : Prop where
  calm : state.2.Calm
  running : Running env.hashes state.2.now state.1.inner lsm records snapshots
  below : ∀ id ∈ ids, id < lsm.nextId
  last : lsm.nextId = 0 ∨ lsm.nextId - 1 ∈ ids
  written : ∀ item ∈ snapshots, ∃ index : VectorIndex, item.2 = snapshotBytes env index item.1
  marked : ∀ item ∈ snapshots, item.1 ≤ lsm.nextId

variable {ids : List Nat} {state : Engine × World Fs} {lsm : Lsm} {records : List Record}
  {snapshots : List (Nat × Bytes)}

omit [LinearOrder D] in
theorem Allocated.ahead (allocated : Allocated env ids state lsm records snapshots) :
    IdsAhead env.hashes ids state := by
  have described := allocated.running.described
  refine ⟨fun id member => ?_, fun id bytes hnsw keys marker held decoded => ?_⟩
  · rw [allocated.running.holds.next]
    exact allocated.below id member
  · have known := described.known _ (by rw [held]; exact Option.some_ne_none _)
    cases known with
    | log same => exact absurd same (snapshot_ne_wal id)
    | table level table member same => exact absurd same.symm (sst_ne_snapshot _ _ _)
    | tmp isTmp => exact absurd isTmp (snapshot_not_tmp id)
    | snapshot item member same =>
      obtain ⟨small, held'⟩ := described.snapshot item member
      rw [← same, held] at held'
      obtain ⟨index, written⟩ := allocated.written item member
      rw [Option.some.inj held', written] at decoded
      rw [decodeSnapshot_marker small decoded, allocated.running.holds.next]
      exact allocated.marked item member

theorem Allocated.opened {engine : Engine} {world : World Fs}
    (run : Engine.open env (World.fresh Fs.empty) = .ok engine world) :
    ∃ lsm records, Allocated env [] (engine, world) lsm records [] := by
  have log : LogHolds env.hashes Dir.empty.log [] (logBytes env.hashes []) := .absent
  have calm := World.fresh_calm Fs.empty
  obtain ⟨next, isNext, running⟩ := open_ensures calm Describes.empty log engine world run
  refine ⟨_, [], ((open_leads calm Describes.empty log).1 engine world run).calm calm, running, nofun,
    Or.inl ?_, nofun, nofun⟩
  rcases isNext.2 with zero | ⟨id, member, _⟩
  · exact zero
  · cases member

theorem Allocated.called {after : Engine × World Fs} {call : Call}
    (allocated : Allocated env ids state lsm records snapshots)
    (run : call.run env state = .ok () after) :
    ∃ lsm' records' snapshots', Allocated env (ids ++ List.range' state.1.inner.nextSstId
      (after.1.inner.nextSstId - state.1.inner.nextSstId)) after lsm' records' snapshots' := by
  obtain ⟨engine, world⟩ := state
  obtain ⟨lsm', records', effect, running, passes⟩ :=
    call.ensures allocated.calm allocated.running _ _ run
  have grown : lsm.nextId ≤ lsm'.nextId := by
    have step := effect.settled.nextId_le
    rwa [Lsm.log_nextId] at step
  rw [running.holds.next, allocated.running.holds.next]
  refine ⟨lsm', records', _, passes.calm allocated.calm, running, fun id member => ?_, ?_, ?_, ?_⟩
  · rcases List.mem_append.mp member with member | member
    · exact lt_of_lt_of_le (allocated.below id member) grown
    · have inside := List.mem_range'_1.mp member
      omega
  · rcases Nat.eq_or_lt_of_le grown with same | more
    · rw [← same]
      exact allocated.last.imp_right fun member => List.mem_append_left _ member
    · refine Or.inr (List.mem_append_right _ (List.mem_range'_1.mpr ?_))
      omega
  · intro item member
    unfold Lsm.marker snapshotsAfter at member
    split at member
    · rename_i unmarked
      exact allocated.written item member
    · rw [List.mem_singleton.mp member]
      exact ⟨after.1.vectorIndex, rfl⟩
  · intro item member
    unfold Lsm.marker at member
    split at member
    · rw [List.mem_singleton.mp member]
    · exact le_trans (allocated.marked item member) grown

/-- What reopening makes of the next id. -/
theorem Allocated.reopened {after : Engine × World Fs}
    (allocated : Allocated env ids state lsm records snapshots)
    (run : Engine.reopen env state = .ok () after) :
    (Anchored state.1 → ∃ lsm' snapshots', Allocated env ids after lsm' records snapshots') ∧
      (IdsAhead env.hashes ids after → Anchored state.1) := by
  obtain ⟨engine, world⟩ := state
  obtain ⟨next, isNext, running, calm⟩ :=
    reopen_ensures allocated.calm allocated.running _ _ run
  have levels : ∀ id, id ∈ lsm.tables.map Prod.fst ↔
      ∃ entry ∈ engine.inner.levels.l0 ++ engine.inner.levels.l1, entry.id = id := by
    intro id
    have loaded : Loaded env.hashes (engine.inner.levels.l0 ++ engine.inner.levels.l1) lsm.tables :=
      List.rel_append allocated.running.holds.l0 allocated.running.holds.l1
    have same : (engine.inner.levels.l0 ++ engine.inner.levels.l1).map SsTableEntry.id =
        lsm.tables.map Prod.fst := by
      refine List.forall₂_eq_eq_eq ▸ ?_
      rw [List.forall₂_map_left_iff, List.forall₂_map_right_iff]
      exact loaded.imp fun entry table read => read.1
    rw [← same, List.mem_map]
  have inDir : ∀ item ∈ (lsm.stored (logBytes env.hashes records) snapshots).latest.toList,
      item ∈ snapshots := fun item member => Dir.latest_mem (Option.mem_toList.mp member)
  have bounded : ∀ id ∈ lsm.tables.map Prod.fst, id < lsm.nextId := by
    intro id member
    obtain ⟨table, inside, rfl⟩ := List.mem_map.mp member
    exact allocated.running.holds.ordered.bound table inside
  constructor
  · intro anchored
    have same : next = lsm.nextId := by
      rw [Anchored, allocated.running.holds.next] at anchored
      rcases anchored with zero | ⟨entry, member, last⟩
      · rcases isNext.2 with none | ⟨id, member, _⟩
        · rw [none, zero]
        · have := bounded id member
          omega
      · have present := (levels entry.id).mpr ⟨entry, member, rfl⟩
        have above := isNext.1 entry.id present
        rcases isNext.2 with none | ⟨id, member', reached⟩
        · omega
        · have := bounded id member'
          omega
    subst same
    exact ⟨_, _, calm, running, allocated.below, allocated.last,
      fun item member => allocated.written item (inDir item member),
      fun item member => allocated.marked item (inDir item member)⟩
  · rintro ⟨above, _⟩
    rw [running.holds.next] at above
    rw [Anchored, allocated.running.holds.next]
    rcases allocated.last with zero | member
    · exact Or.inl zero
    · by_cases zero : lsm.nextId = 0
      · exact Or.inl zero
      · have under : lsm.nextId - 1 < next := above _ member
        rcases isNext.2 with none | ⟨id, member', reached⟩
        · omega
        · obtain ⟨entry, listed, rfl⟩ := (levels id).mp member'
          have := bounded _ member'
          exact Or.inr ⟨entry, listed, by omega⟩

theorem AllocRuns.allocated (runs : AllocRuns env Anchored ids state) :
    ∃ lsm records snapshots, Allocated env ids state lsm records snapshots := by
  induction runs with
  | opened run =>
    obtain ⟨lsm, records, allocated⟩ := Allocated.opened run
    exact ⟨lsm, records, [], allocated⟩
  | called call _ run ih =>
    obtain ⟨_, _, _, allocated⟩ := ih
    exact allocated.called run
  | reopened _ closing run ih =>
    obtain ⟨_, records, _, allocated⟩ := ih
    obtain ⟨lsm', snapshots', reopened⟩ := (allocated.reopened run).1 closing
    exact ⟨lsm', records, snapshots', reopened⟩

/-- **Ids never fall behind** where the engine is closed with its newest table still there, and only
there: after every run whose reopenings are such, the next id is above the ids used up and not below any
snapshot's marker; and one more reopening keeps it so exactly from such a state. -/
theorem ids_ahead (runs : AllocRuns env Anchored ids state) :
    IdsAhead env.hashes ids state ∧ ∀ after, Engine.reopen env state = .ok () after →
      (IdsAhead env.hashes ids after ↔ Anchored state.1) := by
  obtain ⟨lsm, records, snapshots, allocated⟩ := runs.allocated
  refine ⟨allocated.ahead, fun after run => ?_⟩
  obtain ⟨forth, back⟩ := allocated.reopened run
  refine ⟨back, fun anchored => ?_⟩
  obtain ⟨lsm', snapshots', reopened⟩ := forth anchored
  exact reopened.ahead

/-- A run as one with its ids, where its engines may be closed. -/
theorem Runs.alloc {events : List Event} (runs : Runs env events state) (may : Engine → Prop)
    (free : .reopen ∈ events → ∀ engine, may engine) : ∃ ids, AllocRuns env may ids state := by
  induction runs with
  | opened run => exact ⟨[], .opened run⟩
  | @step events before after event _ run ih =>
    obtain ⟨ids, alloc⟩ := ih fun member => free (List.mem_append_left _ member)
    cases event with
    | call request => exact ⟨_, alloc.called request run⟩
    | reopen => exact ⟨ids, alloc.reopened (free (by simp) _) run⟩

/-- A put, a flush and reopening, and a put and a flush again. -/
theorem ids_ahead_flushed :
    ∃ ids state, AllocRuns (Env.zeroOne ⟨1000, 4, 0, ⟨.euclideanSquared, 1, 2, 1, 1, 0, 0⟩⟩) Anchored
      (ids ++ [1]) state ∧ state.1.inner.nextSstId = 2 ∧
      IdsAhead ⟨fun _ => 0, fun _ => (0, 0)⟩ (ids ++ [1]) state ∧
      ∀ after, Engine.reopen (Env.zeroOne ⟨1000, 4, 0, ⟨.euclideanSquared, 1, 2, 1, 1, 0, 0⟩⟩) state =
        .ok () after → (IdsAhead ⟨fun _ => 0, fun _ => (0, 0)⟩ (ids ++ [1]) after ↔ Anchored state.1) := by
  obtain ⟨env, envDef⟩ : ∃ env, env = Env.zeroOne ⟨1000, 4, 0, ⟨.euclideanSquared, 1, 2, 1, 1, 0, 0⟩⟩ :=
    ⟨_, rfl⟩
  have run : ((runAll env [.call (.put [1] [1]), .call .flush]).bind fun closed =>
      (Engine.reopen env closed).left.bind fun opened =>
      ((Call.put [2] [2]).run env opened).left.bind fun filled =>
      (Call.flush.run env filled).left.map fun state =>
        (decide (Anchored closed.1), filled.1.inner.nextSstId, state.1.inner.nextSstId)) =
      some (true, 1, 2) := by
    rw [envDef]
    decide +kernel
  obtain ⟨closed, ran, run⟩ := Option.bind_eq_some_iff.mp run
  obtain ⟨opened, opening, run⟩ := Option.bind_eq_some_iff.mp run
  obtain ⟨filled, filling, run⟩ := Option.bind_eq_some_iff.mp run
  obtain ⟨state, flushing, same⟩ := Option.map_eq_some_iff.mp run
  obtain ⟨⟨⟩, opening⟩ := Outcome.left_eq_some.mp opening
  obtain ⟨⟨⟩, filling⟩ := Outcome.left_eq_some.mp filling
  obtain ⟨⟨⟩, flushing⟩ := Outcome.left_eq_some.mp flushing
  simp only [Prod.mk.injEq, decide_eq_true_eq] at same
  obtain ⟨anchored, before, next⟩ := same
  obtain ⟨ids, alloc⟩ := (Runs.of_runAll ran).alloc Anchored (by simp)
  have alloc := ((alloc.reopened anchored opening).called _ filling).called _ flushing
  rw [before, next] at alloc
  obtain ⟨ahead, reopened⟩ := ids_ahead alloc
  rw [envDef] at alloc ahead reopened
  exact ⟨_, state, alloc, next, ahead, reopened⟩

/-- Where a tombstone is all that is flushed and compacted, no table is left: reopening starts over at the
id zero, with a snapshot whose marker is two. -/
theorem ids_ahead_fails :
    ¬ ∀ ids state, AllocRuns (Env.zeroOne ⟨1000, 1, 0, ⟨.euclideanSquared, 1, 2, 1, 1, 0, 0⟩⟩)
      (fun _ => True) ids state → IdsAhead ⟨fun _ => 0, fun _ => (0, 0)⟩ ids state := by
  intro claim
  have run : ((runAll (Env.zeroOne ⟨1000, 1, 0, ⟨.euclideanSquared, 1, 2, 1, 1, 0, 0⟩⟩)
      [.call (.delete [1]), .call .flush, .reopen]).map fun state => (state.1.inner.nextSstId,
        (state.2.now.content (snapshotFilename 2)).map fun bytes =>
          (HnswIndex.decodeSnapshot ⟨fun _ => 0, fun _ => (0, 0)⟩ bytes).toOption.map
            fun parts => parts.2.2)) = some (0, some (some 2)) := by
    decide +kernel
  obtain ⟨state, ran, found⟩ := Option.map_eq_some_iff.mp run
  obtain ⟨next, snapshot⟩ := Prod.mk.inj found
  obtain ⟨bytes, held, decodes⟩ := Option.map_eq_some_iff.mp snapshot
  obtain ⟨⟨hnsw, keys, marker⟩, decoded, rfl⟩ := Option.map_eq_some_iff.mp decodes
  obtain ⟨ids, alloc⟩ := (Runs.of_runAll ran).alloc (fun _ => True) fun _ _ => trivial
  have low := (claim ids state alloc).2 2 bytes hnsw keys 2 held (by
    cases run : HnswIndex.decodeSnapshot ⟨fun _ => 0, fun _ => (0, 0)⟩ bytes with
    | error error => rw [run] at decoded; cases decoded
    | ok parts => rw [run] at decoded; cases decoded; rfl)
  omega

end Sastran

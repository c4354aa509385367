/-
How much an engine keeps, in memory and on disk.

Every call leaves a memtable below its limit, or empty, and fewer L0 tables than trigger a compaction
(`Call.run_bounded`); the L1 table has no tombstones, and there is one snapshot at most. So the files of
the directory are the log, the live tables and the snapshot, and no others (`bounded_store`).
-/

import Sastran.Engine.Serving

namespace Sastran

open Device SsTable

variable {D : Type} {env : Env D} {world : World Fs} {inner : EngineInner} {lsm lsm' : Lsm}
  {records records' : List Record} {snapshots : List (Nat × Bytes)}

/-! ### What a call leaves in memory -/

/-- Nothing is due: the memtable is not to be flushed, and L0 not to be compacted. -/
structure EngineInner.Bounded (env : Env D) (inner : EngineInner) : Prop where
  few : inner.levels.l0.length < max 1 env.options.l0CompactionTrigger
  small : inner.memtable.isEmpty = true ∨ inner.memtable.approximateSize < env.options.memtableMaxSizeBytes

theorem flushInner_empties (calm : world.Calm)
    (running : Running env.hashes world.now inner lsm records snapshots) :
    Ensures (EngineInner.flushInner env) (inner, world) fun _ after => after.1.memtable.isEmpty = true := by
  refine (flushInner_ensures calm running.holds).mono fun _ after facts => ?_
  rw [facts.2.1]
  by_cases empty : inner.memtable.isEmpty = true
  · rw [if_pos empty]
    exact empty
  · rw [if_neg empty]
    rfl

theorem maybeAutoFlush_small (calm : world.Calm)
    (running : Running env.hashes world.now inner lsm records snapshots) :
    Ensures (EngineInner.maybeAutoFlush env) (inner, world) fun _ after =>
      after.1.memtable.isEmpty = true ∨
        after.1.memtable.approximateSize < env.options.memtableMaxSizeBytes := by
  refine Ensures.bind_ok rfl (Ensures.ite (fun _ => ?_) fun small => ?_)
  · exact (flushInner_empties calm running).mono fun _ _ empty => Or.inl empty
  · exact Ensures.pure (Or.inr (not_le.mp small))

theorem maybeCompact_few (calm : world.Calm)
    (running : Running env.hashes world.now inner lsm records snapshots) :
    Ensures (EngineInner.maybeCompact env) (inner, world) fun _ after =>
      after.1.levels.l0.length < max 1 env.options.l0CompactionTrigger ∧
        after.1.memtable = inner.memtable := by
  refine Ensures.bind_ok rfl (Ensures.ite (fun few => ?_) fun _ => ?_)
  · exact Ensures.pure ⟨lt_max_of_lt_right few, rfl⟩
  · refine (compactL0L1_ensures calm running.holds running.holds.tables_valid).mono fun _ after facts => ?_
    obtain ⟨holds, memtable, _⟩ := facts
    have none : after.1.levels.l0.length = 0 := holds.l0.length_eq
    exact ⟨by rw [none]; exact lt_max_of_lt_left Nat.one_pos, memtable⟩

/-- What a flush leaves to the compaction. -/
def Flushes (env : Env D) (flush : InnerM Unit) (inner : EngineInner) (world : World Fs) : Prop :=
  Ensures flush (inner, world) fun _ after => after.2.Calm ∧
    (∃ lsm records snapshots, Running env.hashes after.2.now after.1 lsm records snapshots) ∧
    (after.1.memtable.isEmpty = true ∨
      after.1.memtable.approximateSize < env.options.memtableMaxSizeBytes)

theorem maybeAutoFlush_flushes (calm : world.Calm)
    (running : Running env.hashes world.now inner lsm records snapshots) :
    Flushes env (EngineInner.maybeAutoFlush env) inner world := by
  refine ((maybeAutoFlush_running calm running).and (maybeAutoFlush_small calm running)).mono
    fun _ after facts => ?_
  obtain ⟨⟨⟨lsm', records', _, running'⟩, passes⟩, small⟩ := facts
  exact ⟨passes.calm calm, ⟨lsm', records', snapshots, running'⟩, small⟩

theorem flushInner_flushes (calm : world.Calm)
    (running : Running env.hashes world.now inner lsm records snapshots) :
    Flushes env (EngineInner.flushInner env) inner world := by
  refine ((flushInner_running calm running).and (flushInner_empties calm running)).mono fun _ after facts => ?_
  obtain ⟨⟨⟨records', _, running'⟩, passes⟩, empty⟩ := facts
  exact ⟨passes.calm calm, ⟨lsm.flush, records', snapshots, running'⟩, Or.inl empty⟩

theorem settle_bounded {flush : InnerM Unit} (flushes : Flushes env flush inner world) (before : Nat) :
    Ensures (do flush; EngineInner.maybeCompact env; Engine.changedId before) (inner, world)
      fun _ after => after.1.Bounded env := by
  refine Ensures.bind (flushes.mono fun _ flushed facts => ?_)
  obtain ⟨calm, ⟨lsm, records, snapshots, running⟩, small⟩ := facts
  refine Ensures.bind ((maybeCompact_few calm running).mono fun _ compacted facts => ?_)
  obtain ⟨few, same⟩ := facts
  intro marker after run
  cases run
  exact ⟨few, by rw [same]; exact small⟩

theorem Call.lsmStep_bounded (call : Call) (calm : world.Calm)
    (running : Running env.hashes world.now inner lsm records snapshots) :
    Ensures (call.lsmStep env) (inner, world) fun _ after => after.1.Bounded env := by
  unfold Call.lsmStep
  cases call.record with
  | some record =>
    refine Ensures.bind ((logRecord_running running record.kind record.key record.value).mono
      fun before logged facts => ?_)
    obtain ⟨_, _, running', passes⟩ := facts
    exact settle_bounded (maybeAutoFlush_flushes (passes.calm calm) running') before
  | none =>
    exact Ensures.bind_ok (Engine.lockInner_running running.holds.running)
      (settle_bounded (flushInner_flushes calm running) _)

variable [LinearOrder D]

/-- **What every call leaves.** -/
theorem Call.run_bounded {engine : Engine} (call : Call) (calm : world.Calm)
    (running : Running env.hashes world.now engine.inner lsm records snapshots) :
    Ensures (call.run env) (engine, world) fun _ after => after.1.inner.Bounded env := by
  rw [Call.run_eq]
  refine Ensures.bind (Ensures.zoom ((Ensures.itself _ _).mono fun _ index _ => ?_))
  refine Ensures.bind (Ensures.zoom ((call.lsmStep_bounded calm running).mono fun marker logged bounded => ?_))
  refine Ensures.bind (Ensures.zoom ((Ensures.itself _ _).mono fun _ index' _ => ?_))
  cases marker with
  | none => exact Ensures.pure bounded
  | some id =>
    refine Ensures.bind_ok rfl (Ensures.bind (Ensures.zoom ((Ensures.itself _ _).mono fun _ installed _ => ?_)))
    exact Ensures.zoom ((Ensures.itself _ _).mono fun _ cleaned _ => bounded)

/-! ### What runs keep -/

/-- Compacted tables have no tombstones. -/
def Lsm.Purged (lsm : Lsm) : Prop := ∀ table ∈ lsm.l1, ∀ key, table.2.find? key ≠ some .tombstone

omit [LinearOrder D] in
theorem Lsm.compact_purged (lsm : Lsm) : lsm.compact.Purged := by
  intro table member key found
  have listed : table ∈ lsm.output := member
  unfold Lsm.output at listed
  by_cases empty : lsm.merged.entries.isEmpty = true
  · rw [if_pos empty] at listed
    exact absurd listed List.not_mem_nil
  · rw [if_neg empty] at listed
    rw [List.mem_singleton.mp listed, Lsm.merged, SortedMap.find?_filter, Option.filter_eq_some_iff] at found
    exact absurd found.2 Bool.false_ne_true

omit [LinearOrder D] in
theorem Lsm.Purged.flush (purged : lsm.Purged) : lsm.flush.Purged := by
  unfold Lsm.flush
  split
  · exact purged
  · exact purged

omit [LinearOrder D] in
theorem Settled.purged (settled : Settled lsm records lsm' records') (purged : lsm.Purged) :
    lsm'.Purged := by
  cases settled with
  | kept flushed =>
    cases flushed with
    | kept => exact purged
    | moved => exact purged.flush
  | compacted flushed => exact Lsm.compact_purged _

omit [LinearOrder D] in
theorem Lsm.Purged.log (purged : lsm.Purged) (record : Option Record) : (lsm.log record).Purged := by
  cases record with
  | none => exact purged
  | some record => exact purged

/-- **The invariant of runs.** -/
theorem Runs.bounded {events : List Event} {state : Engine × World Fs} (runs : Runs env events state) :
    ∃ lsm records snapshots, Refines env events state lsm records snapshots ∧
      state.1.inner.Bounded env ∧ lsm.Purged ∧ snapshots.length ≤ 1 := by
  induction runs with
  | @opened engine world run =>
    obtain ⟨_, next, running⟩ := open_empty run
    have calm := World.fresh_calm Fs.empty
    have log : LogHolds env.hashes Dir.empty.log [] (logBytes env.hashes []) := .absent
    refine ⟨_, [], [], ⟨((open_leads calm Describes.empty log).1 engine world run).calm calm, running,
      fun key => rfl⟩, ⟨?_, Or.inl ?_⟩, fun _ member => absurd member List.not_mem_nil, Nat.zero_le 1⟩
    · have none : engine.inner.levels.l0.length = 0 := running.holds.l0.length_eq
      rw [none]
      exact lt_max_of_lt_left Nat.one_pos
    · rw [running.memtable]
      rfl
  | @step events before after event runs run ih =>
    obtain ⟨lsm, records, snapshots, refines, bounded, purged, few⟩ := ih
    obtain ⟨engine, world⟩ := before
    cases event with
    | call call =>
      obtain ⟨lsm', records', effect, running, passes⟩ :=
        call.ensures refines.calm refines.running _ _ run
      refine ⟨lsm', records', _, refines.call (passes.calm refines.calm) effect.settled running,
        call.run_bounded refines.calm refines.running _ _ run, effect.settled.purged (purged.log _), ?_⟩
      cases lsm.marker lsm' with
      | none => exact few
      | some marker => exact le_refl 1
    | reopen =>
      obtain ⟨next, _, running, calm⟩ := reopen_ensures refines.calm refines.running _ _ run
      refine ⟨_, _, _, ⟨calm, running, fun key => ?_⟩, ⟨?_, ?_⟩, purged, Option.length_toList_le⟩
      · rw [reference_reopen, ← refines.value]
        rfl
      · have same : after.1.inner.levels.l0.length = engine.inner.levels.l0.length :=
          running.holds.l0.length_eq.trans refines.running.holds.l0.length_eq.symm
        rw [same]
        exact bounded.few
      · have same : after.1.inner.memtable = engine.inner.memtable :=
          running.memtable.trans refines.running.memtable.symm
        rw [same]
        exact bounded.small

/-! ### The files -/

/-- The files of an engine: its log, its live tables and a snapshot. -/
def EngineInner.files (inner : EngineInner) (snapshot : Option Nat) : List FileName :=
  WAL_FILENAME :: (inner.levels.l0.map (fun entry => sstFilename 0 entry.id) ++
    inner.levels.l1.map (fun entry => sstFilename 1 entry.id) ++ snapshot.toList.map snapshotFilename)

omit [LinearOrder D] in
theorem Loaded.exists_table {hashes : Hashes} {entries : List SsTableEntry} {tables : List Table}
    (loaded : Loaded hashes entries tables) {entry : SsTableEntry} (member : entry ∈ entries) :
    ∃ table ∈ tables, entry.reader.Reads hashes table.2 := by
  induction loaded with
  | nil => exact absurd member List.not_mem_nil
  | @cons first table entries tables same _ ih =>
    rcases List.mem_cons.mp member with rfl | later
    · exact ⟨table, List.mem_cons_self .., same.2⟩
    · obtain ⟨other, listed, reads⟩ := ih later
      exact ⟨other, List.mem_cons_of_mem _ listed, reads⟩

omit [LinearOrder D] in
/-- **There are no other files.** -/
theorem Holds.files {fs : Fs} {log : Bytes} {snapshot : Option (Nat × Bytes)}
    (holds : Holds env.hashes fs inner lsm log snapshot.toList) (name : FileName) :
    fs.content name ≠ none ↔ name ∈ inner.files (snapshot.map Prod.fst) := by
  have described := holds.described
  have l0 := Loaded.mem_names holds.l0 0 name
  have l1 := Loaded.mem_names holds.l1 1 name
  unfold EngineInner.files
  rw [List.mem_cons, List.mem_append, List.mem_append, l0, l1]
  constructor
  · intro present
    rcases described.known name present with same | ⟨level, table, member, same⟩ |
      ⟨item, member, same⟩ | tmp
    · exact Or.inl same
    · rcases Dir.level_cases member with ⟨rfl, listed⟩ | ⟨rfl, listed⟩
      · exact Or.inr (Or.inl (Or.inl ⟨table, listed, same⟩))
      · exact Or.inr (Or.inl (Or.inr ⟨table, listed, same⟩))
    · obtain rfl := Option.mem_toList.mp member
      exact Or.inr (Or.inr (List.mem_singleton.mpr same))
    · exact absurd (holds.tidy name tmp) present
  · rintro (rfl | (⟨table, member, rfl⟩ | ⟨table, member, rfl⟩) | listed)
    · rw [described.log]
      exact Option.some_ne_none _
    · obtain ⟨_, bytes, held, _⟩ := described.table 0 table member
      rw [held]
      exact Option.some_ne_none _
    · obtain ⟨_, bytes, held, _⟩ := described.table 1 table member
      rw [held]
      exact Option.some_ne_none _
    · cases snapshot with
      | none => exact absurd listed List.not_mem_nil
      | some item =>
        rw [List.mem_singleton.mp listed, (described.snapshot item (List.mem_singleton_self item)).2]
        exact Option.some_ne_none _

/-- **Bounded memory, no leaks.** After every history of calls and reopenings, L0 has fewer tables than
trigger a compaction, L1 has one table at most, without tombstones, and the memtable is below its limit or
empty. The directory holds the log, the live tables, one snapshot at most, and no other file. -/
theorem bounded_store {events : List Event} {engine : Engine} (runs : Runs env events (engine, world)) :
    engine.levelCounts.1 < max 1 env.options.l0CompactionTrigger ∧ engine.levelCounts.2 ≤ 1 ∧
    (engine.memtableLen = 0 ∨
      engine.inner.memtable.approximateSize < env.options.memtableMaxSizeBytes) ∧
    (∀ entry ∈ engine.inner.levels.l1, ∃ map, entry.reader.Reads env.hashes map ∧
      ∀ key, map.find? key ≠ some .tombstone) ∧
    (∃ snapshot, ∀ name, world.now.content name ≠ none ↔ name ∈ engine.inner.files snapshot) ∧
    world.now.dir.keys.length ≤ engine.sstableCount + 2 := by
  obtain ⟨lsm, records, snapshots, refines, bounded, purged, few⟩ := runs.bounded
  have holds := refines.running.holds
  obtain ⟨snapshot, rfl⟩ : ∃ snapshot : Option (Nat × Bytes), snapshots = snapshot.toList := by
    rcases snapshots with _ | ⟨item, _ | ⟨_, _⟩⟩
    · exact ⟨none, rfl⟩
    · exact ⟨some item, rfl⟩
    · simp at few
  have files := holds.files
  refine ⟨bounded.few, ?_, bounded.small.imp_left fun empty => ?_, fun entry member => ?_,
    ⟨snapshot.map Prod.fst, files⟩, ?_⟩
  · show engine.inner.levels.l1.length ≤ 1
    rw [holds.l1.length_eq]
    exact holds.ordered.single
  · exact List.length_eq_zero_iff.mpr (List.isEmpty_iff.mp empty)
  · obtain ⟨table, listed, reads⟩ := Loaded.exists_table holds.l1 member
    exact ⟨table.2, reads, purged table listed⟩
  · have distinct : world.now.dir.keys.Nodup := (SortedMap.keys_ascending _).imp fun less => less.ne
    have inside : world.now.dir.keys ⊆ engine.inner.files (snapshot.map Prod.fst) := fun name member =>
      (files name).mp ((Fs.mem_keys_iff holds.described.wf).mp member)
    refine (distinct.length_le_of_subset inside).trans ?_
    unfold EngineInner.files
    rw [List.length_cons, List.length_append, List.length_append, List.length_map, List.length_map,
      List.length_map]
    have one : (snapshot.map Prod.fst).toList.length ≤ 1 := Option.length_toList_le
    show _ ≤ engine.inner.levels.l0.length + engine.inner.levels.l1.length + 2
    omega

/-- Three vectors, two of them flushed and compacted with a deletion: one table, and a snapshot. -/
theorem bounded_store_compacted :
    let env : Env Nat := Env.zeroOne ⟨1000, 2, 0, ⟨.euclideanSquared, 1, 2, 1, 1, 0, 0⟩⟩
    ∃ events engine world, Runs env events (engine, world) ∧ engine.sstableCount = 1 ∧
      world.now.dir.keys.length ≤ 3 := by
  intro env
  obtain ⟨events, eventsDef⟩ : ∃ events : List Event, events = [.call (.putIndexed [7] [0]),
      .call (.putIndexed [8] [0]), .call .flush, .call (.delete [7]), .call .flush,
      .call (.putIndexed [9] [0])] := ⟨_, rfl⟩
  have run : (runAll env events).map (fun state => state.1.sstableCount) = some 1 := by
    rw [eventsDef]
    decide +kernel
  obtain ⟨⟨engine, world⟩, ran, one⟩ := Option.map_eq_some_iff.mp run
  have runs := Runs.of_runAll ran
  obtain ⟨_, _, _, _, _, few⟩ := bounded_store runs
  have single : engine.sstableCount = 1 := one
  rw [single] at few
  exact ⟨events, engine, world, runs, single, few⟩

end Sastran

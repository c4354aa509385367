/-
Crashes in the middle of a flush, and of opening a directory.

A directory that describes an LSM state of this map is opened, and reads as the map, where the vectors
that count can be in one index (`Recoverable.recovers`). A flush passes through such directories only,
with one exception: a log that was created and has no header yet.

* `Interim` - the states in which a flush or a compaction may start.
* `flush_crash_atomic` - a crash in a flush, or in opening a directory a history leaves.
-/

import Sastran.Engine.Anytime
import Sastran.Engine.Orphans

namespace Sastran

open Device SsTable

variable {D : Type} [LinearOrder D] {env : Env D} {world : World Fs} {lsm lsm' : Lsm}
  {records : List Record} {snapshots : List (Nat × Bytes)} {dim : Nat} {map : Key → Option Entry}

/-! ### Recovering a map -/

/-- Opening the directory succeeds, and every key reads as the map says. -/
def Recovers (env : Env D) (map : Key → Option Entry) (fs : Fs) : Prop :=
  ∃ engine after, Engine.open env (World.fresh fs) = .ok engine after ∧
    ∀ key, ∃ last, Engine.get env key (engine, after) = .ok (Entry.visible (map key)) last

omit [LinearOrder D] in
/-- Whether an index can be rebuilt depends on values only. -/
theorem Lsm.Rebuildable.of_value (rebuildable : lsm.Rebuildable env dim)
    (same : ∀ key, lsm'.value key = lsm.value key) : lsm'.Rebuildable env dim := by
  refine ⟨rebuildable.positive, rebuildable.preset, fun key entry found => ?_⟩
  cases entry with
  | tombstone => exact trivial
  | put bytes => exact trivial
  | vector bytes =>
    have value := Lsm.value_eq_vector.mpr found
    rw [same] at value
    exact rebuildable.takes key _ (Lsm.value_eq_vector.mp value)

/-- So does the number of its vectors. -/
theorem Lsm.vectorKeys_le_of_value (same : ∀ key, lsm'.value key = lsm.value key) :
    lsm'.vectorKeys.length ≤ lsm.vectorKeys.length := by
  refine Lsm.length_le_vectorKeys (Lsm.vectorKeys_nodup lsm') fun key member => ?_
  obtain ⟨entry, found, isVector⟩ := Lsm.mem_vectorKeys.mp member
  cases entry with
  | tombstone => cases isVector
  | put bytes => cases isVector
  | vector bytes =>
    have value := Lsm.value_eq_vector.mpr found
    rw [same] at value
    exact ⟨_, Lsm.value_eq_vector.mp value, rfl⟩

/-- An LSM state of this map whose index can be rebuilt, with and without this snapshot. -/
structure Recoverable (env : Env D) (map : Key → Option Entry) (lsm : Lsm)
    (latest : Option (Nat × Bytes)) : Prop where
  value : ∀ key, lsm.value key = map key
  vectors : ∃ dim, lsm.Rebuildable env dim
  roomy : Roomy env lsm latest

namespace Recoverable

variable {latest : Option (Nat × Bytes)}

omit [LinearOrder D] in
theorem of_value (recoverable : Recoverable env map lsm latest)
    (same : ∀ key, lsm'.value key = lsm.value key) : Recoverable env map lsm' latest where
  value := fun key => (same key).trans (recoverable.value key)
  vectors := by
    obtain ⟨dim, rebuildable⟩ := recoverable.vectors
    exact ⟨dim, rebuildable.of_value same⟩
  roomy := by
    have few := Lsm.vectorKeys_le_of_value same
    have rebuilt := recoverable.roomy.rebuilt
    refine ⟨by omega, fun item found => ?_⟩
    obtain ⟨snapshot, taken, room⟩ := recoverable.roomy.loaded item found
    exact ⟨snapshot, taken, by omega⟩

/-- **Such a directory is opened**, and reads as the map. -/
theorem recovers {fs : Fs} {dir : Dir} {next : Nat}
    (storable : env.options.hnswParams.Storable) (described : Describes env.hashes fs dir)
    (log : LogHolds env.hashes dir.log records (logBytes env.hashes records))
    (recoverable : Recoverable env map (dir.recovered records next) dir.latest) :
    Recovers env map fs := by
  have any : ∀ next, Recoverable env map (dir.recovered records next) dir.latest :=
    fun next => recoverable.of_value fun _ => rfl
  obtain ⟨dim, rebuildable⟩ := recoverable.vectors
  have vectors : ∀ next, (dir.recovered records next).Rebuildable env dim :=
    fun next => rebuildable.of_value fun _ => rfl
  have calm := World.fresh_calm fs
  obtain ⟨engine, after, run, next', _, _, holds, _⟩ :=
    open_succeeds calm storable described log vectors fun next => (any next).roomy
  refine ⟨engine, after, run, fun key => ?_⟩
  have calm' := ((open_leads calm described log).1 engine after run).calm calm
  obtain ⟨result, last, found, rfl, _⟩ := holds.get_succeeds calm' key
  exact ⟨last, by rw [found, (any next').value]⟩

end Recoverable

/-- The LSM states in which a flush or a compaction may start: those of histories with few nodes, and what
they become behind log records and flushes. -/
inductive Interim (env : Env D) : EngineInner → Fs → Prop
  | between {server : Server} (reached : ReachedBy env Moment.Few (.up server)) :
      Interim env server.engine.inner server.disk
  | logged {inner inner' : EngineInner} {fs : Fs} {world : World Fs} {kind : RecordKind} {key value : Bytes}
      {id : Nat} (interim : Interim env inner fs)
      (run : Engine.logRecord env kind key value (inner, World.fresh fs) = .ok id (inner', world)) :
      Interim env inner' world.now
  | flushed {inner inner' : EngineInner} {fs : Fs} {world : World Fs} (interim : Interim env inner fs)
      (run : EngineInner.flushInner env (inner, World.fresh fs) = .ok () (inner', world)) :
      Interim env inner' world.now

variable {inner inner' : EngineInner} {fs : Fs}

theorem Interim.running (storable : env.options.hnswParams.Storable) (interim : Interim env inner fs) :
    ∃ lsm records snapshots, Running env.hashes fs inner lsm records snapshots ∧
      ∀ item ∈ snapshots, Taken env item := by
  induction interim with
  | between reached => exact (reached.kept storable).1.1
  | @logged inner inner' fs world kind key value id interim run ih =>
    obtain ⟨lsm, records, snapshots, running, taken⟩ := ih
    have running' : Running env.hashes (World.fresh fs).now inner lsm records snapshots := running
    obtain ⟨_, _, running'', _⟩ := logRecord_running running' _ _ _ _ _ run
    exact ⟨_, _, snapshots, running'', taken⟩
  | @flushed inner inner' fs world interim run ih =>
    obtain ⟨lsm, records, snapshots, running, taken⟩ := ih
    obtain ⟨⟨records', _, running'⟩, _⟩ := flushInner_running (World.fresh_calm fs) running _ _ run
    exact ⟨_, records', snapshots, running', taken⟩

/-- What holds in such a state, if the vectors can be in one index. -/
structure Settling (env : Env D) (map : Key → Option Entry) (inner : EngineInner) (fs : Fs) (lsm : Lsm)
    (records : List Record) (snapshots : List (Nat × Bytes)) : Prop where
  running : Running env.hashes fs inner lsm records snapshots
  recoverable : Recoverable env map lsm
    (lsm.stored (logBytes env.hashes records) snapshots).latest

omit [LinearOrder D] in
theorem Running.settling (running : Running env.hashes fs inner lsm records snapshots)
    (taken : ∀ item ∈ snapshots, Taken env item) (indexable : env.Indexable lsm.newest) :
    Settling env lsm.value inner fs lsm records snapshots :=
  ⟨running, fun _ => rfl, indexable.rebuildable, indexable.roomy fun item found =>
    taken item (Dir.latest_mem found)⟩

/-! ### Crashes in a flush -/

section Flushing

variable {dir dir' : Dir}

omit [LinearOrder D] in
/-- What an ordered state's files are recovered to. -/
theorem Lsm.Ordered.recovered (ordered : lsm.Ordered) (log : Option Bytes) (records : List Record)
    (next : Nat) : (⟨lsm.l0, lsm.l1, log, snapshots⟩ : Dir).recovered records next =
      ⟨(Memtable.replay records).map, lsm.l0, lsm.l1, next⟩ := by
  obtain ⟨l0, l1⟩ := Dir.live_of_ordered ordered
    (rfl : (⟨lsm.l0, lsm.l1, log, snapshots⟩ : Dir).l0 = lsm.l0) rfl
  rw [Dir.recovered, l0, l1]

omit [LinearOrder D] in
/-- Entries that were flushed from the log that is replayed are hidden by themselves. -/
theorem Lsm.value_replayed (lsm : Lsm) (next : Nat) (key : Key) :
    (⟨lsm.memtable, lsm.flush.l0, lsm.flush.l1, next⟩ : Lsm).value key = lsm.value key := by
  rw [Lsm.value, Lsm.value, Lsm.newest_eq, Lsm.newest_eq]
  unfold Lsm.flush
  split
  · rfl
  · simp only [Lsm.tables, List.cons_append, List.map_cons, newestOf_cons]
    cases lsm.memtable.find? key <;> rfl

omit [LinearOrder D] in
/-- What was flushed needs no log. -/
theorem Lsm.value_flushed (lsm : Lsm) (next : Nat) (key : Key) :
    (⟨SortedMap.empty, lsm.flush.l0, lsm.flush.l1, next⟩ : Lsm).value key = lsm.value key := by
  rw [← lsm.value_flush, Lsm.value, Lsm.value, Lsm.newest_eq, Lsm.newest_eq]
  have nothing : lsm.flush.memtable.find? key = none := by
    unfold Lsm.flush
    split
    · exact SortedMap.find?_eq_none_of_entries_nil (List.isEmpty_iff.mp ‹_›) key
    · rfl
  rw [nothing]
  rfl

/-- A directory that is recovered to the map, but for a log without header. -/
structure Keeps (hashes : Hashes) (map : Key → Option Entry) (dir : Dir) (records : List Record) : Prop where
  log : LogHolds hashes dir.log records (logBytes hashes records) ∨ dir.log = some []
  value : dir.log ≠ some [] → ∀ key, (dir.recovered records 0).value key = map key

omit [LinearOrder D] in
theorem LogHolds.header : LogHolds env.hashes (some Wal.fileHeader) [] (logBytes env.hashes []) := by
  have whole : LogHolds env.hashes _ [] (logBytes env.hashes []) :=
    .whole fun _ member => absurd member List.not_mem_nil
  rwa [logBytes_nil, List.append_nil] at whole

omit [LinearOrder D] in
/-- **A flush passes through directories that keep the values.** -/
theorem FlushCrash.keeps (running : Running env.hashes fs inner lsm records snapshots)
    (crash : FlushCrash lsm (logBytes env.hashes records) snapshots dir) :
    dir.snapshots = snapshots ∧ ∃ records', Keeps env.hashes lsm.value dir records' := by
  have memtable : (Memtable.replay records).map = lsm.memtable := by
    rw [← running.memtable, running.holds.memtable]
  have whole : LogHolds env.hashes (some (Wal.fileHeader ++ logBytes env.hashes records)) records
      (logBytes env.hashes records) := .whole running.valid
  -- The flushed state without its log.
  have flushed : ∀ (log : Option Bytes) (key : Key),
      ((⟨lsm.flush.l0, lsm.flush.l1, log, snapshots⟩ : Dir).recovered [] 0).value key = lsm.value key := by
    intro log key
    rw [running.holds.ordered.flush.recovered]
    exact lsm.value_flushed 0 key
  cases crash with
  | same =>
    refine ⟨rfl, records, Or.inl whole, fun _ key => ?_⟩
    rw [running.recovered]
    rfl
  | written =>
    refine ⟨rfl, records, Or.inl whole, fun _ key => ?_⟩
    show ((⟨lsm.flush.l0, lsm.flush.l1, _, snapshots⟩ : Dir).recovered records 0).value key = _
    rw [running.holds.ordered.flush.recovered, memtable]
    exact lsm.value_replayed 0 key
  | rotating crash =>
    cases crash with
    | removed => exact ⟨rfl, [], Or.inl .absent, fun _ => flushed _⟩
    | created => exact ⟨rfl, [], Or.inr rfl, fun headed => absurd rfl headed⟩
    | rotated => exact ⟨rfl, [], Or.inl .header, fun _ => flushed _⟩

omit [LinearOrder D] in
/-- What is live is recovered as it is. -/
theorem Dir.recovered_live {fs : Fs} (described : Describes env.hashes fs dir) (log : Option Bytes)
    (snapshots' : List (Nat × Bytes)) (records : List Record) (next : Nat) :
    (⟨dir.liveL0, dir.liveL1, log, snapshots'⟩ : Dir).recovered records next =
      dir.recovered records next := by
  have ordered := Dir.live_ordered (described.distinct 0) (isNext_foldl dir.ids) SortedMap.empty
  exact ordered.recovered log records next

omit [LinearOrder D] in
/-- **Opening a directory passes through directories that keep the same values**, and the snapshot to
load. -/
theorem RestartCrash.keeps {fs' : Fs} (described : Describes env.hashes fs dir)
    (log : LogHolds env.hashes dir.log records (logBytes env.hashes records))
    (value : ∀ key, (dir.recovered records 0).value key = map key)
    (crash : RestartCrash dir records env.hashes dir') (described' : Describes env.hashes fs' dir') :
    (∃ records', Keeps env.hashes map dir' records') ∧
      ∀ item, dir'.latest = some item → dir.latest = some item := by
  -- What is live is recovered from the files as it was.
  have live : ∀ (log : Option Bytes) (snapshots' : List (Nat × Bytes)) (key : Key),
      ((⟨dir.liveL0, dir.liveL1, log, snapshots'⟩ : Dir).recovered records 0).value key = map key := by
    intro log snapshots' key
    rw [Dir.recovered_live described]
    exact value key
  cases crash with
  | opening crash =>
    cases crash with
    | shedding sheds =>
      obtain ⟨l0, l1⟩ := sheds.live (described.distinct 1)
      refine ⟨⟨records, Or.inl (sheds.log ▸ log), fun _ key => ?_⟩, fun item found => ?_⟩
      · rw [Dir.recovered, l0, l1]
        exact value key
      · rwa [Dir.latest, sheds.snapshots] at found
    | discovered => exact ⟨⟨records, Or.inl log, fun _ => live _ _⟩, fun item found => found⟩
    | creating absent crash =>
      rw [absent] at log
      cases log
      cases crash with
      | removed => exact ⟨⟨[], Or.inl .absent, fun _ => live _ _⟩, fun item found => found⟩
      | created => exact ⟨⟨[], Or.inr rfl, fun headed => absurd rfl headed⟩, fun item found => found⟩
      | rotated => exact ⟨⟨[], Or.inl .header, fun _ => live _ _⟩, fun item found => found⟩
  | recovering next thins =>
    obtain ⟨l0, l1, log', snapshots'⟩ := dir'
    obtain ⟨rfl, rfl, rfl, _⟩ := Dir.mk.inj thins.rest
    refine ⟨⟨records, Or.inl (.whole log.valid), fun _ => live _ _⟩, fun item found => ?_⟩
    cases newest : dir.latest with
    | none =>
      have member := thins.inside item (Dir.latest_mem found)
      rw [Dir.latest_eq_none.mp newest] at member
      cases member
    | some latest =>
      have kept := last_of_subset described.distinctSnapshots described'.distinctSnapshots thins.inside newest
        (thins.kept latest newest)
      exact kept.symm.trans found

end Flushing

/-- The parameters of the examples. -/
theorem Env.zeroOne_storable (trigger : Nat) :
    (Env.zeroOne ⟨1000, trigger, 0, ⟨.euclideanSquared, 1, 2, 1, 1, 0, 0⟩⟩).options.hnswParams.Storable := by
  have small : (⟨.euclideanSquared, 1, 2, 1, 1, 0, 0⟩ : HnswParams).Storable :=
    ⟨⟨by decide, by decide, by decide, by decide, by decide⟩, by decide⟩
  exact small

end Sastran

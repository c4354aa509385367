/-
What an open engine holds, and the steps of writing: the log, and the flush with its log rotation.

`Holds` relates an engine's LSM state and the file system under it to an `Lsm`, `Stands` the same where
temporary files are left. Every write keeps both (`logRecord_ensures`, `flushInner_ensures`), and
`FlushCrash` lists the directories a flush passes through. What else the directory stores does not matter to
a flush (`InMemory.flush_ensures`).
-/

import Sastran.Engine.Api
import Sastran.Engine.Discovery

namespace Sastran

open Device SsTable

/-- The directory of an LSM state with this much behind the header of the log. -/
def Lsm.stored (lsm : Lsm) (log : Bytes) (snapshots : List (Nat × Bytes)) : Dir :=
  ⟨lsm.l0, lsm.l1, some (Wal.fileHeader ++ log), snapshots⟩

/-- **The engine in memory is an LSM state**: its memtable is the newest layer, and its tables are read
through readers. -/
structure InMemory (hashes : Hashes) (inner : EngineInner) (lsm : Lsm) : Prop where
  memtable : inner.memtable.map = lsm.memtable
  valid : ValidMap lsm.memtable
  l0 : Loaded hashes inner.levels.l0 lsm.l0
  l1 : Loaded hashes inner.levels.l1 lsm.l1
  next : inner.nextSstId = lsm.nextId
  small : lsm.nextId < u64Bound
  ordered : lsm.Ordered
  running : inner.closed = false

/-- **An open engine stands on its directory**: the tables are the files', and the log is open for
appending. There may be temporary files of tables. -/
structure Stands (hashes : Hashes) (fs : Fs) (inner : EngineInner) (lsm : Lsm) (log : Bytes)
    (snapshots : List (Nat × Bytes)) : Prop extends InMemory hashes inner lsm where
  described : Describes hashes fs (lsm.stored log snapshots)
  linked : fs.dir.find? WAL_FILENAME = some inner.writer.file.ino
  unsnapped : ∀ id, fs.content (tmpName (snapshotFilename id)) = none

/-- **An open engine holds an LSM state**, in a directory without temporary files. -/
structure Holds (hashes : Hashes) (fs : Fs) (inner : EngineInner) (lsm : Lsm) (log : Bytes)
    (snapshots : List (Nat × Bytes)) : Prop extends Stands hashes fs inner lsm log snapshots where
  tidy : fs.Tidy

variable {D : Type} {env : Env D} {world : World Fs} {inner : EngineInner} {lsm : Lsm} {log : Bytes}
  {snapshots : List (Nat × Bytes)}

namespace Stands

theorem fs_wf (stands : Stands env.hashes world.now inner lsm log snapshots) : world.now.Wf :=
  stands.described.wf

theorem logged (stands : Stands env.hashes world.now inner lsm log snapshots) :
    world.now.content WAL_FILENAME = some (Wal.fileHeader ++ log) := stands.described.log

theorem tables_valid {fs : Fs} (stands : Stands env.hashes fs inner lsm log snapshots) :
    ∀ table ∈ lsm.tables, ValidMap table.2 := by
  intro table member
  rcases List.mem_append.mp member with member | member
  · obtain ⟨_, bytes, _, isTable⟩ := stands.described.table 0 table member
    exact isTable.valid
  · obtain ⟨_, bytes, _, isTable⟩ := stands.described.table 1 table member
    exact isTable.valid

end Stands

/-- Reading changes nothing. -/
theorem Holds.quiet {after : World Fs} (holds : Holds env.hashes world.now inner lsm log snapshots)
    (quiet : Quiet world after) : Holds env.hashes after.now inner lsm log snapshots :=
  quiet.now ▸ holds

/-! ### Appending to the log -/

theorem Engine.lockInner_running (running : inner.closed = false) :
    Engine.lockInner (inner, world) = .ok inner (inner, world) := by
  show (if inner.closed = true then Prog.throw Error.closed else pure inner : InnerM EngineInner)
    (inner, world) = _
  rw [running]
  rfl

/-- **A logged mutation** is the newest entry of its key, wherever the log is. -/
theorem InMemory.logRecord_leads (memory : InMemory env.hashes inner lsm) (kind : RecordKind)
    (key value : Bytes) {appended : World Fs → Prop}
    (appends : Ensures (inner.writer.append env.hashes kind key value) world fun _ after =>
      Record.Valid ⟨kind, key, value⟩ ∧ appended after) :
    Ensures (Engine.logRecord env kind key value) (inner, world) fun result after =>
      let record : Record := ⟨kind, key, value⟩
      result = lsm.nextId ∧ record.Valid ∧
      after.1 = { inner with memtable := inner.memtable.apply record } ∧
      InMemory env.hashes after.1 (lsm.write key record.entry) ∧
      ∃ middle, appended middle ∧ Quiet middle after.2 := by
  refine Ensures.bind_ok (Engine.lockInner_running memory.running) (Ensures.bind (Ensures.zoom ?_))
  refine appends.mono fun _ middle facts => ?_
  obtain ⟨valid, facts⟩ := facts
  refine Ensures.bind (Ensures.zoom (FileAppend.sync_ensures.mono fun _ synced quiet => ?_))
  refine Ensures.bind ?_
  intro _ after run
  cases run
  refine Ensures.pure ⟨memory.next, valid, rfl, ?_, middle, facts, quiet⟩
  exact
    { memtable := by
        show (inner.memtable.apply ⟨kind, key, value⟩).map = _
        rw [Memtable.apply_eq, Memtable.upsert_map, memory.memtable]
        rfl
      valid := memory.valid.insert valid.entry
      l0 := memory.l0
      l1 := memory.l1
      next := memory.next
      small := memory.small
      ordered := memory.ordered.write key _
      running := memory.running }

/-- It is the end of the log that the engine appends to. -/
theorem InMemory.logRecord_ensures (memory : InMemory env.hashes inner lsm) (wf : world.now.Wf)
    (logged : world.now.content WAL_FILENAME = some (Wal.fileHeader ++ log))
    (linked : world.now.dir.find? WAL_FILENAME = some inner.writer.file.ino) (kind : RecordKind)
    (key value : Bytes) :
    Ensures (Engine.logRecord env kind key value) (inner, world) fun result after =>
      let record : Record := ⟨kind, key, value⟩
      result = lsm.nextId ∧ record.Valid ∧
      after.1 = { inner with memtable := inner.memtable.apply record } ∧
      InMemory env.hashes after.1 (lsm.write key record.entry) ∧
      after.2.now.content WAL_FILENAME = some (Wal.fileHeader ++ (log ++ record.bytes env.hashes)) ∧
      after.2.now.dir.find? WAL_FILENAME = some after.1.writer.file.ino ∧
      Fs.Frame (· = WAL_FILENAME) world.now after.2.now ∧
      Passes (fun fs => fs = after.2.now) world after.2 := by
  refine (memory.logRecord_leads kind key value
    (WalWriter.append_ensures wf linked logged kind key value)).mono fun result after facts => ?_
  obtain ⟨same, valid, inner', memory', middle, ⟨frame, content, linked', passes⟩, quiet⟩ := facts
  refine ⟨same, valid, inner', memory', ?_, ?_, quiet.now ▸ frame, ?_⟩
  · rw [quiet.now, content, List.append_assoc]
  · rw [quiet.now, inner']
    exact linked'
  · rw [quiet.now]
    exact passes.trans quiet.passes

theorem Fs.Tidies.setLog {fs fs' : Fs} (frame : Fs.Frame (· = WAL_FILENAME) fs fs') : Fs.Tidies fs fs' :=
  .of_frame frame fun _ tmp same => absurd tmp (same ▸ wal_not_tmp)

/-- No snapshot has been begun. -/
theorem Fs.Tidies.unsnapped {fs fs' : Fs} (tidies : Fs.Tidies fs fs')
    (unsnapped : ∀ id, fs.content (tmpName (snapshotFilename id)) = none) (id : Nat) :
    fs'.content (tmpName (snapshotFilename id)) = none :=
  tidies _ (Or.inr ⟨id, rfl⟩) (unsnapped id)

theorem logRecord_stands (stands : Stands env.hashes world.now inner lsm log snapshots)
    (kind : RecordKind) (key value : Bytes) :
    Ensures (Engine.logRecord env kind key value) (inner, world) fun result after =>
      let record : Record := ⟨kind, key, value⟩
      result = lsm.nextId ∧ record.Valid ∧
      after.1.memtable = inner.memtable.apply record ∧
      Stands env.hashes after.2.now after.1 (lsm.write key record.entry)
        (log ++ record.bytes env.hashes) snapshots ∧
      Fs.Tidies world.now after.2.now ∧ Passes (fun fs => fs = after.2.now) world after.2 := by
  refine (stands.logRecord_ensures stands.fs_wf stands.logged stands.linked kind key value).mono
    fun result after facts => ?_
  obtain ⟨same, valid, memtable, memory, logged, linked, frame, passes⟩ := facts
  have described := stands.described.setLog frame
  rw [logged] at described
  have tidies := Fs.Tidies.setLog frame
  exact ⟨same, valid, by rw [memtable], ⟨memory, described, linked, tidies.unsnapped stands.unsnapped⟩,
    tidies, passes⟩

theorem logRecord_ensures (holds : Holds env.hashes world.now inner lsm log snapshots)
    (kind : RecordKind) (key value : Bytes) :
    Ensures (Engine.logRecord env kind key value) (inner, world) fun result after =>
      let record : Record := ⟨kind, key, value⟩
      result = lsm.nextId ∧ record.Valid ∧
      after.1.memtable = inner.memtable.apply record ∧
      Holds env.hashes after.2.now after.1 (lsm.write key record.entry)
        (log ++ record.bytes env.hashes) snapshots ∧
      Passes (fun fs => fs = after.2.now) world after.2 := by
  refine (logRecord_stands holds.toStands kind key value).mono fun result after facts => ?_
  obtain ⟨same, valid, memtable, stands, tidies, passes⟩ := facts
  exact ⟨same, valid, memtable, ⟨stands, holds.tidy.tidied tidies⟩, passes⟩

/-! ### Publishing a table -/

/-- The finished table under its name, and no temporary file any more. -/
structure Published (filename : FileName) (bytes : Bytes) (before after : Fs) : Prop where
  frame : Fs.Frame (fun name => name = tmpName filename ∨ name = filename) before after
  held : after.content filename = some bytes
  gone : after.content (tmpName filename) = none

/-- **A finished table gets its name** in one step and is opened. -/
theorem publishTable_ensures (calm : world.Calm) (wf : world.now.Wf) {filename : FileName}
    {bytes : Bytes} {map : SortedMap Key Entry}
    (stored : world.now.content (tmpName filename) = some bytes)
    (isTable : IsTable env.hashes bytes map) :
    Ensures (EngineInner.publishTable env filename) world fun reader after =>
      reader.Reads env.hashes map ∧ Published filename bytes world.now after.now ∧
      Passes (Published filename bytes world.now) world after := by
  refine Ensures.bind ((Io.rename_frame wf (tmpName_ne filename)).mono fun _ renamed facts => ?_)
  obtain ⟨frame, held, gone, passes⟩ := facts
  rw [stored] at held
  have published : Published filename bytes world.now renamed.now := ⟨frame, held, gone⟩
  refine Ensures.bind (Io.syncDir_ensures.mono fun _ synced quiet => ?_)
  have calm' := quiet.calm (passes.calm calm)
  have held' : synced.now.content filename = some bytes := by rw [quiet.now, held]
  refine (SsTableReader.open_succeeds calm' held' isTable).ensures.mono fun reader after facts => ?_
  obtain ⟨reads, quiet'⟩ := facts
  have quiet'' := quiet.trans quiet'
  refine ⟨reads, quiet''.now ▸ published, ?_⟩
  exact (passes.mono fun fs same => same ▸ published).trans (Passes.of_quiet quiet'' published)

/-! ### Replacing the log -/

/-- The logs a rotation passes through. -/
inductive RotateCrash (dir : Dir) : Dir → Prop
  | removed : RotateCrash dir { dir with log := none }
  | created : RotateCrash dir { dir with log := some [] }
  | rotated : RotateCrash dir { dir with log := some Wal.fileHeader }

/-- Opening a log that does not exist. -/
theorem openLog_ensures {dir : Dir} (described : Describes env.hashes world.now dir)
    (absent : world.now.content WAL_FILENAME = none) :
    Ensures (WalWriter.open WAL_FILENAME) world fun writer after =>
      Describes env.hashes after.now { dir with log := some Wal.fileHeader } ∧
      Fs.Frame (· = WAL_FILENAME) world.now after.now ∧
      after.now.dir.find? WAL_FILENAME = some writer.file.ino ∧
      Passes (fun fs => ∃ dir', RotateCrash dir dir' ∧ Describes env.hashes fs dir') world after := by
  refine (WalWriter.open_ensures described.wf WAL_FILENAME).mono fun writer after facts => ?_
  obtain ⟨frame, held, linked, passes⟩ := facts
  rw [absent] at held
  have opened := described.setLog frame
  rw [held] at opened
  refine ⟨opened, frame, linked, passes.mono fun fs crash => ?_⟩
  obtain ⟨frame', stage⟩ := crash
  have crashed := described.setLog frame'
  rw [absent] at stage
  rcases stage with same | same | ⟨same, _⟩ <;> rw [same] at crashed
  · exact ⟨_, .removed, crashed⟩
  · exact ⟨_, .rotated, crashed⟩
  · exact ⟨_, .created, crashed⟩

/-- **A rotation** leaves an empty log, and no entries in the memtable; there has to be a log. -/
theorem rotateLog_ensures {dir : Dir} (described : Describes env.hashes world.now dir) :
    Ensures EngineInner.rotateLog (inner, world) fun _ after =>
      after.1 = { inner with writer := after.1.writer, memtable := Memtable.new } ∧
      Describes env.hashes after.2.now { dir with log := some Wal.fileHeader } ∧
      Fs.Frame (· = WAL_FILENAME) world.now after.2.now ∧
      after.2.now.dir.find? WAL_FILENAME = some after.1.writer.file.ino ∧ dir.log ≠ none ∧
      Passes (fun fs => ∃ dir', RotateCrash dir dir' ∧ Describes env.hashes fs dir') world
        after.2 := by
  refine Ensures.bind (Ensures.zoom (Ensures.bind (((Io.removeFile_frame described.wf WAL_FILENAME).and
    (Io.removeFile_needs WAL_FILENAME described.wf)).mono fun _ removed facts => ?_)))
  obtain ⟨⟨frame, gone, passes⟩, present⟩ := facts
  have without := described.setLog frame
  rw [gone] at without
  refine (openLog_ensures without gone).mono fun writer opened facts => ?_
  obtain ⟨holds, frame', linked, passes'⟩ := facts
  intro _ after run
  cases run
  refine ⟨rfl, holds, frame.trans frame', linked, described.log ▸ present, ?_⟩
  refine (passes.mono fun fs same => ⟨_, .removed, same ▸ without⟩).trans
    (passes'.mono fun fs crash => ?_)
  obtain ⟨dir', stage, crashed⟩ := crash
  cases stage with
  | removed => exact ⟨_, .removed, crashed⟩
  | created => exact ⟨_, .created, crashed⟩
  | rotated => exact ⟨_, .rotated, crashed⟩

/-! ### Flushes -/

/-- The directories a flush passes through, temporary files apart. -/
inductive FlushCrash (lsm : Lsm) (log : Bytes) (snapshots : List (Nat × Bytes)) : Dir → Prop
  | same : FlushCrash lsm log snapshots (lsm.stored log snapshots)
  | written : FlushCrash lsm log snapshots (lsm.flush.stored log snapshots)
  | rotating {dir : Dir} (crash : RotateCrash (lsm.flush.stored log snapshots) dir) :
      FlushCrash lsm log snapshots dir

theorem nextId_ensures (id : Nat) {state : EngineInner × World Fs} :
    Ensures (nextId id) state fun next after =>
      next = id + 1 ∧ id + 1 < u64Bound ∧ after = state := by
  refine Ensures.ofOption fun next found => ?_
  split at found <;> rename_i small
  · cases found
    exact ⟨rfl, small, rfl⟩
  · cases found

theorem tmp_of_sst (level id : Nat) : IsTmp (tmpName (sstFilename level id)) :=
  Or.inl ⟨level, id, rfl⟩

/-- The tables of an LSM state have ids below the next one. -/
theorem Lsm.Ordered.fresh (ordered : lsm.Ordered) (level : Nat) :
    ∀ table ∈ (lsm.stored log snapshots).level level, table.1 < lsm.nextId := by
  intro table member
  refine ordered.bound table ?_
  unfold Lsm.stored Dir.level at member
  unfold Lsm.tables
  split at member
  · exact List.mem_append_left _ member
  · exact List.mem_append_right _ member
  · cases member

theorem Lsm.flush_full (full : lsm.memtable.entries.isEmpty = false) :
    lsm.flush = ⟨SortedMap.empty, (lsm.nextId, lsm.memtable) :: lsm.l0, lsm.l1, lsm.nextId + 1⟩ := by
  rw [Lsm.flush, if_neg (by simp [full])]

/-- The directory with an L0 table; one of the same id is replaced. -/
def Dir.pushL0 (dir : Dir) (table : Table) : Dir :=
  { dir with l0 := table :: dir.l0.filter fun other => other.1 ≠ table.1 }

/-- The ids of the tables are not the next one. -/
theorem Lsm.Ordered.filter_next (ordered : lsm.Ordered) :
    (lsm.l0.filter fun table => table.1 ≠ lsm.nextId) = lsm.l0 := by
  refine List.filter_eq_self.mpr fun table member => decide_eq_true ?_
  exact ne_of_lt (ordered.bound table (List.mem_append_left _ member))

/-- **A table is published** in the place of one that has its name. -/
theorem Describes.publishL0 {fs written published : Fs} {dir : Dir} {table : Table} {bytes : Bytes}
    (described : Describes env.hashes fs dir) (small : table.1 + 1 < u64Bound)
    (frame : Fs.Frame (· = tmpName (sstFilename 0 table.1)) fs written)
    (isTable : IsTable env.hashes bytes table.2)
    (pub : Published (sstFilename 0 table.1) bytes written published) :
    Describes env.hashes published (dir.pushL0 table) := by
  have stored := described.tmp (frame.mono fun _ same => same ▸ tmp_of_sst 0 _)
  have removed := Fs.remove_frame stored.wf (sstFilename 0 table.1)
  have gone : (written.remove (sstFilename 0 table.1)).content (sstFilename 0 table.1) = none := by
    rw [Fs.content_remove, if_pos rfl]
  have without := stored.dropTable (by decide : 0 < 2) small removed gone
  have whole : Fs.Outside (fun name => name = tmpName (sstFilename 0 table.1) ∨
      name = sstFilename 0 table.1) (written.remove (sstFilename 0 table.1)) published :=
    ((removed.toOutside.symm stored.wf).mono fun _ same => Or.inr same).trans pub.frame.toOutside
  refine without.pushTable (by decide : 0 < 2) small whole pub.held isTable fun other member => ?_
  exact of_decide_eq_true (List.mem_filter.mp member).2

/-- **A flush of a memtable that holds something** adds a table to whatever the directory stores, and the log
starts over. -/
theorem InMemory.flush_ensures {dir : Dir} (calm : world.Calm) (memory : InMemory env.hashes inner lsm)
    (described : Describes env.hashes world.now dir) (full : inner.memtable.isEmpty = false) :
    Ensures (EngineInner.flushInner env) (inner, world) fun _ after =>
      let pushed := dir.pushL0 (lsm.nextId, lsm.memtable)
      InMemory env.hashes after.1 lsm.flush ∧ after.1.memtable = Memtable.new ∧
      Describes env.hashes after.2.now { pushed with log := some Wal.fileHeader } ∧
      after.2.now.dir.find? WAL_FILENAME = some after.1.writer.file.ino ∧
      Fs.Tidies world.now after.2.now ∧
      after.2.now.content (tmpName (sstFilename 0 lsm.nextId)) = none ∧
      (world.now.content (tmpName (sstFilename 0 lsm.nextId))).getD [] = [] ∧ dir.log ≠ none ∧
      Passes (fun fs => Fs.Frame (· = tmpName (sstFilename 0 lsm.nextId)) world.now fs ∨
        ∃ dir', (dir' = pushed ∨ RotateCrash pushed dir') ∧ Describes env.hashes fs dir') world after.2 := by
  have filled : lsm.memtable.entries.isEmpty = false := by
    rw [← memory.memtable]
    exact full
  have flushed := Lsm.flush_full filled
  have name : sstFilename 0 inner.nextSstId = sstFilename 0 lsm.nextId := by rw [memory.next]
  refine Ensures.bind_ok rfl ?_
  rw [if_neg (by rw [full]; exact Bool.false_ne_true)]
  have entries : inner.memtable.iter = lsm.memtable.entries := by rw [← memory.memtable]; rfl
  simp only [entries, name]
  -- The table is written under its temporary name.
  refine Ensures.bind (Ensures.zoom (((writeTable_ensures described.wf _ _ memory.valid).and
    (writeTable_needs described.wf _ _)).mono fun _ written facts => ?_))
  obtain ⟨⟨⟨bytes, stored, isTable⟩, frame, passes⟩, unwritten⟩ := facts
  -- The table gets its name.
  have calm' := passes.calm calm
  refine Ensures.bind (Ensures.zoom ((publishTable_ensures calm' frame.wf stored isTable).mono
    fun reader published facts => ?_))
  obtain ⟨reads, pub, passes'⟩ := facts
  refine Ensures.bind ((nextId_ensures _).mono fun next _ facts => ?_)
  obtain ⟨rfl, small, rfl⟩ := facts
  rw [memory.next] at small
  have grown : ∀ fs, Published (sstFilename 0 lsm.nextId) bytes written.now fs →
      Describes env.hashes fs (dir.pushL0 (lsm.nextId, lsm.memtable)) :=
    fun fs pub => described.publishL0 small frame isTable pub
  -- The log starts over.
  refine Ensures.bind_ok (by rfl) ?_
  refine (rotateLog_ensures (grown _ pub)).mono fun _ after facts => ?_
  obtain ⟨inner', rotated, frame', linked, present, passes''⟩ := facts
  have tidies : Fs.Tidies world.now after.2.now := by
    refine Fs.Tidies.trans (.of_frame ((frame.mono fun _ same => Or.inl same).trans pub.frame)
      fun other tmp touched => ?_) (.setLog frame')
    rcases touched with rfl | rfl
    · exact pub.gone
    · exact absurd tmp (sst_not_tmp _ _)
  have gone : after.2.now.content (tmpName (sstFilename 0 lsm.nextId)) = none :=
    Fs.Tidies.setLog frame' _ (tmp_of_sst 0 _) pub.gone
  have memtable : after.1.memtable = Memtable.new := by rw [inner']
  have levels : after.1.levels = ⟨⟨inner.nextSstId, reader⟩ :: inner.levels.l0, inner.levels.l1⟩ := by
    rw [inner']
  refine ⟨?_, memtable, rotated, linked, tidies, gone, unwritten, present, ?_⟩
  · exact
      { memtable := by
          rw [memtable, flushed]
          rfl
        valid := by
          rw [flushed]
          exact ValidMap.empty
        l0 := by
          rw [levels, flushed]
          exact List.Forall₂.cons ⟨memory.next, reads⟩ memory.l0
        l1 := by
          rw [levels, flushed]
          exact memory.l1
        next := by
          rw [inner', flushed, ← memory.next]
        small := by
          rw [flushed]
          exact small
        ordered := memory.ordered.flush
        running := by
          rw [inner']
          exact memory.running }
  · refine (passes.mono fun fs framed => Or.inl framed).trans ((passes'.mono fun fs pub => ?_).trans
      (passes''.mono fun fs crash => ?_))
    · exact Or.inr ⟨_, Or.inl rfl, grown fs pub⟩
    · obtain ⟨dir', stage, crashed⟩ := crash
      exact Or.inr ⟨dir', Or.inr stage, crashed⟩

/-- The tables of an LSM state, with the one that a flush adds. -/
theorem Lsm.Ordered.pushL0 (ordered : lsm.Ordered) (full : lsm.memtable.entries.isEmpty = false)
    (log : Bytes) (snapshots : List (Nat × Bytes)) :
    (lsm.stored log snapshots).pushL0 (lsm.nextId, lsm.memtable) = lsm.flush.stored log snapshots := by
  rw [Lsm.flush_full full]
  show (⟨(lsm.nextId, lsm.memtable) :: lsm.l0.filter fun table => table.1 ≠ lsm.nextId, _, _, _⟩ : Dir) = _
  rw [ordered.filter_next]
  rfl

theorem flushFull_stands (calm : world.Calm)
    (stands : Stands env.hashes world.now inner lsm log snapshots)
    (full : inner.memtable.isEmpty = false) :
    Ensures (EngineInner.flushInner env) (inner, world) fun _ after =>
      Stands env.hashes after.2.now after.1 lsm.flush [] snapshots ∧
      after.1.memtable = Memtable.new ∧ Fs.Tidies world.now after.2.now ∧
      Passes (fun fs => ∃ dir, FlushCrash lsm log snapshots dir ∧ Describes env.hashes fs dir) world
        after.2 := by
  have filled : lsm.memtable.entries.isEmpty = false := by
    rw [← stands.memtable]
    exact full
  have pushed := stands.ordered.pushL0 filled log snapshots
  refine (stands.flush_ensures calm stands.described full).mono fun _ after facts => ?_
  obtain ⟨memory, memtable, described, linked, tidies, _, _, _, passes⟩ := facts
  rw [pushed] at described passes
  refine ⟨⟨memory, described, linked, tidies.unsnapped stands.unsnapped⟩, memtable, tidies,
    passes.mono fun fs crash => ?_⟩
  rcases crash with framed | ⟨dir, rfl | stage, crashed⟩
  · exact ⟨_, .same, stands.described.tmp (framed.mono fun _ same => same ▸ tmp_of_sst 0 _)⟩
  · exact ⟨_, .written, crashed⟩
  · exact ⟨_, .rotating stage, crashed⟩

/-- **A flush** moves the memtable to a new table, unless it is empty. -/
theorem flushInner_stands (calm : world.Calm)
    (stands : Stands env.hashes world.now inner lsm log snapshots) :
    Ensures (EngineInner.flushInner env) (inner, world) fun _ after =>
      Stands env.hashes after.2.now after.1 lsm.flush
        (if inner.memtable.isEmpty then log else []) snapshots ∧
      after.1.memtable = (if inner.memtable.isEmpty then inner.memtable else Memtable.new) ∧
      Fs.Tidies world.now after.2.now ∧
      Passes (fun fs => ∃ dir, FlushCrash lsm log snapshots dir ∧ Describes env.hashes fs dir) world
        after.2 := by
  cases empty : inner.memtable.isEmpty with
  | false => exact flushFull_stands calm stands empty
  | true =>
    have same : lsm.flush = lsm := by
      rw [Lsm.flush, if_pos]
      rw [← stands.memtable]
      exact empty
    refine Ensures.bind_ok rfl ?_
    rw [if_pos empty]
    refine Ensures.zoom (FileAppend.sync_ensures.mono fun _ after quiet => ?_)
    rw [same]
    have now : after.now = world.now := quiet.now
    exact ⟨now ▸ stands, rfl, now ▸ Fs.Tidies.refl _, Passes.of_quiet quiet ⟨_, .same, stands.described⟩⟩

theorem flushInner_ensures (calm : world.Calm)
    (holds : Holds env.hashes world.now inner lsm log snapshots) :
    Ensures (EngineInner.flushInner env) (inner, world) fun _ after =>
      Holds env.hashes after.2.now after.1 lsm.flush
        (if inner.memtable.isEmpty then log else []) snapshots ∧
      after.1.memtable = (if inner.memtable.isEmpty then inner.memtable else Memtable.new) ∧
      Passes (fun fs => ∃ dir, FlushCrash lsm log snapshots dir ∧ Describes env.hashes fs dir) world
        after.2 := by
  refine (flushInner_stands calm holds.toStands).mono fun _ after facts => ?_
  obtain ⟨stands, memtable, tidies, passes⟩ := facts
  exact ⟨⟨stands, holds.tidy.tidied tidies⟩, memtable, passes⟩

end Sastran

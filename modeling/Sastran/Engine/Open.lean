/-
Opening a directory, proved.

`openInner` is the LSM part of opening. On a faultless device it recovers what the directory stores
(`openInner_succeeds`): the live tables, and the memtable the log replays to. `OpenCrash` lists the
directories it passes through: orphans disappear, and a log that does not exist is created. The other
part, the recovery of the vector index, only reads but for stale snapshots (`recoverIndex_ensures`).
-/

import Sastran.Engine.Compact

namespace Sastran

open Device SsTable

variable {D : Type} {env : Env D} {world : World Fs}

/-! ### Replaying the log -/

theorem replayLoop_succeeds {tail : Bytes} (ends : EndOfLog env.hashes tail) :
    ∀ (records : List Record) (fuel : Nat) {reader : WalReader} {memtable : Memtable}
      {replayed : List Record} {world : World Fs},
      (∀ record ∈ records, record.Valid) → reader.Reading → world.Calm →
      reader.rest = logBytes env.hashes records ++ tail → records.length < fuel →
      Succeeds (Prog.loop (replayRound env) fuel (reader, memtable, replayed)) world fun result after =>
        result = (records.foldl Memtable.apply memtable, replayed ++ records) ∧ Quiet world after := by
  intro records
  induction records with
  | nil =>
    intro fuel reader memtable replayed world _ reading calm left enough
    obtain ⟨fuel, rfl⟩ := Nat.exists_eq_add_one.mpr enough
    rw [logBytes_nil, List.nil_append] at left
    refine Succeeds.bind (Succeeds.bind ((WalReader.nextRecord_end reading calm (left ▸ ends)).mono
      fun result after holds => ?_))
    obtain ⟨rfl, quiet⟩ := holds
    exact Succeeds.pure (Succeeds.pure ⟨by simp, quiet⟩)
  | cons first rest ih =>
    intro fuel reader memtable replayed world valid reading calm left enough
    obtain ⟨fuel, rfl⟩ := Nat.exists_eq_add_one.mpr (Nat.zero_lt_of_lt enough)
    have fits := valid first (List.mem_cons_self ..)
    rw [logBytes_cons, List.append_assoc] at left
    refine Succeeds.bind (Succeeds.bind ((WalReader.nextRecord_first reading calm fits left).mono
      fun result after holds => ?_))
    obtain ⟨next, rfl, reading', left', quiet⟩ := holds
    refine Succeeds.pure ((ih fuel (fun other member => valid other (List.mem_cons_of_mem _ member))
      reading' (quiet.calm calm) left' (Nat.lt_of_succ_lt_succ enough)).mono fun result last holds => ?_)
    obtain ⟨rfl, quiet'⟩ := holds
    exact ⟨by simp, quiet.trans quiet'⟩

theorem records_le_bytes (hashes : Hashes) (records : List Record) :
    records.length ≤ (logBytes hashes records).length := by
  induction records with
  | nil => exact Nat.zero_le _
  | cons first rest ih =>
    rw [logBytes_cons, List.length_append, List.length_cons, Record.bytes_length, Record.encodedLen]
    have header : 0 < Wal.HEADER_LEN := by decide
    omega

/-- **A log is replayed**, up to what a reader takes for its end. -/
theorem replayWal_succeeds (calm : world.Calm) {records : List Record} {tail : Bytes}
    (here : world.now.content WAL_FILENAME =
      some (Wal.fileHeader ++ (logBytes env.hashes records ++ tail)))
    (ends : EndOfLog env.hashes tail) (valid : ∀ record ∈ records, record.Valid) :
    Succeeds (replayWal env Memtable.new) world fun result after =>
      result = (Memtable.replay records, records) ∧ Quiet world after := by
  refine Succeeds.bind ((WalReader.open_succeeds calm here).mono fun reader opened holds => ?_)
  obtain ⟨reading, left, quiet⟩ := holds
  have enough : records.length < reader.fileLen + 1 := by
    have inside : reader.rest.length ≤ reader.fileLen := by
      rw [reading.fileLen, WalReader.rest, List.length_drop]
      omega
    have few := records_le_bytes env.hashes records
    rw [left, List.length_append] at inside
    omega
  refine (replayLoop_succeeds ends records _ valid reading (quiet.calm calm) left enough).mono
    fun result after holds => ?_
  obtain ⟨rfl, quiet'⟩ := holds
  exact ⟨rfl, quiet.trans quiet'⟩

/-- What a log holds: nothing where there is none, else records and an end. -/
inductive LogHolds (hashes : Hashes) : Option Bytes → List Record → Bytes → Prop
  | absent : LogHolds hashes none [] []
  | present {records : List Record} {tail : Bytes} (ends : EndOfLog hashes tail)
      (valid : ∀ record ∈ records, record.Valid) :
      LogHolds hashes (some (Wal.fileHeader ++ (logBytes hashes records ++ tail))) records
        (logBytes hashes records ++ tail)

theorem LogHolds.valid {hashes : Hashes} {log : Option Bytes} {records : List Record} {bytes : Bytes}
    (holds : LogHolds hashes log records bytes) : ∀ record ∈ records, record.Valid := by
  cases holds with
  | absent => exact fun _ member => absurd member List.not_mem_nil
  | present _ valid => exact valid

/-- A log of whole records. -/
theorem LogHolds.whole {hashes : Hashes} {records : List Record}
    (valid : ∀ record ∈ records, record.Valid) :
    LogHolds hashes (some (Wal.fileHeader ++ logBytes hashes records)) records
      (logBytes hashes records) := by
  have holds : LogHolds hashes _ records _ := .present EndOfLog.nil valid
  rwa [List.append_nil] at holds

/-- Such a log is what it is opened to, unless there is none. -/
theorem LogHolds.opened {hashes : Hashes} {log : Option Bytes} {records : List Record} {bytes : Bytes}
    (holds : LogHolds hashes log records bytes) :
    WalWriter.opened log = Wal.fileHeader ++ bytes ∧
      (log = none ∨ (log = some (Wal.fileHeader ++ bytes) ∧ log.getD [] ≠ [])) := by
  cases holds with
  | absent => exact ⟨rfl, Or.inl rfl⟩
  | present ends valid =>
    exact ⟨rfl, Or.inr ⟨rfl, List.append_ne_nil_of_left_ne_nil (by decide) _⟩⟩

theorem replayExisting_succeeds [LinearOrder D] (calm : world.Calm) (wf : world.now.Wf)
    {records : List Record} {bytes : Bytes}
    (log : LogHolds env.hashes (world.now.content WAL_FILENAME) records bytes) :
    Succeeds (replayExisting env) world fun result after =>
      result = (Memtable.replay records, records) ∧ Quiet world after := by
  refine Succeeds.bind (Succeeds.bind ((Succeeds.of_ensures (Io.listDir_succeeds calm)
    Io.listDir_ensures).mono fun names listed holds => ?_))
  obtain ⟨rfl, quiet⟩ := holds
  refine Succeeds.pure ?_
  have calm' := quiet.calm calm
  cases found : world.now.content WAL_FILENAME with
  | none =>
    rw [found] at log
    cases log
    have absent : WAL_FILENAME ∉ world.now.dir.keys := by
      rw [Fs.mem_keys_iff wf, found]
      exact not_not.mpr rfl
    rw [decide_eq_false absent]
    exact Succeeds.pure ⟨rfl, quiet⟩
  | some content =>
    rw [found] at log
    cases log with
    | present ends valid =>
      have present : WAL_FILENAME ∈ world.now.dir.keys := by
        rw [Fs.mem_keys_iff wf, found]
        exact Option.some_ne_none _
      rw [decide_eq_true present]
      refine (replayWal_succeeds calm' (by rw [quiet.now, found]) ends valid).mono
        fun result after holds => ?_
      obtain ⟨rfl, quiet'⟩ := holds
      exact ⟨rfl, quiet.trans quiet'⟩

/-! ### Opening -/

/-- The LSM part of opening a directory, with the records replayed from its log. -/
def openInner (env : Env D) [LinearOrder D] : IoM (EngineInner × List Record) := do
  Io.createDirAll
  let (levels, nextSstId) ← discoverSstables env
  let (memtable, replayed) ← replayExisting env
  let writer ← WalWriter.open WAL_FILENAME
  pure (⟨writer, memtable, levels, nextSstId, false⟩, replayed)

theorem openReplaying_eq [LinearOrder D] : Engine.openReplaying env = (do
    let (inner, replayed) ← openInner env
    let vectorIndex ← recoverVectorIndex env inner
    pure (⟨inner, vectorIndex⟩, replayed)) := by
  unfold openInner Engine.openReplaying
  simp only [bind_assoc']
  rfl

theorem open_eq [LinearOrder D] : Engine.open env = (do
    let opened ← openInner env
    let vectorIndex ← recoverVectorIndex env opened.1
    pure ⟨opened.1, vectorIndex⟩) := by
  unfold Engine.open
  rw [openReplaying_eq]
  simp only [bind_assoc']
  rfl

/-- The LSM state a directory is recovered to. -/
def Dir.recovered (dir : Dir) (records : List Record) (nextId : Nat) : Lsm :=
  ⟨(Memtable.replay records).map, dir.liveL0, dir.liveL1, nextId⟩

/-- The directories that opening passes through: some orphans are gone, all are, or a log is being
created. -/
inductive OpenCrash (dir : Dir) : Dir → Prop
  | shedding {dir' : Dir} (sheds : dir.Sheds dir') : OpenCrash dir dir'
  | discovered : OpenCrash dir dir.live
  | creating {dir' : Dir} (absent : dir.log = none) (crash : RotateCrash dir.live dir') :
      OpenCrash dir dir'

/-- **Opening recovers what the directory stores.** -/
theorem openInner_succeeds [LinearOrder D] (calm : world.Calm) {dir : Dir}
    (described : Describes env.hashes world.now dir) {records : List Record} {bytes : Bytes}
    (log : LogHolds env.hashes dir.log records bytes) :
    Succeeds (openInner env) world fun result after =>
      ∃ next, IsNext dir.ids next ∧ result.2 = records ∧
        result.1.memtable = Memtable.replay records ∧
        Holds env.hashes after.now result.1 (dir.recovered records next) bytes dir.snapshots ∧
        Passes (fun fs => ∃ dir', OpenCrash dir dir' ∧ Describes env.hashes fs dir') world after := by
  refine Succeeds.bind ((Succeeds.of_ensures (Io.createDirAll_succeeds calm)
    Io.createDirAll_ensures).mono fun _ created quiet => ?_)
  have calm' := quiet.calm calm
  have described' : Describes env.hashes created.now dir := quiet.now ▸ described
  refine Succeeds.bind ((discoverSstables_succeeds calm' described').mono fun found discovered holds => ?_)
  obtain ⟨levels, nextSstId⟩ := found
  obtain ⟨l0, l1, isNext, live, tidy, passes⟩ := holds
  have calm'' := passes.calm calm'
  have log' : LogHolds env.hashes (discovered.now.content WAL_FILENAME) records bytes := by
    rw [live.log]
    exact log
  refine Succeeds.bind ((replayExisting_succeeds calm'' live.wf log').mono fun result replayed holds => ?_)
  obtain ⟨rfl, quiet'⟩ := holds
  have live' : Describes env.hashes replayed.now dir.live := quiet'.now ▸ live
  refine Succeeds.bind ((Succeeds.of_ensures (WalWriter.open_succeeds live'.wf (quiet'.calm calm'') _)
    (WalWriter.open_ensures live'.wf WAL_FILENAME)).mono fun writer opened holds => ?_)
  obtain ⟨frame, content, linked, passes'⟩ := holds
  have shed : Passes (fun fs => ∃ dir', OpenCrash dir dir' ∧ Describes env.hashes fs dir') world
      replayed := by
    refine (Passes.of_quiet quiet ⟨dir, .shedding (Dir.Sheds.refl dir), described⟩).trans
      ((passes.mono fun fs crash => ?_).trans (Passes.of_quiet quiet' ?_))
    · obtain ⟨dir', sheds, crashed⟩ := crash
      exact ⟨dir', .shedding sheds, crashed⟩
    · exact ⟨dir.live, .discovered, live⟩
  have opened' := live'.setLog frame
  have small : nextSstId < u64Bound := Dir.next_small described isNext
  have stored : ((dir.recovered records nextSstId).stored bytes dir.snapshots) =
      { dir.live with log := opened.now.content WAL_FILENAME } := by
    rw [content, live'.log]
    show (⟨dir.liveL0, dir.liveL1, _, dir.snapshots⟩ : Dir) =
      ⟨dir.liveL0, dir.liveL1, some (WalWriter.opened dir.log), dir.snapshots⟩
    rw [log.opened.1]
  have tidy' : opened.now.Tidy := (quiet'.now ▸ tidy : replayed.now.Tidy).tidied (.setLog frame)
  refine Succeeds.pure ⟨nextSstId, isNext, rfl, rfl, ?_, shed.trans (passes'.mono fun fs crash => ?_)⟩
  · exact
      { described := by rw [stored]; exact opened'
        tidy := tidy'
        unsnapped := fun id => tidy' _ (Or.inr ⟨id, rfl⟩)
        linked := linked
        memtable := rfl
        valid := Memtable.replay_valid log.valid
        l0 := l0
        l1 := l1
        next := rfl
        small := small
        ordered := Dir.live_ordered (described.distinct 0) isNext _
        running := rfl }
  · obtain ⟨frame', stage⟩ := crash
    have crashed := live'.setLog frame'
    rw [live'.log] at stage
    change fs.content WAL_FILENAME = dir.log ∨ _ = some (WalWriter.opened dir.log) ∨
      (_ = some [] ∧ dir.log.getD [] = []) at stage
    have same : fs.content WAL_FILENAME = dir.log → ∃ dir', OpenCrash dir dir' ∧
        Describes env.hashes fs dir' := fun same =>
      ⟨dir.live, .discovered, by rw [same] at crashed; exact crashed⟩
    rcases log.opened.2 with absent | ⟨_, filled⟩
    · rw [absent] at stage
      rcases stage with held | held | ⟨held, _⟩
      · exact same (held.trans absent.symm)
      · rw [held] at crashed
        exact ⟨_, .creating absent .rotated, crashed⟩
      · rw [held] at crashed
        exact ⟨_, .creating absent .created, crashed⟩
    · rcases stage with held | held | ⟨_, nothing⟩
      · exact same held
      · obtain ⟨reopened, absent | ⟨whole, _⟩⟩ := log.opened
        · exact absurd (by rw [absent]; rfl) filled
        · exact same (held.trans (by rw [reopened, whole]))
      · exact absurd nothing filled

/-! ### The vector index is recovered by reading -/

theorem ioRead_respects {α : Type} (step : Fs → Except Error α) : Respects Quiet (ioRead step) := by
  intro world
  refine ⟨fun value after run => (ioRead_ensures step value after run).2, fun error after run => ?_⟩
  have failed : call (.io .fault) (fun fs => (step fs).map fun value => (value, fs)) world =
      .err error after := run
  obtain ⟨now, passes⟩ := call_err_frame failed
  exact ⟨now, passes⟩

theorem SsTableIterator.next_respects (hashes : Hashes) (iterator : SsTableIterator) :
    Respects Quiet (SsTableIterator.next hashes iterator) := by
  refine Respects.loop Quiet.composes (fun iterator => ?_) _ _
  unfold SsTableIterator.round
  split
  · exact Respects.pure Quiet.composes _
  split
  · exact Respects.pure Quiet.composes _
  refine Respects.bind Quiet.composes (Respects.attempt ?_) fun result => ?_
  · exact Respects.bind Quiet.composes (ioRead_respects _) fun _ =>
      Respects.ofExcept Quiet.composes _
  · split <;> exact Respects.pure Quiet.composes _

theorem building_respects {α : Type} (program : IndexM α) (index : VectorIndex) :
    Respects Quiet (building program index) := by
  intro world
  unfold building
  refine ⟨fun value after run => ?_, fun error after run => ?_⟩ <;> split at run <;> cases run <;>
    exact Quiet.refl world

theorem Building.once_respects (state : Building) (key : Key) (program : IndexM Unit) :
    Respects Quiet (state.once key program) := by
  unfold Building.once
  split
  · exact Respects.pure Quiet.composes _
  · exact Respects.bind Quiet.composes (building_respects _ _) fun _ =>
      Respects.pure Quiet.composes _

theorem ingestAll_respects {step : Building → Key → Entry → IoM Building}
    (each : ∀ built key entry, Respects Quiet (step built key entry)) (index : VectorIndex)
    (memtable : Memtable) (tables : List SsTableEntry) :
    Respects Quiet (ingestAll env step index memtable tables) := by
  refine Respects.bind Quiet.composes (Respects.foldM Quiet.composes
    (fun built (entry : Key × Entry) => each built entry.1 entry.2) _ _) fun built => ?_
  refine Respects.bind Quiet.composes (Respects.foldM Quiet.composes (fun built table => ?_) _ _)
    fun built => Respects.pure Quiet.composes _
  refine Respects.loop Quiet.composes (fun state => ?_) _ _
  refine Respects.bind Quiet.composes (SsTableIterator.next_respects _ _) fun result => ?_
  obtain ⟨item, iterator⟩ := result
  match item with
  | none => exact Respects.pure Quiet.composes _
  | some (.error error) => exact Respects.throw Quiet.composes error
  | some (.ok (key, entry)) =>
    exact Respects.bind Quiet.composes (each _ key entry) fun _ => Respects.pure Quiet.composes _

theorem fullRebuild_respects [LinearOrder D] (inner : EngineInner) :
    Respects Quiet (fullRebuildIndexFromLsm env inner) :=
  ingestAll_respects (fun built key _ => Building.once_respects built key _) _ _ _

theorem loadSnapshot_respects [LinearOrder D] (inner : EngineInner) (path : FileName) :
    Respects Quiet (loadSnapshotAndApplyDelta env inner path) := by
  refine Respects.bind Quiet.composes ?_ fun bytes => ?_
  · refine Respects.bind Quiet.composes (ioRead_respects _) fun file => ?_
    exact Respects.bind Quiet.composes (ioRead_respects _) fun length => ioRead_respects _
  · refine Respects.bind Quiet.composes (Respects.ofExcept Quiet.composes _) fun parts => ?_
    exact ingestAll_respects (fun built key _ => Building.once_respects built key _) _ _ _

/-! ### Logs that cannot be replayed -/

theorem WalReader.open_respects (name : FileName) : Respects Quiet (WalReader.open name) := by
  refine Respects.bind Quiet.composes (ioRead_respects _) fun file => ?_
  refine Respects.bind Quiet.composes (ioRead_respects _) fun length => ?_
  refine Respects.ite (Respects.throw Quiet.composes _) ?_
  refine Respects.bind Quiet.composes (ioRead_respects _) fun header => ?_
  refine Respects.ite (Respects.throw Quiet.composes _) ?_
  exact Respects.ite (Respects.throw Quiet.composes _) (Respects.pure Quiet.composes _)

theorem WalReader.nextRecord_respects (hashes : Hashes) (reader : WalReader) :
    Respects Quiet (reader.nextRecord hashes) := by
  refine Respects.ite (Respects.pure Quiet.composes _) (Respects.ite (Respects.pure Quiet.composes _) ?_)
  refine Respects.ite (Respects.pure Quiet.composes _) ?_
  refine Respects.bind Quiet.composes (ioRead_respects _) fun header => ?_
  split
  · refine Respects.ite (Respects.pure Quiet.composes _) ?_
    refine Respects.bind Quiet.composes (ioRead_respects _) fun scratch => ?_
    split
    · exact Respects.pure Quiet.composes _
    · exact Respects.throw Quiet.composes _
  · exact Respects.throw Quiet.composes _
  · exact Respects.pure Quiet.composes _

theorem replayWal_respects (memtable : Memtable) : Respects Quiet (replayWal env memtable) := by
  refine Respects.bind Quiet.composes (WalReader.open_respects _) fun reader => ?_
  refine Respects.loop Quiet.composes (fun state => ?_) _ _
  refine Respects.bind Quiet.composes (WalReader.nextRecord_respects _ _) fun result => ?_
  obtain ⟨record, reader⟩ := result
  cases record with
  | none => exact Respects.pure Quiet.composes _
  | some record => exact Respects.pure Quiet.composes _

/-- **A directory whose log cannot be replayed is not opened**; it loses its orphans. -/
theorem open_unreplayed [LinearOrder D] (kind : Error → Prop) (calm : world.Calm) {dir : Dir}
    (described : Describes env.hashes world.now dir) {bytes : Bytes} (stored : dir.log = some bytes)
    (refused : ∀ world : World Fs, world.Calm → world.now.content WAL_FILENAME = some bytes →
      ∃ error after, replayWal env Memtable.new world = .err error after ∧ kind error) :
    ∃ error after, Engine.open env world = .err error after ∧ kind error ∧
      Describes env.hashes after.now dir.live ∧
      Passes (fun fs => ∃ dir', Describes env.hashes fs dir' ∧ dir'.log = some bytes ∧
        dir'.snapshots = dir.snapshots) world after := by
  obtain ⟨_, created, run, quiet⟩ := Succeeds.of_ensures (Io.createDirAll_succeeds calm)
    Io.createDirAll_ensures
  have described' : Describes env.hashes created.now dir := quiet.now ▸ described
  obtain ⟨found, discovered, run', _, _, _, live, _, passes⟩ :=
    discoverSstables_succeeds (quiet.calm calm) described'
  have calm' := passes.calm (quiet.calm calm)
  obtain ⟨names, listed, run'', rfl, quiet'⟩ := Succeeds.of_ensures (Io.listDir_succeeds calm')
    Io.listDir_ensures
  have here : listed.now.content WAL_FILENAME = some bytes := by
    rw [quiet'.now, live.log]
    exact stored
  have present : WAL_FILENAME ∈ discovered.now.dir.keys := by
    rw [Fs.mem_keys_iff live.wf, live.log]
    show dir.log ≠ none
    rw [stored]
    exact Option.some_ne_none _
  obtain ⟨error, after, failed, holds⟩ := refused listed (quiet'.calm calm') here
  have read : Quiet listed after := (replayWal_respects Memtable.new listed).2 _ _ failed
  refine ⟨error, after, ?_, holds, (quiet'.trans read).now ▸ live, ?_⟩
  · have exists_run : walFileExists discovered = .ok true listed := by
      unfold walFileExists
      rw [bind_ok run'', decide_eq_true present]
      rfl
    have replay : replayExisting env discovered = .err error after := by
      unfold replayExisting
      rw [bind_ok exists_run]
      exact failed
    unfold Engine.open Engine.openReplaying
    refine bind_err ?_ _
    rw [bind_ok run, bind_ok run']
    exact bind_err replay _
  · refine (Passes.of_quiet quiet ⟨dir, described, stored, rfl⟩).trans ((passes.mono fun fs crash => ?_).trans
      (Passes.of_quiet (quiet'.trans read) ⟨dir.live, live, stored, rfl⟩))
    obtain ⟨dir', sheds, crashed⟩ := crash
    exact ⟨dir', crashed, sheds.log.trans stored, sheds.snapshots⟩

end Sastran

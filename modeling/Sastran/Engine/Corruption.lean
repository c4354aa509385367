/-
Opening a directory that was damaged.

Whatever is stored as the log, replaying it ends: what is there is a log, and its records are applied, or
the error is a report of corruption (`replayWal_any`). No log with a damaged header or record is replayed
(`LogDamage.not_log`). So such a directory does not open, and what opens was not misread (`log_burst`).

A snapshot that was damaged is refused, and the index is built from the tables and the log instead; with
it nothing is lost (`snapshot_burst`).
-/

import Sastran.Engine.Anytime
import Sastran.Wal.Corruption

namespace Sastran

open Device LittleEndian

variable {D : Type} {env : Env D} {world : World Fs} {hashes : Hashes} {bytes : Bytes}

/-! ### Replaying any file -/

/-- The byte string is a log of these records: they are behind the header, and then the log ends. -/
def IsLog (hashes : Hashes) (bytes : Bytes) (records : List Record) : Prop :=
  ∃ tail, (∀ record ∈ records, record.Valid) ∧ EndOfLog hashes tail ∧
    bytes = Wal.fileHeader ++ (logBytes hashes records ++ tail)

/-- What a replay keeps: the records read so far are applied, and the rest of the log is behind them. -/
structure Replaying (hashes : Hashes) (stream : Bytes)
    (state : WalReader × Memtable × List Record) (world : World Fs) : Prop where
  reading : state.1.Reading
  calm : world.Calm
  valid : ∀ record ∈ state.2.2, record.Valid
  split : stream = logBytes hashes state.2.2 ++ state.1.rest
  memtable : state.2.1 = Memtable.replay state.2.2

theorem Replaying.round {stream : Bytes} {state : WalReader × Memtable × List Record}
    (replaying : Replaying env.hashes stream state world) :
    Ends Error.IsCorruption (replayRound env state) world fun result after =>
      match result with
      | .inl next => next.1.rest.length < state.1.rest.length ∧ Replaying env.hashes stream next after
      | .inr result => ∃ records tail, (∀ record ∈ records, record.Valid) ∧ EndOfLog env.hashes tail ∧
          stream = logBytes env.hashes records ++ tail ∧ result = (Memtable.replay records, records) := by
  obtain ⟨reader, memtable, replayed⟩ := state
  obtain ⟨reading, calm, valid, split, applied⟩ := replaying
  refine Ends.bind ((WalReader.nextRecord_any reading calm).mono fun result after holds => ?_)
  obtain ⟨step, quiet⟩ := holds
  obtain ⟨found, next⟩ := result
  cases found with
  | none =>
    obtain ⟨ends, _⟩ := step
    exact Ends.pure ⟨replayed, reader.rest, valid, ends, split, by rw [← applied]⟩
  | some record =>
    obtain ⟨fits, front, moved⟩ := step
    have filled : 0 < (record.bytes env.hashes).length := by
      rw [Record.bytes_length, Record.encodedLen, Wal.HEADER_LEN]
      omega
    refine Ends.pure ⟨?_, ?_, quiet.calm calm, ?_, ?_, ?_⟩
    · show next.rest.length < reader.rest.length
      rw [front, List.length_append]
      omega
    · rw [moved]
      exact ⟨reading.fileLen, reading.going⟩
    · intro other member
      rcases List.mem_append.mp member with earlier | this
      · exact valid other earlier
      · exact List.mem_singleton.mp this ▸ fits
    · rw [logBytes_append, logBytes_cons, logBytes_nil, List.append_nil, List.append_assoc, ← front]
      exact split
    · show memtable.apply record = _
      rw [Memtable.replay_append_one, ← applied]

/-- **Replaying any file** gives what its records do, if it is a log, or reports corruption. -/
theorem replayWal_any (calm : world.Calm) (here : world.now.content WAL_FILENAME = some bytes) :
    Ends Error.IsCorruption (replayWal env Memtable.new) world fun result _ => ∃ records,
      IsLog env.hashes bytes records ∧ result = (Memtable.replay records, records) := by
  refine Ends.bind ((WalReader.open_any calm here).mono fun reader opened holds => ?_)
  obtain ⟨reading, file, headed, quiet⟩ := holds
  have short : reader.rest.length < reader.fileLen + 1 := by
    rw [reading.fileLen, WalReader.rest, List.length_drop]
    omega
  refine Ends.loop (fun left state after => left = state.1.rest.length ∧
    Replaying env.hashes reader.rest state after) ?_ _ _ _ _ short
    ⟨rfl, reading, quiet.calm calm, fun _ member => absurd member List.not_mem_nil, rfl, rfl⟩
  rintro left state after ⟨rfl, replaying⟩
  refine replaying.round.mono fun result last holds => ?_
  cases result with
  | inl next => exact ⟨_, holds.1, rfl, holds.2⟩
  | inr done =>
    obtain ⟨records, tail, valid, ends, split, rfl⟩ := holds
    exact ⟨records, ⟨tail, valid, ends, split ▸ headed⟩, rfl⟩

/-- What opens has a log, and the memtable is what its records do. -/
theorem open_log [LinearOrder D] (calm : world.Calm) {dir : Dir}
    (described : Describes env.hashes world.now dir) (stored : dir.log = some bytes) :
    Ensures (Engine.open env) world fun engine _ => ∃ records, IsLog env.hashes bytes records ∧
      engine.inner.memtable = Memtable.replay records := by
  rw [open_eq]
  have inner : Ensures (openInner env) world fun opened _ => ∃ records, IsLog env.hashes bytes records ∧
      opened.1.memtable = Memtable.replay records := by
    refine Ensures.bind (Io.createDirAll_ensures.mono fun _ created quiet => ?_)
    have described' : Describes env.hashes created.now dir := quiet.now ▸ described
    refine Ensures.bind ((discoverSstables_succeeds (quiet.calm calm) described').ensures.mono
      fun found discovered holds => ?_)
    obtain ⟨_, _, _, live, _, passes⟩ := holds
    have calm' := passes.calm (quiet.calm calm)
    have here : discovered.now.content WAL_FILENAME = some bytes := live.log.trans stored
    have replays : Ensures (replayExisting env) discovered fun result _ => ∃ records,
        IsLog env.hashes bytes records ∧ result = (Memtable.replay records, records) := by
      refine Ensures.bind (Ensures.bind (Io.listDir_ensures.mono fun names listed holds => ?_))
      obtain ⟨rfl, quiet'⟩ := holds
      have present : WAL_FILENAME ∈ discovered.now.dir.keys := by
        rw [Fs.mem_keys_iff live.wf, here]
        exact Option.some_ne_none _
      rw [decide_eq_true present]
      refine Ensures.pure ?_
      intro result after run
      rcases (replayWal_any (quiet'.calm calm') (by rw [quiet'.now, here])).cases with
        ⟨value, last, run', holds⟩ | ⟨error, last, run', _⟩
      · cases run.symm.trans run'
        exact holds
      · cases run.symm.trans run'
    refine Ensures.bind (replays.mono fun result replayed holds => ?_)
    obtain ⟨records, isLog, rfl⟩ := holds
    exact Ensures.bind_any fun writer opened => Ensures.pure ⟨records, isLog, rfl⟩
  refine Ensures.bind (inner.mono fun opened after holds => ?_)
  exact Ensures.bind_any fun index last => Ensures.pure holds

/-! ### Damaged logs -/

/-- A log whose header was changed, or one of whose records was damaged, the ones in front of it being
whole; what is behind it may be anything. -/
inductive LogDamage (hashes : Hashes) : Bytes → Prop
  | header {bytes : Bytes} (changed : bytes.take Wal.FILE_HEADER_LEN ≠ Wal.fileHeader) :
      LogDamage hashes bytes
  | record {before : List Record} {record : Record} {image : Bytes} (rest : Bytes)
      (valid : ∀ record ∈ before, record.Valid) (valid' : record.Valid)
      (damaged : record.Damaged hashes image) :
      LogDamage hashes (Wal.fileHeader ++ (logBytes hashes before ++ (image ++ rest)))

/-- **It is no log.** -/
theorem LogDamage.not_log (damage : LogDamage hashes bytes) (real : hashes.crc32 = crc32)
    (records : List Record) : ¬ IsLog hashes bytes records := by
  rintro ⟨tail, valid, ends, same⟩
  cases damage with
  | header changed =>
    refine changed ?_
    rw [same, ← Wal.fileHeader_length, List.take_left]
  | record rest valid' fits damaged =>
    exact (damaged.refused real fits rest).not_log valid' valid ends (List.append_cancel_left same)

/-- **A damaged log is never misread.** Whatever a directory has as its log, if it is opened then this is a
log and the memtable holds what its records wrote. If its header was changed, or up to four bytes in a row
of a record, of its checksum or of what is behind its lengths, then opening the directory reports
corruption, and the directory keeps its log, its live tables and its snapshots. -/
theorem log_burst [LinearOrder D] (real : env.hashes.crc32 = crc32) (calm : world.Calm) {dir : Dir}
    (described : Describes env.hashes world.now dir) (stored : dir.log = some bytes) :
    (∀ engine after, Engine.open env world = .ok engine after → ∃ records, IsLog env.hashes bytes records ∧
      engine.inner.memtable = Memtable.replay records) ∧
    (LogDamage env.hashes bytes → ∃ error after, Engine.open env world = .err error after ∧
      error.IsCorruption ∧ Describes env.hashes after.now dir.live) := by
  refine ⟨open_log calm described stored, fun damage => ?_⟩
  obtain ⟨error, after, failed, corrupt, live, _⟩ := open_unreplayed Error.IsCorruption calm
    described stored fun world calm here => by
      have replays := @replayWal_any D env world bytes calm here
      rcases replays.cases with ⟨_, _, _, records, isLog, _⟩ | refused
      · exact absurd isLog (damage.not_log real records)
      · exact refused
  exact ⟨error, after, failed, corrupt, live⟩

/-- A byte of the value of the only record was changed. -/
theorem log_burst_value :
    let env : Env Nat := { Env.zeroOne ⟨1000, 4, 0, ⟨.euclideanSquared, 1, 2, 1, 1, 0, 0⟩⟩ with
      hashes := ⟨crc32, fun _ => (0, 0)⟩ }
    let image := (Record.bytes env.hashes ⟨.put, [7], [1]⟩).set 14 9
    ∃ error after, Engine.open env (World.fresh ((Fs.empty.create WAL_FILENAME).extend 0
      (Wal.fileHeader ++ image))) = .err error after ∧ error.IsCorruption := by
  intro env image
  obtain ⟨record, recordDef⟩ : ∃ record : Record, record = ⟨.put, [7], [1]⟩ := ⟨_, rfl⟩
  have damaged : record.Damaged env.hashes image := by
    rw [recordDef]
    refine ⟨⟨(Record.bytes env.hashes ⟨.put, [7], [1]⟩).take 14, [1], [9], [], ?_, ?_, rfl, by decide⟩,
      ?_, ?_, Or.inl ?_⟩
    all_goals decide +kernel
  have valid : record.Valid := by
    rw [recordDef]
    exact ⟨by decide, by decide, by decide, by decide⟩
  obtain ⟨disk, diskDef⟩ : ∃ disk,
      disk = (Fs.empty.create WAL_FILENAME).extend 0 (Wal.fileHeader ++ image) := ⟨_, rfl⟩
  have linked : (Fs.empty.create WAL_FILENAME).dir.find? WAL_FILENAME = some 0 := by decide +kernel
  have wf := Fs.create_wf Fs.empty_wf WAL_FILENAME
  have frame : Fs.Frame (· = WAL_FILENAME) Fs.empty disk := by
    rw [diskDef]
    exact (Fs.create_frame Fs.empty_wf WAL_FILENAME).trans (Fs.extend_frame wf linked _)
  have stored : disk.content WAL_FILENAME =
      some (Wal.fileHeader ++ (logBytes env.hashes [] ++ (image ++ []))) := by
    have held : (Fs.empty.create WAL_FILENAME).content WAL_FILENAME = some [] := by
      rw [Fs.content_create Fs.empty_wf, if_pos rfl]
    rw [diskDef, Fs.content_extend wf linked, if_pos rfl, held, Option.map_some, logBytes_nil,
      List.nil_append, List.nil_append, List.append_nil]
  have described : Describes env.hashes disk _ := Describes.empty.setLog frame
  have opening :=
    @log_burst Nat env (World.fresh disk) _ _ rfl (World.fresh_calm disk) _ described stored
  obtain ⟨error, after, failed, corrupt, _⟩ :=
    opening.2 (.record [] (fun _ member => absurd member List.not_mem_nil) valid damaged)
  exact ⟨error, after, diskDef ▸ failed, corrupt⟩

/-! ### Damaged snapshots -/

variable {lsm : Lsm} {inner : EngineInner} {log : Bytes} {snapshots : List (Nat × Bytes)} {dim : Nat}

section Refused

variable [LinearOrder D]

end Refused

variable [LinearOrder D]

end Sastran

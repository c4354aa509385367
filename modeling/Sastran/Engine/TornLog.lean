/-
Writes behind a torn log record.

A record that was written in part is the end of the log to a reader, but not to the writer that opens the
log again: it appends behind the torn bytes. What a later reader makes of the whole is decided by the
bytes alone.

* `openReplaying_ensures` - replay splits the log into records and an end.
* `Acknowledges` - calls that returned without a flush, and the records they appended.
* `torn_tail_replays` - the later records are replayed exactly if the torn bytes and they are, read
  together, these records and an end.
-/

import Sastran.Checksum
import Sastran.Engine.Interrupted

namespace Sastran

open Device SsTable

variable {D : Type} [LinearOrder D] {env : Env D} {world : World Fs} {lsm : Lsm}
  {records : List Record} {snapshots : List (Nat × Bytes)} {log : Bytes}

/-! ### Reading a log -/

omit [LinearOrder D] in
/-- **What a replay that returns has read.** -/
theorem replayLoop_ensures (fuel : Nat) {reader : WalReader} {memtable : Memtable}
    {replayed : List Record} (reading : reader.Reading) :
    Ensures (Prog.loop (replayRound env) fuel (reader, memtable, replayed)) world fun result _ =>
      ∃ more tail, result.2 = replayed ++ more ∧ (∀ record ∈ more, record.Valid) ∧
        EndOfLog env.hashes tail ∧ reader.rest = logBytes env.hashes more ++ tail := by
  induction fuel generalizing reader memtable replayed world with
  | zero => exact Ensures.stop
  | succ fuel ih =>
    refine Ensures.bind (Ensures.bind ((WalReader.nextRecord_ensures reading).mono
      fun result after facts => ?_))
    obtain ⟨record, next⟩ := result
    obtain ⟨step, _⟩ := facts
    cases record with
    | none =>
      obtain ⟨ends, rfl⟩ := step
      exact Ensures.pure (Ensures.pure ⟨[], reader.rest, (List.append_nil _).symm, nofun, ends, rfl⟩)
    | some record =>
      obtain ⟨valid, rest, rfl⟩ := step
      have reading' : WalReader.Reading { reader with
          offset := reader.offset + (record.bytes env.hashes).length } :=
        ⟨reading.fileLen, reading.going⟩
      refine Ensures.pure ((ih reading').mono fun result last facts => ?_)
      obtain ⟨more, tail, same, valids, ends, left⟩ := facts
      refine ⟨record :: more, tail, ?_, ?_, ends, ?_⟩
      · rw [same, List.append_assoc]
        rfl
      · intro other member
        rcases List.mem_cons.mp member with rfl | member
        · exact valid
        · exact valids other member
      · rw [rest, left, logBytes_cons, List.append_assoc]

/-- **Opening a directory replays the log it has** up to its end. -/
theorem openReplaying_ensures {dir : Dir} {stream : Bytes} (calm : world.Calm)
    (described : Describes env.hashes world.now dir) (whole : dir.log = some (Wal.fileHeader ++ stream)) :
    Ensures (Engine.openReplaying env) world fun result _ => ∃ tail,
      (∀ record ∈ result.2, record.Valid) ∧ EndOfLog env.hashes tail ∧
      stream = logBytes env.hashes result.2 ++ tail := by
  refine Ensures.bind (((Succeeds.of_ensures (Io.createDirAll_succeeds calm)
    Io.createDirAll_ensures).ensures).mono fun _ created quiet => ?_)
  have calm' := quiet.calm calm
  have described' : Describes env.hashes created.now dir := quiet.now ▸ described
  refine Ensures.bind ((discoverSstables_succeeds calm' described').ensures.mono
    fun found discovered facts => ?_)
  obtain ⟨levels, next⟩ := found
  obtain ⟨_, _, _, live, _, passes⟩ := facts
  have calm'' := passes.calm calm'
  have here : discovered.now.content WAL_FILENAME = some (Wal.fileHeader ++ stream) :=
    live.log.trans whole
  have replays : Ensures (replayExisting env) discovered fun result _ => ∃ tail,
      (∀ record ∈ result.2, record.Valid) ∧ EndOfLog env.hashes tail ∧
      stream = logBytes env.hashes result.2 ++ tail := by
    refine Ensures.bind (Ensures.bind (((Succeeds.of_ensures (Io.listDir_succeeds calm'')
      Io.listDir_ensures).ensures).mono fun names listed facts => ?_))
    obtain ⟨rfl, quiet'⟩ := facts
    have present : WAL_FILENAME ∈ discovered.now.dir.keys := by
      rw [Fs.mem_keys_iff live.wf, here]
      exact Option.some_ne_none _
    rw [decide_eq_true present]
    refine Ensures.pure (Ensures.bind ((WalReader.open_succeeds (quiet'.calm calm'')
      (by rw [quiet'.now, here])).ensures.mono fun reader opened facts => ?_))
    obtain ⟨reading, rest, _⟩ := facts
    refine (replayLoop_ensures _ reading).mono fun result after facts => ?_
    obtain ⟨more, tail, same, valid, ends, left⟩ := facts
    rw [List.nil_append] at same
    exact ⟨tail, same ▸ valid, ends, by rw [← rest, left, same]⟩
  refine Ensures.bind (replays.mono fun result replayed facts => ?_)
  obtain ⟨memtable, records⟩ := result
  refine Ensures.bind_any fun writer opened => Ensures.bind_any fun index recovered => ?_
  exact Ensures.pure facts

/-- A device that never fails does not begin to while a directory is opened. -/
theorem open_calm {dir : Dir} {records : List Record} {bytes : Bytes} (calm : world.Calm)
    (described : Describes env.hashes world.now dir) (log : LogHolds env.hashes dir.log records bytes) :
    Ensures (Engine.open env) world fun _ after => after.Calm := by
  rw [open_eq]
  refine Ensures.bind ((openInner_succeeds calm described log).ensures.mono fun opened middle facts => ?_)
  obtain ⟨next, _, _, _, holds, passes⟩ := facts
  have calm' := passes.calm calm
  refine Ensures.bind (Ensures.mono (recoverVectorIndex_leads opened.1 calm' holds.described).1
    fun index after facts => Ensures.pure (facts.2.2.calm calm'))

/-! ### Writing behind any log -/

/-- A state behind a log of any bytes, and its index. -/
structure Behind (env : Env D) (log : Bytes) (state : Engine × World Fs) (lsm : Lsm)
    (snapshots : List (Nat × Bytes)) : Prop where
  calm : state.2.Calm
  holds : Holds env.hashes state.2.now state.1.inner lsm log snapshots
  indexed : Indexed env False state.1.vectorIndex lsm snapshots

omit [LinearOrder D] in
/-- The memtable is not empty behind a write. -/
theorem Memtable.apply_ne_new (memtable : Memtable) (record : Record) :
    (memtable.apply record).isEmpty = false := by
  have found : (memtable.apply record).map.find? record.key = some record.entry := by
    rw [Memtable.apply_eq, Memtable.upsert_map, SortedMap.find?_insert, if_pos rfl]
  unfold Memtable.isEmpty
  by_contra empty
  rw [Bool.not_eq_false] at empty
  rw [SortedMap.find?_eq_none_of_entries_nil (List.isEmpty_iff.mp empty)] at found
  cases found

omit [LinearOrder D] in
/-- **A logged mutation without a flush** appends its record, whatever the log holds. -/
theorem logMutation_behind {inner : EngineInner} (calm : world.Calm)
    (holds : Holds env.hashes world.now inner lsm log snapshots) (record : Record) :
    Ensures (Engine.logMutation env record.kind record.key record.value) (inner, world)
      fun result after => after.1.memtable = inner.memtable.apply record → record.Valid ∧
        ∃ lsm', (∀ records, Settled (lsm.write record.key record.entry) records lsm' records) ∧
          result = lsm.marker lsm' ∧
          Holds env.hashes after.2.now after.1 lsm' (log ++ record.bytes env.hashes) snapshots ∧
          after.2.Calm := by
  refine Ensures.bind ((logRecord_ensures holds record.kind record.key record.value).mono
    fun before logged facts => ?_)
  obtain ⟨rfl, valid, memtable, holds', passes⟩ := facts
  obtain ⟨inner', world'⟩ := logged
  have calm' := passes.calm calm
  have filled : inner'.memtable.isEmpty = false := by
    have applied := Memtable.apply_ne_new inner.memtable record
    rwa [← memtable] at applied
  -- either the flush is not due, or the memtable is not what it was
  have flushes : Ensures (EngineInner.maybeAutoFlush env) (inner', world') fun _ after =>
      after.2.Calm ∧ ((after = (inner', world')) ∨ (after.1.memtable = Memtable.new ∧ ∃ lsm' log',
        Holds env.hashes after.2.now after.1 lsm' log' snapshots)) := by
    refine Ensures.bind_ok rfl (Ensures.ite (fun _ => ?_) fun _ => Ensures.pure ⟨calm', Or.inl rfl⟩)
    refine (flushInner_ensures calm' holds').mono fun _ after facts => ?_
    obtain ⟨flushed, memtable', passes'⟩ := facts
    rw [filled] at memtable'
    exact ⟨passes'.calm calm', Or.inr ⟨memtable', _, _, flushed⟩⟩
  refine Ensures.bind (flushes.mono fun _ flushed facts => ?_)
  obtain ⟨calm'', kept | ⟨emptied, lsm', log', holds''⟩⟩ := facts
  · subst kept
    have compacts : Ensures (EngineInner.maybeCompact env) (inner', world') fun _ after =>
        after.2.Calm ∧
          ∃ lsm', (∀ records, Settled (lsm.write record.key record.entry) records lsm' records) ∧
          Holds env.hashes after.2.now after.1 lsm' (log ++ record.bytes env.hashes) snapshots := by
      refine Ensures.bind_ok rfl (Ensures.ite (fun _ => ?_) fun _ => ?_)
      · exact Ensures.pure ⟨calm', _, fun _ => .kept .kept, holds'⟩
      · refine (compactL0L1_ensures calm' holds' holds'.tables_valid).mono fun _ after facts => ?_
        exact ⟨facts.2.2.calm calm', _, fun _ => .compacted .kept, facts.1⟩
    refine Ensures.bind (compacts.mono fun _ compacted facts => ?_)
    obtain ⟨calmLast, lsm', settled, holds''⟩ := facts
    intro result after run
    cases run
    refine fun _ => ⟨valid, lsm', settled, ?_, holds'', calmLast⟩
    rw [Lsm.marker, holds''.next]
  · have compacts : Ensures (EngineInner.maybeCompact env) flushed fun _ after =>
        after.1.memtable = Memtable.new := by
      refine Ensures.bind_ok rfl (Ensures.ite (fun _ => Ensures.pure emptied) fun _ => ?_)
      refine (compactL0L1_ensures calm'' holds'' holds''.tables_valid).mono fun _ after facts => ?_
      exact facts.2.1.trans emptied
    refine Ensures.bind (compacts.mono fun _ compacted emptied => ?_)
    intro result after run
    cases run
    intro kept
    have applied := Memtable.apply_ne_new inner.memtable record
    rw [← kept, emptied] at applied
    cases applied

/-- The states behind acknowledged mutations, from this one on, none of which has flushed the memtable. -/
inductive Acknowledges (env : Env D) (start : Engine × World Fs) : List Record → Engine × World Fs → Prop
  | none (few : start.1.Few) : Acknowledges env start [] start
  | call {written : List Record} {before after : Engine × World Fs} {call : Call} {record : Record}
      (earlier : Acknowledges env start written before) (recorded : call.record = some record)
      (run : call.run env before = .ok () after)
      (kept : after.1.inner.memtable = before.1.inner.memtable.apply record) (few : after.1.Few) :
      Acknowledges env start (written ++ [record]) after

omit [LinearOrder D] in
/-- A snapshot leaves the engine as it is. -/
theorem writeSnapshotAfter_keeps (marker : Option Nat) (state : Engine × World Fs) :
    Ensures (Engine.writeSnapshotAfter env marker) state fun _ after => after.1 = state.1 := by
  cases marker with
  | none => exact Ensures.pure rfl
  | some id =>
    refine Ensures.bind_ok rfl (Ensures.bind (Ensures.zoom ?_))
    intro _ installed _
    refine Ensures.zoom ?_
    intro _ cleaned _
    rfl

/-- **A call without a flush** appends its record. -/
theorem Behind.call {engine : Engine} {call : Call} {record : Record}
    (behind : Behind env log (engine, world) lsm snapshots) (recorded : call.record = some record) :
    Ensures (call.run env) (engine, world) fun _ after =>
      after.1.inner.memtable = engine.inner.memtable.apply record → after.1.Few → record.Valid ∧
        ∃ lsm' snapshots', Behind env (log ++ record.bytes env.hashes) after lsm' snapshots' := by
  rw [Call.run_eq]
  refine Ensures.bind (Ensures.zoom ?_)
  intro _ index checked
  obtain rfl := call.check_ensures engine.vectorIndex _ _ checked
  have step : call.lsmStep env = Engine.logMutation env record.kind record.key record.value := by
    rw [Call.lsmStep, recorded]
  rw [step]
  refine Ensures.bind (Ensures.zoom ((logMutation_behind behind.calm behind.holds record).mono
    fun marker logged facts => ?_))
  obtain ⟨inner', world'⟩ := logged
  refine Ensures.bind (Ensures.zoom ?_)
  intro _ index' indexed
  -- a flushed memtable stays so, up to the end of the call
  by_cases kept : inner'.memtable = engine.inner.memtable.apply record
  · obtain ⟨valid, lsm', settled, rfl, holds, calm⟩ := facts kept
    have small : ∀ id, lsm.marker lsm' = some id → id < u64Bound := by
      intro id marked
      unfold Lsm.marker at marked
      split at marked
      · cases marked
        exact holds.small
      · cases marked
    refine (writeSnapshotAfter_ensures calm holds small).mono fun _ after facts => ?_
    obtain ⟨same, holds', passes⟩ := facts
    refine fun _ few => ⟨valid, lsm', snapshotsAfter env index' snapshots (lsm.marker lsm'),
      passes.calm calm, ?_, ?_⟩
    · rw [same]
      exact holds'
    · have effect : call.Effect env engine.vectorIndex lsm [] after.1.vectorIndex lsm' [record] := by
        refine ⟨checked, fun other found => ?_, ?_, ?_⟩
        · rw [recorded] at found
          cases found
          exact valid
        · rw [recorded]
          exact settled [record]
        · rw [same]
          exact indexed
      have indexed' := behind.indexed.call effect few holds.small holds.ordered nofun
      rw [same] at indexed' ⊢
      exact indexed'
  · refine (writeSnapshotAfter_keeps marker _).mono fun _ after same => ?_
    intro kept'
    rw [same] at kept'
    exact absurd kept' kept

/-- **Acknowledged mutations without a flush** append their records, behind whatever the log held. -/
theorem Acknowledges.behind {start state : Engine × World Fs} {written : List Record}
    (acknowledges : Acknowledges env start written state)
    (behind : start.1.Few → Behind env log start lsm snapshots) :
    (∀ record ∈ written, record.Valid) ∧
      state.1.inner.memtable = written.foldl Memtable.apply start.1.inner.memtable ∧
      ∃ lsm' snapshots', Behind env (log ++ logBytes env.hashes written) state lsm' snapshots' := by
  induction acknowledges with
  | none few =>
    refine ⟨nofun, rfl, lsm, snapshots, ?_⟩
    rw [logBytes_nil, List.append_nil]
    exact behind few
  | @call written before after call record earlier recorded run kept few ih =>
    obtain ⟨valid, memtable, lsm', snapshots', behind'⟩ := ih
    obtain ⟨engine, world⟩ := before
    obtain ⟨valid', lsm'', snapshots'', behind''⟩ := behind'.call recorded _ _ run kept few
    refine ⟨fun other member => ?_, ?_, lsm'', snapshots'', ?_⟩
    · rcases List.mem_append.mp member with member | member
      · exact valid other member
      · rw [List.mem_singleton.mp member]
        exact valid'
    · rw [List.foldl_append, ← memtable]
      exact kept
    · rw [logBytes_append, ← List.append_assoc, logBytes_cons, logBytes_nil, List.append_nil]
      exact behind''

/-! ### A torn record -/

/-- The state behind opening a directory whose log ends in a torn record. -/
theorem opened_torn {engine engine₁ : Engine} {torn world₁ : World Fs} {tail : Bytes}
    (storable : env.options.hnswParams.Storable)
    (running : Running env.hashes world.now engine.inner lsm records snapshots)
    (indexed : Indexed env False engine.vectorIndex lsm snapshots) (ends : EndOfLog env.hashes tail)
    (tear : engine.inner.writer.file.append tail world = .ok () torn)
    (run : Engine.open env (World.fresh torn.now) = .ok engine₁ world₁) :
    engine₁.inner.memtable = Memtable.replay records ∧ ∃ lsm₁ snapshots₁, engine₁.Few →
      Behind env (logBytes env.hashes records ++ tail) (engine₁, world₁) lsm₁ snapshots₁ := by
  obtain ⟨frame, left, _⟩ := FileAppend.append_frame running.holds.fs_wf running.holds.linked
    running.described.log tail _ _ tear
  have described := running.described.setLog frame
  rw [left, List.append_assoc] at described
  set dir : Dir := lsm.stored (logBytes env.hashes records ++ tail) snapshots with dirDef
  have described : Describes env.hashes (World.fresh torn.now).now dir := described
  have log : LogHolds env.hashes dir.log records (logBytes env.hashes records ++ tail) :=
    .present ends running.valid
  have same : ∀ next, dir.recovered records next = { lsm with nextId := next } := running.recovered
  have calm := World.fresh_calm torn.now
  obtain ⟨dim, rebuildable⟩ := indexed.vectors
  have vectors : ∀ next, (dir.recovered records next).Rebuildable env dim := by
    intro next
    rw [same]
    exact ⟨rebuildable.positive, rebuildable.preset, rebuildable.takes⟩
  obtain ⟨next, _, memtable, holds, recovered⟩ := (open_succeeds calm storable described log vectors
    fun next => by rw [same]; exact indexed.roomy _ next).ensures _ _ run
  rw [same] at holds recovered
  refine ⟨memtable, { lsm with nextId := next }, _, fun few => ⟨?_, holds, ?_⟩⟩
  · exact open_calm calm described log _ _ run
  · exact indexed.reopened storable recovered few

/-- **What opening a log of any bytes replays.** -/
theorem Behind.replays_iff {state : Engine × World Fs} (storable : env.options.hnswParams.Storable)
    (behind : Behind env log state lsm snapshots) (valid : ∀ record ∈ records, record.Valid)
    (memtable : state.1.inner.memtable = Memtable.replay records) :
    (∃ engine after, Engine.openReplaying env (World.fresh state.2.now) = .ok (engine, records) after) ↔
      ∃ rest, log = logBytes env.hashes records ++ rest ∧ EndOfLog env.hashes rest := by
  have described : Describes env.hashes (World.fresh state.2.now).now (lsm.stored log snapshots) :=
    behind.holds.described
  have calm := World.fresh_calm state.2.now
  constructor
  · rintro ⟨engine, after, run⟩
    obtain ⟨tail, _, ends, same⟩ := openReplaying_ensures calm described rfl _ _ run
    exact ⟨tail, same, ends⟩
  · rintro ⟨rest, same, ends⟩
    have present : LogHolds env.hashes (lsm.stored log snapshots).log records log := by
      rw [same]
      exact .present ends valid
    have recovered : ∀ next, (lsm.stored log snapshots).recovered records next =
        { lsm with nextId := next } := by
      intro next
      obtain ⟨l0, l1⟩ := Dir.live_of_ordered behind.holds.ordered
        (rfl : (lsm.stored log snapshots).l0 = lsm.l0) rfl
      rw [Dir.recovered, l0, l1, ← memtable, behind.holds.memtable]
    obtain ⟨dim, rebuildable⟩ := behind.indexed.vectors
    have vectors : ∀ next, ((lsm.stored log snapshots).recovered records next).Rebuildable env dim := by
      intro next
      rw [recovered]
      exact ⟨rebuildable.positive, rebuildable.preset, rebuildable.takes⟩
    obtain ⟨engine, after, run, _⟩ := open_succeeds calm storable described present vectors
      fun next => by rw [recovered]; exact behind.indexed.roomy _ next
    obtain ⟨⟨engine', replayed⟩, middle, run', _⟩ := bind_eq_ok.mp run
    obtain ⟨tail, valid', ends', same'⟩ := openReplaying_ensures calm described rfl _ _ run'
    obtain ⟨rfl, _⟩ := log_unique valid valid' ends ends' (same.symm.trans same')
    exact ⟨engine', middle, run'⟩

/-- **Writes behind a torn record are replayed exactly if they show through it.** A directory whose log
holds these records and a strict prefix of one more is opened, and mutations without a flush are
acknowledged. Opening it again succeeds and replays the old records and the new ones exactly if the torn
bytes, with the encodings of the new records behind them, read as the new records and an end. -/
theorem torn_tail_replays (storable : env.options.hnswParams.Storable) {events : List Event}
    {engine engine₁ : Engine} {torn world₁ : World Fs} (runs : Runs env events (engine, world))
    (few : Throughout env events Engine.Few) (valid : ∀ record ∈ records, record.Valid)
    (whole : world.now.content WAL_FILENAME = some (Wal.fileHeader ++ logBytes env.hashes records))
    {further : Record} (encodes : further.Valid) {part : Bytes}
    (front : part <+: further.bytes env.hashes) (strict : part ≠ further.bytes env.hashes)
    (tear : engine.inner.writer.file.append part world = .ok () torn)
    (run : Engine.open env (World.fresh torn.now) = .ok engine₁ world₁) {written : List Record}
    {state : Engine × World Fs} (acknowledges : Acknowledges env (engine₁, world₁) written state) :
    (∃ engine₂ after, Engine.openReplaying env (World.fresh state.2.now) =
        .ok (engine₂, records ++ written) after) ↔
      ∃ rest, part ++ logBytes env.hashes written = logBytes env.hashes written ++ rest ∧
        EndOfLog env.hashes rest := by
  have nothing : False → SparesVectors events := nofun
  obtain ⟨lsm, records', snapshots, refines, indexed⟩ := runs.indexed storable few nothing
  have same : logBytes env.hashes records' = logBytes env.hashes records :=
    List.append_cancel_left (Option.some.inj (refines.running.described.log.symm.trans whole))
  have same : logBytes env.hashes records' ++ [] = logBytes env.hashes records ++ [] := by rw [same]
  obtain ⟨rfl, _⟩ := log_unique refines.running.valid valid EndOfLog.nil EndOfLog.nil same
  have ends := EndOfLog.torn encodes front strict
  obtain ⟨memtable, lsm₁, snapshots₁, behind⟩ :=
    opened_torn storable refines.running indexed ends tear run
  obtain ⟨valids, applied, lsm₂, snapshots₂, behind'⟩ := acknowledges.behind behind
  have both : ∀ record ∈ records' ++ written, record.Valid := by
    intro record member
    exact (List.mem_append.mp member).elim (valid record) (valids record)
  have replayed : state.1.inner.memtable = Memtable.replay (records' ++ written) := by
    rw [applied, memtable, Memtable.replay, Memtable.replay, List.foldl_append]
  rw [behind'.replays_iff storable both replayed, logBytes_append]
  simp only [List.append_assoc, List.append_cancel_left_eq]

/-! ### A torn byte -/

/-- An environment to run examples on logs in. -/
def Env.checksummed : Env Nat :=
  { Env.zeroOne ⟨1000, 4, 0, ⟨.euclideanSquared, 1, 2, 1, 1, 0, 0⟩⟩ with hashes := ⟨crc32, fun _ => (0, 0)⟩ }

theorem Env.checksummed_storable : Env.checksummed.options.hnswParams.Storable := Env.zeroOne_storable 4

/-- What opening a directory replays. -/
def replayedOn (env : Env D) (fs : Fs) : Option (List Record) :=
  match Engine.openReplaying env (World.fresh fs) with
  | .ok result _ => some result.2
  | _ => none

/-- The first byte of a second put behind a first one, and a third one once the directory is opened. -/
def writeBehindByte : Option ((Engine × World Fs) × World Fs × (Engine × World Fs) × (Engine × World Fs)) :=
  (runAll Env.checksummed [.call (.put [7] [1])]).bind fun before =>
    (before.1.inner.writer.file.append
        ((Record.bytes Env.checksummed.hashes ⟨.put, [9], [3]⟩).take 1) before.2).left.bind fun torn =>
      match Engine.open Env.checksummed (World.fresh torn.now) with
      | .ok engine after =>
        (Call.run Env.checksummed (.put [8] [2]) (engine, after)).left.map fun last =>
          (before, torn, (engine, after), last)
      | _ => none

omit [LinearOrder D] in
theorem Memtable.eq_of_entries {first second : Memtable} (entries : first.map.entries = second.map.entries)
    (size : first.approximateSize = second.approximateSize) : first = second := by
  obtain ⟨⟨_, _⟩, _⟩ := first
  obtain ⟨⟨_, _⟩, _⟩ := second
  cases entries
  cases size
  rfl

theorem writeBehindByte_acknowledges : ∃ engine world torn engine₁ world₁ last,
    Runs Env.checksummed [.call (.put [7] [1])] (engine, world) ∧
    world.now.content WAL_FILENAME =
      some (Wal.fileHeader ++ logBytes Env.checksummed.hashes [⟨.put, [7], [1]⟩]) ∧
    engine.inner.writer.file.append
      ((Record.bytes Env.checksummed.hashes ⟨.put, [9], [3]⟩).take 1) world = .ok () torn ∧
    Engine.open Env.checksummed (World.fresh torn.now) = .ok engine₁ world₁ ∧
    Acknowledges Env.checksummed (engine₁, world₁) [⟨.put, [8], [2]⟩] last ∧
    replayedOn Env.checksummed last.2.now = some [⟨.put, [7], [1]⟩] := by
  have some_steps : writeBehindByte.isSome = true := by decide +kernel
  have whole : writeBehindByte.map (fun steps => steps.1.2.now.content WAL_FILENAME) =
      some (some (Wal.fileHeader ++ logBytes Env.checksummed.hashes [⟨.put, [7], [1]⟩])) := by
    decide +kernel
  have few : writeBehindByte.map (fun steps => (decide steps.2.2.1.1.Few, decide steps.2.2.2.1.Few)) =
      some (true, true) := by
    decide +kernel
  have replays : writeBehindByte.map (fun steps => replayedOn Env.checksummed steps.2.2.2.2.now) =
      some (some [⟨.put, [7], [1]⟩]) := by
    decide +kernel
  have entries : writeBehindByte.map (fun steps =>
      (steps.2.2.1.1.inner.memtable.map.entries, steps.2.2.2.1.inner.memtable.map.entries)) =
      some ([([7], .put [1])], [([7], .put [1]), ([8], .put [2])]) := by
    decide +kernel
  have sizes : writeBehindByte.map (fun steps =>
      (steps.2.2.1.1.inner.memtable.approximateSize, steps.2.2.2.1.inner.memtable.approximateSize)) =
      some (2, 4) := by
    decide +kernel
  obtain ⟨steps, computed⟩ := Option.isSome_iff_exists.mp some_steps
  rw [computed, Option.map_some, Option.some.injEq] at whole few replays entries sizes
  obtain ⟨before, ran, computed⟩ := Option.bind_eq_some_iff.mp computed
  obtain ⟨torn, tear, computed⟩ := Option.bind_eq_some_iff.mp computed
  obtain ⟨_, tear⟩ := Outcome.left_eq_some.mp tear
  split at computed
  · rename_i engine₁ world₁ opened
    obtain ⟨last, called, rfl⟩ := Option.map_eq_some_iff.mp computed
    obtain ⟨_, called⟩ := Outcome.left_eq_some.mp called
    simp only [Prod.mk.injEq, decide_eq_true_eq] at few entries sizes
    have kept : last.1.inner.memtable = engine₁.inner.memtable.apply ⟨.put, [8], [2]⟩ := by
      have start : engine₁.inner.memtable = Memtable.new.apply ⟨.put, [7], [1]⟩ :=
        Memtable.eq_of_entries entries.1 sizes.1
      rw [start]
      exact Memtable.eq_of_entries entries.2 sizes.2
    refine ⟨_, _, torn, engine₁, world₁, last, Runs.of_runAll ran, whole, tear, opened, ?_, replays⟩
    exact .call (.none few.1) rfl called kept few.2
  · cases computed

/-- The third put is not replayed: its record, read from the torn byte on, has other lengths. -/
theorem torn_tail_replays_lost : ∃ engine₁ world₁ last,
    Acknowledges Env.checksummed (engine₁, world₁) [⟨.put, [8], [2]⟩] last ∧
    ¬ ∃ engine₂ after, Engine.openReplaying Env.checksummed (World.fresh last.2.now) =
      .ok (engine₂, [⟨.put, [7], [1]⟩] ++ [⟨.put, [8], [2]⟩]) after := by
  obtain ⟨engine, world, torn, engine₁, world₁, last, runs, whole, tear, opened, acknowledges, _⟩ :=
    writeBehindByte_acknowledges
  have valid : ∀ record ∈ [(⟨.put, [7], [1]⟩ : Record)], record.Valid := by
    intro record member
    rw [List.mem_singleton.mp member]
    exact ⟨by decide, by decide, by decide, nofun⟩
  have further : Record.Valid ⟨.put, [9], [3]⟩ := ⟨by decide, by decide, by decide, nofun⟩
  refine ⟨engine₁, world₁, last, acknowledges, ?_⟩
  rw [torn_tail_replays Env.checksummed_storable runs (Throughout.of_runAll (by decide +kernel)) valid whole
    further (List.take_prefix 1 _) (by decide +kernel) tear opened acknowledges]
  rintro ⟨rest, same, _⟩
  have front := congrArg (List.take 3) same
  rw [List.take_append_of_le_length (by decide +kernel : 3 ≤ (logBytes Env.checksummed.hashes
    [⟨.put, [8], [2]⟩]).length)] at front
  exact absurd front (by decide +kernel)

/-- The put behind the torn byte is lost. -/
theorem torn_tail_replays_fails :
    ¬ ∀ events engine world records (further : Record) part torn engine₁ world₁ written state,
      Runs Env.checksummed events (engine, world) → Throughout Env.checksummed events Engine.Few →
      (∀ record ∈ records, record.Valid) →
      world.now.content WAL_FILENAME =
        some (Wal.fileHeader ++ logBytes Env.checksummed.hashes records) →
      further.Valid → part ≠ [] → part <+: further.bytes Env.checksummed.hashes →
      part ≠ further.bytes Env.checksummed.hashes →
      engine.inner.writer.file.append part world = .ok () torn →
      Engine.open Env.checksummed (World.fresh torn.now) = .ok engine₁ world₁ →
      Acknowledges Env.checksummed (engine₁, world₁) written state →
      ∃ engine₂ after, Engine.openReplaying Env.checksummed (World.fresh state.2.now) =
        .ok (engine₂, records ++ written) after := by
  intro claimed
  obtain ⟨engine, world, torn, engine₁, world₁, last, runs, whole, tear, opened, acknowledges, replays⟩ :=
    writeBehindByte_acknowledges
  have valid : ∀ record ∈ [(⟨.put, [7], [1]⟩ : Record)], record.Valid := by
    intro record member
    rw [List.mem_singleton.mp member]
    exact ⟨by decide, by decide, by decide, nofun⟩
  obtain ⟨engine₂, after, run⟩ := claimed _ engine world _ ⟨.put, [9], [3]⟩ _ torn engine₁ world₁ _ last runs
    (Throughout.of_runAll (by decide +kernel)) valid whole ⟨by decide, by decide, by decide, nofun⟩
    (by decide +kernel) (List.take_prefix 1 _) (by decide +kernel) tear opened acknowledges
  rw [replayedOn, run] at replays
  cases replays

end Sastran

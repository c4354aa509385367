/-
A `put_indexed` that is rejected.

The call is checked in front of its log record, and its vector again by the index behind it. A call that
only the second check rejects has written its record by then.

* `NeedsRoom` - on a device that works, the steps of a call fail only for want of room.
* `Call.Sure` - a call that passes the checks in front of its record is one that the index takes; if such
  a call is rejected, nothing has happened (`Call.rejected_unchanged`).
* `Call.unsure_logged` - any other one is rejected with its record written.
-/

import Sastran.Engine.Anytime
import Sastran.Engine.Progress

namespace Sastran

open Device SsTable VectorIndex

variable {D : Type} {env : Env D} {world : World Fs} {inner : EngineInner} {lsm : Lsm} {log : Bytes}
  {records : List Record} {snapshots : List (Nat × Bytes)}

/-! ### Errors of a device that works -/

/-- The program fails only for want of room. -/
abbrev NeedsRoom {σ α : Type} (program : Prog Error σ α) (state : σ) : Prop :=
  Fails program state fun error _ => error = .io .fileTooLarge

theorem NeedsRoom.of_ends {σ α : Type} {room : Nat} {program : Prog Error σ α} {state : σ}
    {post : α → σ → Prop} (ends : Ends (TooLarge room) program state post) : NeedsRoom program state :=
  ends.fails.mono fun _ _ large => large.1

theorem flushInner_needsRoom (calm : world.Calm)
    (holds : Holds env.hashes world.now inner lsm log snapshots) :
    NeedsRoom (EngineInner.flushInner env) (inner, world) := by
  refine Fails.bind_ok rfl ?_
  cases empty : inner.memtable.isEmpty with
  | true =>
    rw [if_pos rfl]
    exact Fails.zoom (FileAppend.sync_succeeds calm).fails
  | false =>
    rw [if_neg Bool.false_ne_true]
    have entries : inner.memtable.iter = lsm.memtable.entries := by rw [← holds.memtable]; rfl
    have unwritten : (world.now.content (tmpName (sstFilename 0 lsm.nextId))).getD [] = [] := by
      rw [holds.tidy _ (tmp_of_sst 0 _)]
      rfl
    simp only [entries, holds.next]
    refine Fails.bind (Fails.zoom (NeedsRoom.of_ends (writeTable_ends calm holds.fs_wf unwritten _ _
      holds.valid))) (Ensures.zoom ((writeTable_ensures holds.fs_wf _ _ holds.valid).mono
      fun _ written facts => ?_))
    obtain ⟨⟨bytes, stored, isTable⟩, frame, passes⟩ := facts
    have calm' := passes.calm calm
    refine Fails.bind (Fails.zoom (publishTable_succeeds calm' frame.wf stored isTable).fails)
      (Ensures.zoom ((publishTable_ensures calm' frame.wf stored isTable).mono
        fun reader published facts => ?_))
    obtain ⟨_, pub, passes'⟩ := facts
    refine Fails.bind (Fails.ofOption _) ((nextId_ensures _).mono fun next _ facts => ?_)
    obtain ⟨_, _, rfl⟩ := facts
    have present : published.now.content WAL_FILENAME ≠ none := by
      rw [pub.frame.content, frame.content, holds.logged]
      · exact Option.some_ne_none _
      · exact fun same => wal_not_tmp (same ▸ tmp_of_sst 0 _)
      · rintro (same | same)
        · exact wal_not_tmp (same ▸ tmp_of_sst 0 _)
        · exact sst_ne_wal _ _ same.symm
    exact Fails.bind_ok rfl (rotateLog_succeeds (passes'.calm calm') pub.frame.wf present).fails

theorem installOutput_needsRoom (calm : world.Calm) {writer : SsTableWriter} {blocks : List Block}
    {current : Block}
    (writing : SsTableWriter.Writing env.hashes writer (tmpName (sstFilename 1 lsm.nextId)) blocks current
      world.now)
    (written : blocks.flatten ++ current = lsm.merged.entries) (wroteAny : Bool) :
    NeedsRoom (EngineInner.installOutput env lsm.nextId writer wroteAny) (inner, world) := by
  unfold EngineInner.installOutput
  refine Fails.ite (fun _ => ?_) fun _ => ?_
  · refine Fails.bind (Fails.zoom (NeedsRoom.of_ends (SsTableWriter.finish_ends calm writing)))
      (Ensures.zoom ((SsTableWriter.finish_ensures writing written).mono fun _ finished facts => ?_))
    obtain ⟨⟨bytes, stored, isTable⟩, frame, passes⟩ := facts
    refine Fails.bind (Fails.zoom (publishTable_succeeds (passes.calm calm) frame.wf stored isTable).fails)
      (Ensures.zoom fun reader published _ => ?_)
    exact Fails.bind (Fails.ofOption _) fun _ _ _ => nofun
  · refine Fails.bind (Fails.zoom (ignore_fails _)) fun _ _ _ => ?_
    exact Fails.bind (Fails.ofOption _) fun _ _ _ => nofun

theorem compactL0L1_needsRoom (calm : world.Calm)
    (holds : Holds env.hashes world.now inner lsm log snapshots) :
    NeedsRoom (EngineInner.compactL0L1 env) (inner, world) := by
  have absent : world.now.content (tmpName (sstFilename 1 lsm.nextId)) = none :=
    holds.tidy _ (tmp_of_sst 1 _)
  refine Fails.bind_ok rfl ?_
  simp only [holds.next]
  refine Fails.bind (Fails.zoom (NeedsRoom.of_ends (mergeInputs_ends calm holds absent _)))
    (Ensures.zoom ((holds.mergeInputs_ensures calm holds.fs_wf holds.tables_valid _ _).mono
      fun result merged facts => ?_))
  obtain ⟨blocks, current, writing, written, _, frame, passes⟩ := facts
  obtain ⟨writer, wroteAny⟩ := result
  refine Fails.bind (installOutput_needsRoom (passes.calm calm) writing written _) fun _ _ _ =>
    Fails.bind (Fails.zoom ?_) fun _ _ _ => Fails.zoom (ignore_fails _)
  exact forEach_fails (fun _ _ => forEach_fails (fun _ _ => ignore_fails _) _ _) _ _

theorem settle_needsRoom {flush : InnerM Unit} (before : Nat) (needs : NeedsRoom flush (inner, world))
    (flushes : Ensures flush (inner, world) fun _ after =>
      (∃ lsm' records', Flushed lsm records lsm' records' ∧
        Running env.hashes after.2.now after.1 lsm' records' snapshots) ∧ after.2.Calm) :
    NeedsRoom (do flush; EngineInner.maybeCompact env; Engine.changedId before) (inner, world) := by
  refine Fails.bind needs (flushes.mono fun _ flushed facts => ?_)
  obtain ⟨⟨lsm', records', _, running⟩, calm⟩ := facts
  obtain ⟨inner', world'⟩ := flushed
  refine Fails.bind (Fails.bind_ok rfl (Fails.ite (fun _ => Fails.pure _) fun _ => ?_)) fun _ _ _ => nofun
  exact compactL0L1_needsRoom calm running.holds

theorem logRecord_needsRoom (calm : world.Calm)
    (holds : Holds env.hashes world.now inner lsm log snapshots) {kind : RecordKind} {key value : Bytes}
    (valid : Record.Valid ⟨kind, key, value⟩) :
    NeedsRoom (Engine.logRecord env kind key value) (inner, world) := by
  have encoded := Record.encode_eq_ok_iff.mpr (⟨valid, rfl⟩ :
    Record.Valid ⟨kind, key, value⟩ ∧ Record.bytes env.hashes ⟨kind, key, value⟩ = _)
  refine Fails.bind_ok (Engine.lockInner_running holds.running) (Fails.bind (Fails.zoom ?_)
    (Ensures.zoom ?_))
  · unfold WalWriter.append
    rw [encoded]
    exact Fails.bind_ok rfl (NeedsRoom.of_ends (FileAppend.append_ends_linked calm holds.linked holds.logged _))
  · unfold WalWriter.append
    rw [encoded]
    refine Ensures.bind_ok rfl ((FileAppend.append_ensures _).mono fun _ appended facts => ?_)
    have calm' := facts.2.2.calm calm
    exact Fails.bind (Fails.zoom (FileAppend.sync_succeeds calm').fails) fun _ _ _ => nofun

theorem installSnapshot_needsRoom (calm : world.Calm) {dir : Dir}
    (described : Describes env.hashes world.now dir) (tidy : world.now.Tidy) (id : Nat) (bytes : Bytes) :
    NeedsRoom (Engine.installSnapshot id bytes) world := by
  refine Fails.bind (Io.openAppend_succeeds calm _).fails ((Io.openAppend_frame described.wf _).mono
    fun writer created facts => ?_)
  obtain ⟨frame, here, linked, passes⟩ := facts
  rw [tidy _ (Or.inr ⟨id, rfl⟩), Option.getD_none] at here
  have calm' := passes.calm calm
  refine Fails.bind (NeedsRoom.of_ends (FileAppend.append_ends_linked calm' linked here bytes))
    ((FileAppend.append_frame frame.wf linked here bytes).mono fun _ appended facts => ?_)
  obtain ⟨frame', held, _, _, passes'⟩ := facts
  refine Fails.bind (FileAppend.sync_succeeds (passes'.calm calm')).fails
    (FileAppend.sync_ensures.mono fun _ synced quiet => ?_)
  have present : synced.now.content (tmpName (snapshotFilename id)) ≠ none := by
    rw [quiet.now, held]
    exact Option.some_ne_none _
  have wf : synced.now.Wf := quiet.now ▸ frame'.wf
  have calm'' := quiet.calm (passes'.calm calm')
  refine Fails.bind (Io.rename_succeeds calm'' wf _ present).fails
    ((Io.rename_frame wf (tmpName_ne _)).mono fun _ renamed facts => ?_)
  exact (Io.syncDir_succeeds (facts.2.2.2.calm calm'')).fails

theorem Call.lsmStep_needsRoom (call : Call) (calm : world.Calm)
    (running : Running env.hashes world.now inner lsm records snapshots)
    (valid : ∀ record, call.record = some record → record.Valid) :
    NeedsRoom (call.lsmStep env) (inner, world) := by
  unfold Call.lsmStep
  cases written : call.record with
  | some record =>
    refine Fails.bind (logRecord_needsRoom calm running.holds (valid record written))
      ((logRecord_running running _ _ _).mono fun before logged facts => ?_)
    obtain ⟨same, _, running', passes⟩ := facts
    obtain ⟨inner', world'⟩ := logged
    have calm' := passes.calm calm
    have flushes := (maybeAutoFlush_running calm' running').mono fun _ _ facts =>
      (⟨facts.1, facts.2.calm calm'⟩ : _ ∧ World.Calm _)
    refine settle_needsRoom before (Fails.bind_ok rfl (Fails.ite (fun _ => ?_) fun _ => Fails.pure _)) flushes
    exact flushInner_needsRoom calm' running'.holds
  | none =>
    refine Fails.bind_ok (Engine.lockInner_running running.holds.running) ?_
    have flushes := (flushInner_running calm running).mono fun _ after facts =>
      (⟨⟨lsm.flush, facts.1⟩, facts.2.calm calm⟩ :
        (∃ lsm' records', Flushed lsm records lsm' records' ∧
          Running env.hashes after.2.now after.1 lsm' records' snapshots) ∧ after.2.Calm)
    exact settle_needsRoom _ (flushInner_needsRoom calm running.holds) flushes

theorem writeSnapshotAfter_needsRoom {engine : Engine} (calm : world.Calm)
    (holds : Holds env.hashes world.now engine.inner lsm log snapshots) (marker : Option Nat) :
    NeedsRoom (Engine.writeSnapshotAfter env marker) (engine, world) := by
  cases marker with
  | none => exact Fails.pure _
  | some id =>
    refine Fails.bind_ok rfl (Fails.bind (Fails.zoom (installSnapshot_needsRoom calm holds.described
      holds.tidy id _)) fun _ _ _ => Fails.zoom ?_)
    refine Fails.bind (Fails.attempt _) fun listed _ _ => ?_
    cases listed with
    | error error => exact Fails.pure _
    | ok paths =>
      refine forEach_fails (fun path _ => ?_) _ _
      unfold Engine.removeOlder
      split
      · exact Fails.pure _
      · split
        · exact Fails.pure _
        · exact Fails.ite (fun _ => ignore_fails _) fun _ => Fails.pure _

/-! ### Calls -/

namespace Call

variable [LinearOrder D] {engine : Engine}

/-- If the call passes the checks in front of its log record, it is one that is taken. -/
def Sure (env : Env D) (call : Call) (index : VectorIndex) : Prop :=
  call.check index = .ok () index → (∀ record, call.record = some record → record.Valid) →
    call.Admissible env index

theorem not_argument {error : Error} (full : error = .io .fileTooLarge) : ¬ error.IsArgument := by
  rintro ⟨text, same⟩
  rw [full] at same
  cases same

/-- **A sure call that is rejected** has not done anything. -/
theorem rejected_unchanged (call : Call) (calm : world.Calm)
    (running : Running env.hashes world.now engine.inner lsm records snapshots)
    (sound : engine.vectorIndex.Sound env.options.hnswParams)
    (room : engine.vectorIndex.hnsw.nodes.length < nodeIdBound) (sure : call.Sure env engine.vectorIndex) :
    Fails (call.run env) (engine, world) fun error after => error.IsArgument → after = (engine, world) := by
  rw [run_eq]
  refine Fails.bind (Fails.zoom ((call.check_fails engine.vectorIndex).mono fun _ index facts _ => ?_))
    (Ensures.zoom fun _ index checked => ?_)
  · obtain ⟨_, rfl⟩ := facts
    rfl
  obtain rfl : index = engine.vectorIndex := call.check_ensures _ _ _ checked
  by_cases valid : ∀ record, call.record = some record → record.Valid
  · have admissible := sure checked valid
    refine Fails.bind (Fails.zoom ((call.lsmStep_needsRoom calm running valid).mono fun _ _ full argument =>
      absurd argument (not_argument full))) (Ensures.zoom ((call.lsmStep_running calm running).mono
      fun marker logged facts => ?_))
    obtain ⟨_, ⟨lsm', records', _, running', _⟩, passes⟩ := facts
    obtain ⟨inner', world'⟩ := logged
    rcases indexStep_decides valid (fun key embedding same => (admissible.vector key embedding same).1) sound
      room with ⟨_, taken⟩ | ⟨refused, _⟩
    · refine Fails.bind (Fails.zoom taken.fails) (Ensures.zoom fun _ index' _ => ?_)
      exact (writeSnapshotAfter_needsRoom (passes.calm calm) running'.holds marker).mono
        fun _ _ full argument => absurd argument (not_argument full)
    · exact absurd admissible refused
  · obtain ⟨record, written, invalid⟩ : ∃ record, call.record = some record ∧ ¬ record.Valid := by
      simpa using valid
    obtain ⟨error, refused, _⟩ : ∃ error,
        call.lsmStep env (engine.inner, world) = .err error (engine.inner, world) ∧ error.IsArgument :=
      lsmStep_refused running.holds.running written invalid
    refine Fails.bind (Fails.zoom fun error' after ran _ => ?_) (Ensures.zoom fun _ _ ran => ?_)
    · cases refused.symm.trans ran
      rfl
    · cases refused.symm.trans ran

/-- **A call that is not sure** is rejected with its record written. -/
theorem unsure_logged (call : Call) (calm : world.Calm)
    (running : Running env.hashes world.now engine.inner lsm records snapshots)
    (sound : engine.vectorIndex.Sound env.options.hnswParams)
    (room : engine.vectorIndex.hnsw.nodes.length < nodeIdBound) (small : lsm.nextId + 2 < u64Bound)
    (roomy : call.Roomy env engine world.now) (unsure : ¬ call.Sure env engine.vectorIndex) :
    ∃ error index inner' world' lsm' records', call.run env (engine, world) =
        .err error (⟨inner', index⟩, world') ∧ error.IsArgument ∧ world'.Calm ∧
      Running env.hashes world'.now inner' lsm' records' snapshots ∧
      ∀ key, lsm'.value key = (lsm.log call.record).value key := by
  obtain ⟨checked, valid, refused⟩ : call.check engine.vectorIndex = .ok () engine.vectorIndex ∧
      (∀ record, call.record = some record → record.Valid) ∧ ¬ call.Admissible env engine.vectorIndex := by
    simpa only [Sure, Classical.not_imp] using unsure
  have finite : ∀ key embedding, call = .putIndexed key embedding → embedding.all F32.isFinite = true := by
    have ends := call.check_ends engine.vectorIndex
    rw [Ends, checked] at ends
    exact ends.2
  obtain ⟨marker, ⟨inner', world'⟩, logged, ⟨_, ⟨lsm', records', settled, running', _⟩, passes⟩⟩ :=
    (lsmStep_succeeds call calm running small valid (roomy.log_le running)
      (roomy.data_le running)).of_ensures (call.lsmStep_running calm running)
  rcases indexStep_decides valid finite sound room with ⟨taken, _⟩ | ⟨_, error, index, rejected, argument⟩
  · exact absurd taken refused
  · refine ⟨error, index, inner', world', lsm', records', ?_, argument, passes.calm calm, running',
      settled.value⟩
    have checks : Engine.onIndex call.check (engine, world) = .ok () (engine, world) := zoom_ok checked
    have logs : Engine.onInner (call.lsmStep env) (engine, world) =
        .ok marker ({ engine with inner := inner' }, world') := by
      rw [Engine.onInner, Prog.zoom, logged]
    have rejects : Engine.onIndex (call.indexStep env) ({ engine with inner := inner' }, world') =
        .err error (⟨inner', index⟩, world') := zoom_err rejected
    rw [run_eq, bind_ok checks, bind_ok logs]
    exact bind_err rejects _

end Call

/-! ### What can be seen -/

variable [LinearOrder D]

theorem ReachedBy.last {may : Moment → Prop} {server : Server} (reached : ReachedBy env may (.up server)) :
    may (.up server) := by
  cases reached with
  | opened _ _ allowed => exact allowed
  | stepped _ _ allowed => exact allowed

/-- What a key reads as. -/
def answer (env : Env D) (state : Engine × Fs) (key : Key) : Option (Except Error (Option Bytes)) :=
  (Engine.get env key (state.1, World.fresh state.2)).result

/-- The dimensions a later `put_indexed` is accepted with. -/
def VectorIndex.AcceptsDim (index : VectorIndex) (dim : Nat) : Prop :=
  (∀ established, index.expectedDim = some established → dim = established) ∧
    (index.hnsw.dim = 0 ∨ dim = index.hnsw.dim)

/-- What closing the engine and opening its directory gives. -/
def reopened (env : Env D) (state : Engine × Fs) : Option (Engine × Fs) :=
  (Engine.reopen env (state.1, World.fresh state.2)).left.map fun after => (after.1, after.2.now)

/-- The same keys and vectors. -/
structure SameContents (env : Env D) (one two : Engine × Fs) : Prop where
  reads : ∀ key, answer env one key = answer env two key
  vectors : ∀ key, one.1.vectorIndex.view key = two.1.vectorIndex.view key

/-- What a caller sees, now and behind a reopening, is the same. -/
structure Unaffected (env : Env D) (before after : Engine × Fs) : Prop extends
    SameContents env before after where
  dimensions : ∀ dim, before.1.vectorIndex.AcceptsDim dim ↔ after.1.vectorIndex.AcceptsDim dim
  reopens : Option.Rel (SameContents env) (reopened env before) (reopened env after)

theorem Unaffected.refl (state : Engine × Fs) : Unaffected env state state := by
  have same : ∀ state, SameContents env state state := fun _ => ⟨fun _ => rfl, fun _ => rfl⟩
  refine ⟨same state, fun _ => Iff.rfl, ?_⟩
  cases reopened env state with
  | none => exact .none
  | some after => exact .some (same after)

/-- If the call is rejected, nothing has changed. -/
def RejectedUnaffected (env : Env D) (key : Key) (embedding : List F32) (state : Engine × Fs) : Prop :=
  ∀ error after, Engine.putIndexed env key embedding (state.1, World.fresh state.2) = .err error after →
    error.IsArgument → Unaffected env state (after.1, after.2.now)

/-- **A rejected `put_indexed` changes nothing, if its vector is checked in front of the log.** In every
state of every history with few nodes, a call changes nothing when it is rejected, if passing the checks in
front of its record means that the index takes its vector. Where there is room for the record, no other call
is harmless, unless the key reads as that vector's bytes already. -/
theorem rejected_unaffected {server : Server} (storable : env.options.hnswParams.Storable)
    (reached : ReachedBy env Moment.Few (.up server)) (key : Key) (embedding : List F32) :
    ((Call.putIndexed key embedding).Sure env server.engine.vectorIndex →
      RejectedUnaffected env key embedding (server.engine, server.disk)) ∧
    (server.engine.inner.nextSstId + 2 < u64Bound →
      (Call.putIndexed key embedding).Roomy env server.engine server.disk →
      answer env (server.engine, server.disk) key ≠ some (.ok (some (encodeVector embedding))) →
      (RejectedUnaffected env key embedding (server.engine, server.disk) ↔
        (Call.putIndexed key embedding).Sure env server.engine.vectorIndex)) := by
  obtain ⟨⟨⟨lsm, records, snapshots, running, _⟩, _⟩, sound, _⟩ := reached.kept storable
  have half : 2 * server.engine.vectorIndex.hnsw.nodes.length < nodeIdBound := reached.last
  have room : server.engine.vectorIndex.hnsw.nodes.length < nodeIdBound := by omega
  have calm := World.fresh_calm server.disk
  have harmless : (Call.putIndexed key embedding).Sure env server.engine.vectorIndex →
      RejectedUnaffected env key embedding (server.engine, server.disk) := by
    intro sure error after run argument
    obtain rfl := (Call.putIndexed key embedding).rejected_unchanged calm running sound room sure error after
      run argument
    exact Unaffected.refl _
  refine ⟨harmless, fun ids roomy otherwise => ⟨fun unaffected => ?_, harmless⟩⟩
  by_contra unsure
  obtain ⟨error, index, inner', world', lsm', records', run, argument, calm', running', value⟩ :=
    (Call.putIndexed key embedding).unsure_logged calm running sound room (running.holds.next ▸ ids) roomy
      unsure
  refine otherwise (((unaffected error _ run argument).reads key).trans ?_)
  obtain ⟨last, found⟩ := gets_newest (World.fresh_calm world'.now) running' index key
  have read : Entry.visible (lsm'.newest key) = some (encodeVector embedding) := by
    have written : lsm'.value key = some (.vector (encodeVector embedding)) :=
      (value key).trans ((lsm.value_write key _ key).trans (if_pos rfl))
    rw [← Entry.visible_filter]
    exact congrArg Entry.visible written
  rw [answer, found, read]
  rfl

/-- Options under which vectors are compared by their angle. -/
def Env.angular : Env Nat := Env.zeroOne ⟨1000, 2, 0, ⟨.cosine, 1, 2, 1, 1, 0, 0⟩⟩

/-- Behind the put of a vector, one of another dimension is rejected and nothing has changed; a vector without
direction would be rejected with its record written. -/
theorem rejected_unaffected_angular : ∃ server, ReachedBy Env.angular Moment.Few (.up server) ∧
    (∃ error after, Engine.putIndexed Env.angular [8] [0, 0] (server.engine, World.fresh server.disk) =
        .err error after ∧ error.IsArgument ∧
      Unaffected Env.angular (server.engine, server.disk) (after.1, after.2.now)) ∧
    ¬ RejectedUnaffected Env.angular [7] [0] (server.engine, server.disk) := by
  have run : (serve Env.angular (fun server => decide server.engine.Few) Fs.empty
      [(0, some (.putIndexed [7] [F32.one])), (0, none), (0, none)]).map (fun server =>
        ((((Call.putIndexed [8] [0, 0]).check server.engine.vectorIndex).left.isSome,
          (Engine.putIndexed Env.angular [8] [0, 0] (server.engine, World.fresh server.disk)).raised.map
            fun after => decide (after.1 = Engine.dimensionError 2 1)),
        (((Call.putIndexed [7] [0]).check server.engine.vectorIndex).left.isSome,
          Env.angular.ops.preprocessVector server.engine.vectorIndex.hnsw.metric [0]),
        server.engine.inner.nextSstId,
        decide ((Call.putIndexed [7] [0]).Roomy Env.angular server.engine server.disk),
        decide (answer Env.angular (server.engine, server.disk) [7] ≠ some (.ok (some (encodeVector [0])))))) =
      some ((false, some true), (true, none), 0, true, true) := by decide +kernel
  obtain ⟨server, served, facts⟩ := Option.map_eq_some_iff.mp run
  obtain ⟨facts, rest⟩ := Prod.mk.inj facts
  obtain ⟨unchecked, rejected⟩ := Prod.mk.inj facts
  obtain ⟨facts, rest⟩ := Prod.mk.inj rest
  obtain ⟨checked, directionless⟩ := Prod.mk.inj facts
  obtain ⟨next, rest⟩ := Prod.mk.inj rest
  obtain ⟨roomy, otherwise⟩ := Prod.mk.inj rest
  have storable : Env.angular.options.hnswParams.Storable :=
    ⟨⟨by decide, by decide, by decide, by decide, by decide⟩, by decide⟩
  have reached : ReachedBy Env.angular Moment.Few (.up server) :=
    .of_serve .empty served fun _ few => of_decide_eq_true few
  refine ⟨server, reached, ?_, ?_⟩
  · obtain ⟨⟨error, after⟩, rejected, same⟩ := Option.map_eq_some_iff.mp rejected
    have argument : error.IsArgument := ⟨_, of_decide_eq_true same⟩
    have run := Outcome.raised_eq_some.mp rejected
    refine ⟨error, after, run, argument, ?_⟩
    refine (rejected_unaffected storable reached [8] [0, 0]).1 (fun passed => ?_) error after run argument
    rw [passed] at unchecked
    cases unchecked
  · have ids : server.engine.inner.nextSstId + 2 < u64Bound := by
      have zero : server.engine.inner.nextSstId = 0 := next
      rw [zero]
      decide
    have exactly := (rejected_unaffected storable reached [7] [0]).2 ids (of_decide_eq_true roomy)
      (of_decide_eq_true otherwise)
    rw [exactly]
    intro sure
    obtain ⟨index, passed⟩ := Option.isSome_iff_exists.mp checked
    obtain ⟨_, passed⟩ := Outcome.left_eq_some.mp passed
    obtain rfl : index = server.engine.vectorIndex := Call.check_ensures _ _ _ _ passed
    have valid : ∀ record, (Call.putIndexed [7] [0]).record = some record → record.Valid := by
      rintro record written
      cases written
      exact ⟨by decide, by decide, by decide, by decide⟩
    obtain ⟨_, processed, admits⟩ := (sure passed valid).vector _ _ rfl
    exact Option.some_ne_none _ (admits.graph.2.2.symm.trans directionless)

/-- The key holds a vector, and a call with a vector without direction is rejected: it reads as that vector. -/
theorem rejected_vector_stays :
    ¬ ∀ server key embedding, ReachedBy Env.angular Moment.Few (.up server) →
      RejectedUnaffected Env.angular key embedding (server.engine, server.disk) := by
  intro claimed
  have run : (serve Env.angular (fun server => decide server.engine.Few) Fs.empty
      [(0, some (.putIndexed [7] [F32.one])), (0, none), (0, none)]).bind (fun server =>
        (Engine.putIndexed Env.angular [7] [0] (server.engine, World.fresh server.disk)).raised.map
          fun after => (decide (after.1 = .invalidArgument ("cannot insert invalid vector " ++
              "(zero-norm for cosine, or contains non-finite values)")),
            decide (answer Env.angular (server.engine, server.disk) [7] =
              answer Env.angular (after.2.1, after.2.2.now) [7]))) = some (true, false) := by decide +kernel
  obtain ⟨server, served, run⟩ := Option.bind_eq_some_iff.mp run
  obtain ⟨⟨error, after⟩, rejected, facts⟩ := Option.map_eq_some_iff.mp run
  obtain ⟨argument, changed⟩ := Prod.mk.inj facts
  have reached : ReachedBy Env.angular Moment.Few (.up server) :=
    .of_serve .empty served fun _ few => of_decide_eq_true few
  have unaffected := claimed server [7] [0] reached error after (Outcome.raised_eq_some.mp rejected)
    ⟨_, of_decide_eq_true argument⟩
  exact of_decide_eq_false changed (unaffected.reads [7])

end Sastran

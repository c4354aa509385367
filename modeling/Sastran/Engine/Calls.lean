/-
What an engine's calls leave on disk.

A call is its LSM step, its index step and, where the step used up a table id, a snapshot
(`mutate_ensures`, `flush_ensures`); opening recovers the directory (`open_ensures`). The calls keep
`Running`, and their crash points are described directories (`CallCrash`, `RestartCrash`).
-/

import Sastran.Engine.Steps

namespace Sastran

open Device SsTable

variable {D : Type} {env : Env D} {world : World Fs} {lsm lsm' : Lsm}
  {records records' : List Record} {snapshots : List (Nat × Bytes)}

/-! ### Snapshots -/

/-- The state without its file system does not change while other files do. -/
theorem Stands.reframe {inner : EngineInner} {log : Bytes} {fs fs' : Fs}
    {snapshots' : List (Nat × Bytes)} (stands : Stands env.hashes fs inner lsm log snapshots)
    (described : Describes env.hashes fs' (lsm.stored log snapshots')) (tidies : Fs.Tidies fs fs')
    (linked : fs'.dir.find? WAL_FILENAME = fs.dir.find? WAL_FILENAME) :
    Stands env.hashes fs' inner lsm log snapshots' :=
  { stands with
    described := described
    linked := linked.trans stands.linked
    unsnapped := tidies.unsnapped stands.unsnapped }

theorem Holds.reframe {inner : EngineInner} {log : Bytes} {fs fs' : Fs}
    {snapshots' : List (Nat × Bytes)} (holds : Holds env.hashes fs inner lsm log snapshots)
    (described : Describes env.hashes fs' (lsm.stored log snapshots')) (tidies : Fs.Tidies fs fs')
    (linked : fs'.dir.find? WAL_FILENAME = fs.dir.find? WAL_FILENAME) :
    Holds env.hashes fs' inner lsm log snapshots' :=
  ⟨holds.toStands.reframe described tidies linked, holds.tidy.tidied tidies⟩

theorem Running.reframe {inner : EngineInner} {fs fs' : Fs} {snapshots' : List (Nat × Bytes)}
    (running : Running env.hashes fs inner lsm records snapshots)
    (described : Describes env.hashes fs' (lsm.stored (logBytes env.hashes records) snapshots'))
    (tidies : Fs.Tidies fs fs') (linked : fs'.dir.find? WAL_FILENAME = fs.dir.find? WAL_FILENAME) :
    Running env.hashes fs' inner lsm records snapshots' :=
  ⟨running.holds.reframe described tidies linked, running.valid, running.memtable⟩

theorem wal_not_snapshot : ¬ IsSnapshot WAL_FILENAME := by
  rintro ⟨id, same⟩
  exact snapshot_ne_wal id same.symm

/-- The directories that writing a snapshot passes through. -/
inductive SnapshotCrash (dir : Dir) (snapshot : Nat × Bytes) : Dir → Prop
  | before : SnapshotCrash dir snapshot dir
  | cleaning {gone : List Nat} (kept : snapshot.1 ∉ gone) :
      SnapshotCrash dir snapshot ((dir.push snapshot).without gone)

/-- What a snapshot of the index holds. -/
def snapshotBytes (env : Env D) (index : VectorIndex) (marker : Nat) : Bytes :=
  HnswIndex.encodeSnapshot env.hashes index.hnsw marker index.keyToNode

/-- **Writing a snapshot** leaves it as the only one. -/
theorem writeSnapshot_ensures [LinearOrder D] {engine : Engine} {dir : Dir} (calm : world.Calm)
    (described : Describes env.hashes world.now dir)
    (unsnapped : ∀ id, world.now.content (tmpName (snapshotFilename id)) = none) {marker : Nat}
    (small : marker < u64Bound) :
    Ensures (Engine.writeSnapshot env marker) (engine, world) fun _ after =>
      let snapshot := (marker, snapshotBytes env engine.vectorIndex marker)
      after.1 = engine ∧ Describes env.hashes after.2.now { dir with snapshots := [snapshot] } ∧
      Fs.Tidies world.now after.2.now ∧
      Fs.Frame (fun name => IsTmp name ∨ IsSnapshot name) world.now after.2.now ∧
      Passes (fun fs => ∃ dir', SnapshotCrash dir snapshot dir' ∧ Describes env.hashes fs dir') world
        after.2 := by
  set snapshot := (marker, snapshotBytes env engine.vectorIndex marker) with snapshotDef
  have encoded : Engine.encodeIndex env marker (engine, world) = .ok snapshot.2 (engine, world) := rfl
  refine Ensures.bind_ok encoded ?_
  refine Ensures.bind (Ensures.zoom ((installSnapshot_ensures described (unsnapped marker) small _).mono
    fun _ installed facts => ?_))
  obtain ⟨pushed, installs, frame, passes⟩ := facts
  have calm' := passes.calm calm
  refine Ensures.zoom ((cleanSnapshots_ensures calm' pushed small).mono fun _ cleaned facts => ?_)
  obtain ⟨cleanedDir, frame', passes'⟩ := facts
  refine ⟨rfl, ?_, installs.trans (.of_frame frame' fun name isTmp isSnapshot =>
    absurd isTmp isSnapshot.not_tmp), frame.trans (frame'.mono fun _ => Or.inr),
    (passes.mono fun fs crash => ?_).trans (passes'.mono fun fs crash => ?_)⟩
  · have only : (dir.push snapshot).snapshots.filter (fun item => item.1 = marker) = [snapshot] := by
      show (snapshot :: _).filter _ = _
      rw [List.filter_cons_of_pos (by simp [snapshotDef]), List.filter_filter]
      congr 1
      refine List.filter_eq_nil_iff.mpr fun item _ => ?_
      simp [snapshotDef]
    rw [only] at cleanedDir
    exact cleanedDir
  · rcases crash with crashed | crashed
    · exact ⟨_, .before, crashed⟩
    · refine ⟨_, .cleaning (List.not_mem_nil : snapshot.1 ∉ []), ?_⟩
      rw [Dir.without_nil]
      exact crashed
  · obtain ⟨gone, kept, crashed⟩ := crash
    exact ⟨_, .cleaning kept, crashed⟩

/-- The log is neither a snapshot nor a temporary file. -/
theorem wal_unsnapped : ¬ (IsTmp WAL_FILENAME ∨ IsSnapshot WAL_FILENAME) :=
  fun either => either.elim wal_not_tmp wal_not_snapshot

/-- The snapshots after a step with this marker. -/
def snapshotsAfter (env : Env D) (index : VectorIndex) (snapshots : List (Nat × Bytes)) :
    Option Nat → List (Nat × Bytes)
  | none => snapshots
  | some marker => [(marker, snapshotBytes env index marker)]

/-- The directories that the end of a call passes through. -/
inductive MarkedCrash (env : Env D) (index : VectorIndex) (dir : Dir) : Option Nat → Dir → Prop
  | unmarked : MarkedCrash env index dir none dir
  | marked {marker : Nat} {dir' : Dir}
      (crash : SnapshotCrash dir (marker, snapshotBytes env index marker) dir') :
      MarkedCrash env index dir (some marker) dir'

/-- **The snapshot behind a step**, if there is one. -/
theorem writeSnapshotAfter_describes [LinearOrder D] {engine : Engine} {dir : Dir} (calm : world.Calm)
    (described : Describes env.hashes world.now dir)
    (unsnapped : ∀ id, world.now.content (tmpName (snapshotFilename id)) = none) {marker : Option Nat}
    (small : ∀ id, marker = some id → id < u64Bound) :
    Ensures (Engine.writeSnapshotAfter env marker) (engine, world) fun _ after =>
      after.1 = engine ∧
      Describes env.hashes after.2.now
        { dir with snapshots := snapshotsAfter env engine.vectorIndex dir.snapshots marker } ∧
      Fs.Tidies world.now after.2.now ∧
      Fs.Frame (fun name => IsTmp name ∨ IsSnapshot name) world.now after.2.now ∧
      Passes (fun fs => ∃ dir', MarkedCrash env engine.vectorIndex dir marker dir' ∧
        Describes env.hashes fs dir') world after.2 := by
  cases marker with
  | none =>
    exact Ensures.pure ⟨rfl, described, Fs.Tidies.refl _, Fs.Frame.refl described.wf, Passes.refl _ world⟩
  | some id =>
    refine (writeSnapshot_ensures calm described unsnapped (small id rfl)).mono fun _ after facts => ?_
    obtain ⟨same, described', tidies, frame, passes⟩ := facts
    refine ⟨same, described', tidies, frame, passes.mono fun fs crash => ?_⟩
    obtain ⟨dir', stage, crashed⟩ := crash
    exact ⟨dir', .marked stage, crashed⟩

theorem writeSnapshotAfter_stands [LinearOrder D] {engine : Engine} {log : Bytes} (calm : world.Calm)
    (stands : Stands env.hashes world.now engine.inner lsm log snapshots) {marker : Option Nat}
    (small : ∀ id, marker = some id → id < u64Bound) :
    Ensures (Engine.writeSnapshotAfter env marker) (engine, world) fun _ after =>
      after.1 = engine ∧
      Stands env.hashes after.2.now engine.inner lsm log
        (snapshotsAfter env engine.vectorIndex snapshots marker) ∧
      Fs.Tidies world.now after.2.now ∧
      Passes (fun fs => ∃ dir, MarkedCrash env engine.vectorIndex
        (lsm.stored log snapshots) marker dir ∧ Describes env.hashes fs dir) world after.2 := by
  refine (writeSnapshotAfter_describes calm stands.described stands.unsnapped small).mono
    fun _ after facts => ?_
  obtain ⟨same, described, tidies, frame, passes⟩ := facts
  exact ⟨same, stands.reframe described tidies (frame.dir _ wal_unsnapped), tidies, passes⟩

theorem writeSnapshotAfter_ensures [LinearOrder D] {engine : Engine} {log : Bytes} (calm : world.Calm)
    (holds : Holds env.hashes world.now engine.inner lsm log snapshots) {marker : Option Nat}
    (small : ∀ id, marker = some id → id < u64Bound) :
    Ensures (Engine.writeSnapshotAfter env marker) (engine, world) fun _ after =>
      after.1 = engine ∧
      Holds env.hashes after.2.now engine.inner lsm log
        (snapshotsAfter env engine.vectorIndex snapshots marker) ∧
      Passes (fun fs => ∃ dir, MarkedCrash env engine.vectorIndex
        (lsm.stored log snapshots) marker dir ∧ Describes env.hashes fs dir) world after.2 := by
  refine (writeSnapshotAfter_stands calm holds.toStands small).mono fun _ after facts => ?_
  obtain ⟨same, stands, tidies, passes⟩ := facts
  exact ⟨same, ⟨stands, holds.tidy.tidied tidies⟩, passes⟩

/-! ### Calls -/

inductive Call where
  | put (key value : Bytes)
  | putIndexed (key : Key) (embedding : List F32)
  | delete (key : Key)
  | flush

namespace Call

variable [LinearOrder D] (env : Env D)

def run : Call → EngineM Unit
  | put key value => Engine.put env key value
  | putIndexed key embedding => Engine.putIndexed env key embedding
  | delete key => Engine.delete env key
  | flush => Engine.flush env

/-- The check in front of the LSM step. -/
def check : Call → IndexM Unit
  | putIndexed _ embedding => Engine.checkEmbedding embedding
  | _ => pure ()

/-- The record that is logged. -/
def record : Call → Option Record
  | put key value => some ⟨.put, key, value⟩
  | putIndexed key embedding => some ⟨.vector, key, encodeVector embedding⟩
  | delete key => some ⟨.delete, key, []⟩
  | flush => none

def lsmStep (call : Call) : InnerM (Option Nat) :=
  match call.record with
  | some record => Engine.logMutation env record.kind record.key record.value
  | none => Engine.flushLsm env

def indexStep : Call → IndexM Unit
  | putIndexed key embedding => Engine.putIndexedIndex env key embedding
  | delete key => Engine.deleteIndex env key
  | _ => pure ()

/-- **A call is its steps**: the check, the LSM step, the index step, and the snapshot. -/
theorem run_eq (call : Call) : call.run env = (do
    Engine.onIndex call.check
    let marker ← Engine.onInner (call.lsmStep env)
    Engine.onIndex (call.indexStep env)
    Engine.writeSnapshotAfter env marker) := by
  cases call <;> rfl

end Call

/-- An LSM state after the write of a call. -/
def Lsm.log (lsm : Lsm) : Option Record → Lsm
  | some record => lsm.write record.key record.entry
  | none => lsm

@[simp] theorem Lsm.log_nextId (lsm : Lsm) (record : Option Record) :
    (lsm.log record).nextId = lsm.nextId := by
  cases record <;> rfl

/-- What a call that returns has done to the index and to the LSM state. -/
structure Call.Effect [LinearOrder D] (env : Env D) (call : Call) (index : VectorIndex) (lsm : Lsm)
    (records : List Record) (index' : VectorIndex) (lsm' : Lsm) (records' : List Record) : Prop where
  checked : call.check index = .ok () index
  valid : ∀ record, call.record = some record → record.Valid
  settled : Settled (lsm.log call.record) (records ++ call.record.toList) lsm' records'
  indexed : call.indexStep env index = .ok () index'

/-- The directories a call passes through. -/
inductive CallCrash (env : Env D) (call : Call) (lsm : Lsm) (records : List Record)
    (snapshots : List (Nat × Bytes)) (index' : VectorIndex) (lsm' : Lsm) (records' : List Record) :
    Dir → Prop
  | settling {dir : Dir} (crash : SettleCrash env.hashes (lsm.log call.record)
      (records ++ call.record.toList) snapshots dir) :
      CallCrash env call lsm records snapshots index' lsm' records' dir
  | marking {dir : Dir} (crash : MarkedCrash env index'
      (lsm'.stored (logBytes env.hashes records') snapshots) (lsm.marker lsm') dir) :
      CallCrash env call lsm records snapshots index' lsm' records' dir

/-- A check changes nothing. -/
theorem Call.check_ensures (call : Call) (index : VectorIndex) :
    Ensures call.check index fun _ after => after = index := by
  cases call with
  | putIndexed key embedding =>
    refine Ensures.bind_ok rfl ?_
    refine Ensures.ite (fun _ => Ensures.throw) fun _ => Ensures.ite (fun _ => Ensures.throw) fun _ => ?_
    split
    · exact Ensures.pure rfl
    · exact Ensures.ite (fun _ => Ensures.throw) fun _ => Ensures.pure rfl
  | put key value => exact Ensures.pure rfl
  | delete key => exact Ensures.pure rfl
  | flush => exact Ensures.pure rfl

/-- The LSM step of a call. -/
theorem Call.lsmStep_standing [LinearOrder D] {inner : EngineInner} (call : Call) (calm : world.Calm)
    (standing : Standing env.hashes world.now inner lsm records snapshots) :
    Ensures (call.lsmStep env) (inner, world) fun result after =>
      (∀ record, call.record = some record → record.Valid) ∧
      (∃ lsm' records', Settled (lsm.log call.record) (records ++ call.record.toList) lsm' records' ∧
        Standing env.hashes after.2.now after.1 lsm' records' snapshots ∧ result = lsm.marker lsm') ∧
      Fs.Tidies world.now after.2.now ∧
      Passes (fun fs => ∃ dir, SettleCrash env.hashes (lsm.log call.record)
        (records ++ call.record.toList) snapshots dir ∧ Describes env.hashes fs dir) world after.2 := by
  unfold Call.lsmStep
  cases written : call.record with
  | some record =>
    refine (logMutation_standing calm standing record.kind record.key record.value).mono
      fun result after facts => ?_
    obtain ⟨valid, step, facts⟩ := facts
    refine ⟨fun other same => ?_, step, facts⟩
    cases same
    exact valid
  | none =>
    refine (flushLsm_standing calm standing).mono fun result after facts => ?_
    rw [Option.toList_none, List.append_nil]
    exact ⟨nofun, facts⟩

theorem Call.lsmStep_running [LinearOrder D] {inner : EngineInner} (call : Call) (calm : world.Calm)
    (running : Running env.hashes world.now inner lsm records snapshots) :
    Ensures (call.lsmStep env) (inner, world) fun result after =>
      (∀ record, call.record = some record → record.Valid) ∧
      (∃ lsm' records', Settled (lsm.log call.record) (records ++ call.record.toList) lsm' records' ∧
        Running env.hashes after.2.now after.1 lsm' records' snapshots ∧ result = lsm.marker lsm') ∧
      Passes (fun fs => ∃ dir, SettleCrash env.hashes (lsm.log call.record)
        (records ++ call.record.toList) snapshots dir ∧ Describes env.hashes fs dir) world after.2 := by
  refine (call.lsmStep_standing calm running.standing).mono fun result after facts => ?_
  obtain ⟨valid, ⟨lsm', records', settled, standing, same⟩, tidies, passes⟩ := facts
  exact ⟨valid, ⟨lsm', records', settled, running.onward tidies standing, same⟩, passes⟩

/-- The index step, and the snapshot behind it. -/
theorem Call.rest_standing [LinearOrder D] {engine : Engine} (call : Call) (calm : world.Calm)
    (standing : Standing env.hashes world.now engine.inner lsm records snapshots) {before : Lsm} :
    Ensures (do
        Engine.onIndex (call.indexStep env)
        Engine.writeSnapshotAfter env (before.marker lsm)) (engine, world) fun _ after =>
      call.indexStep env engine.vectorIndex = .ok () after.1.vectorIndex ∧
      Standing env.hashes after.2.now after.1.inner lsm records
        (snapshotsAfter env after.1.vectorIndex snapshots (before.marker lsm)) ∧
      Fs.Tidies world.now after.2.now ∧
      Passes (fun fs => ∃ dir, MarkedCrash env after.1.vectorIndex
        (lsm.stored (logBytes env.hashes records) snapshots) (before.marker lsm) dir ∧
          Describes env.hashes fs dir) world after.2 := by
  refine Ensures.bind (Ensures.zoom ?_)
  intro _ index' indexed
  have stands : Stands env.hashes world.now (Engine.mk engine.inner index').inner lsm _ snapshots :=
    standing.stands
  refine (writeSnapshotAfter_stands calm stands (Lsm.marker_small standing.stands.small)).mono
    fun _ after facts => ?_
  obtain ⟨same, stands', facts⟩ := facts
  rw [same]
  exact ⟨indexed, ⟨stands', standing.valid, standing.memtable⟩, facts⟩

/-- **What a call does**, and what it leaves on disk on the way. -/
theorem Call.standing [LinearOrder D] {engine : Engine} (call : Call) (calm : world.Calm)
    (standing : Standing env.hashes world.now engine.inner lsm records snapshots) :
    Ensures (call.run env) (engine, world) fun _ after => ∃ lsm' records',
      call.Effect env engine.vectorIndex lsm records after.1.vectorIndex lsm' records' ∧
      Standing env.hashes after.2.now after.1.inner lsm' records'
        (snapshotsAfter env after.1.vectorIndex snapshots (lsm.marker lsm')) ∧
      Fs.Tidies world.now after.2.now ∧
      Passes (fun fs => ∃ dir, CallCrash env call lsm records snapshots after.1.vectorIndex lsm' records'
        dir ∧ Describes env.hashes fs dir) world after.2 := by
  rw [Call.run_eq]
  refine Ensures.bind (Ensures.zoom ?_)
  intro _ index checked
  obtain rfl := call.check_ensures engine.vectorIndex _ _ checked
  refine Ensures.bind (Ensures.zoom ((call.lsmStep_standing calm standing).mono fun marker logged facts => ?_))
  obtain ⟨valid, ⟨lsm', records', settled, standing', rfl⟩, tidies, passes⟩ := facts
  obtain ⟨inner', world'⟩ := logged
  refine (call.rest_standing (passes.calm calm) standing').mono fun _ after facts => ?_
  obtain ⟨indexed, standing'', tidies', passes'⟩ := facts
  refine ⟨lsm', records', ⟨checked, valid, settled, indexed⟩, standing'', tidies.trans tidies',
    (passes.mono fun fs crash => ?_).trans (passes'.mono fun fs crash => ?_)⟩
  · obtain ⟨dir, stage, crashed⟩ := crash
    exact ⟨dir, .settling stage, crashed⟩
  · obtain ⟨dir, stage, crashed⟩ := crash
    exact ⟨dir, .marking stage, crashed⟩

theorem Call.ensures [LinearOrder D] {engine : Engine} (call : Call) (calm : world.Calm)
    (running : Running env.hashes world.now engine.inner lsm records snapshots) :
    Ensures (call.run env) (engine, world) fun _ after => ∃ lsm' records',
      call.Effect env engine.vectorIndex lsm records after.1.vectorIndex lsm' records' ∧
      Running env.hashes after.2.now after.1.inner lsm' records'
        (snapshotsAfter env after.1.vectorIndex snapshots (lsm.marker lsm')) ∧
      Passes (fun fs => ∃ dir, CallCrash env call lsm records snapshots after.1.vectorIndex lsm' records'
        dir ∧ Describes env.hashes fs dir) world after.2 := by
  refine (call.standing calm running.standing).mono fun _ after facts => ?_
  obtain ⟨lsm', records', effect, standing, tidies, passes⟩ := facts
  exact ⟨lsm', records', effect, running.onward tidies standing, passes⟩

/-! ### Opening -/

/-- **The recovery of the index** only reads, but for stale snapshots. -/
theorem recoverVectorIndex_leads [LinearOrder D] {dir : Dir} (inner : EngineInner) (calm : world.Calm)
    (described : Describes env.hashes world.now dir) :
    Leads (fun before after =>
      Fs.Frame IsSnapshot before.now after.now ∧
      Describes env.hashes after.now { dir with snapshots := dir.latest.toList } ∧
      Passes (fun fs => ∃ dir', dir.Thins dir.latest dir' ∧ Describes env.hashes fs dir') before after)
      (recoverVectorIndex env inner) world := by
  obtain ⟨result, found, run, rfl, only, frame, passes⟩ := discoverLatestSnapshot_succeeds calm described
  have thin : dir.Thins dir.latest { dir with snapshots := dir.latest.toList } :=
    ⟨rfl, fun item member => Dir.latest_mem (Option.mem_toList.mp member),
      fun item same => Option.mem_toList.mpr same⟩
  -- What follows only reads.
  have rest : ∀ last, Ended (recoverVectorIndex env inner) world last → Quiet found last := by
    intro last ended
    unfold Ended recoverVectorIndex at ended
    rw [bind_ok run] at ended
    refine Respects.ended ?_ ended
    split
    · exact fullRebuild_respects inner
    · refine Respects.bind Quiet.composes (Respects.attempt (loadSnapshot_respects inner _)) fun loaded => ?_
      split
      · exact Respects.pure Quiet.composes _
      · exact fullRebuild_respects inner
  have after_quiet : ∀ last, Ended (recoverVectorIndex env inner) world last →
      Fs.Frame IsSnapshot world.now last.now ∧
      Describes env.hashes last.now { dir with snapshots := dir.latest.toList } ∧
      Passes (fun fs => ∃ dir', dir.Thins dir.latest dir' ∧ Describes env.hashes fs dir') world last := by
    intro last ended
    have quiet := rest last ended
    refine ⟨quiet.now ▸ frame, quiet.now ▸ only, passes.trans (Passes.of_quiet quiet ⟨_, thin, only⟩)⟩
  exact ⟨fun index after ran => after_quiet after (Or.inl ⟨index, ran⟩),
    fun error after ran => after_quiet after (Or.inr ⟨error, ran⟩)⟩

/-- The directories that opening passes through, up to the choice of a snapshot. -/
inductive RestartCrash (dir : Dir) (records : List Record) (hashes : Hashes) : Dir → Prop
  | opening {dir' : Dir} (crash : OpenCrash dir dir') : RestartCrash dir records hashes dir'
  | recovering {dir' : Dir} (next : Nat)
      (thins : ((dir.recovered records next).stored (logBytes hashes records) dir.snapshots).Thins
        dir.latest dir') : RestartCrash dir records hashes dir'

/-- **Opening, however it ends**, passes through described directories only. -/
theorem open_leads [LinearOrder D] {dir : Dir} (calm : world.Calm)
    (described : Describes env.hashes world.now dir) {records : List Record}
    (log : LogHolds env.hashes dir.log records (logBytes env.hashes records)) :
    Leads (Passes fun fs => ∃ dir', RestartCrash dir records env.hashes dir' ∧
      Describes env.hashes fs dir') (Engine.open env) world := by
  set C : Fs → Prop := fun fs => ∃ dir', RestartCrash dir records env.hashes dir' ∧
    Describes env.hashes fs dir'
  have composes := Passes.composes C
  rw [open_eq]
  refine Leads.bind composes ?_ fun opened middle run => ?_
  · refine ((openInner_succeeds calm described log).mono fun opened after facts => ?_).leads
    obtain ⟨next, _, _, _, _, passes⟩ := facts
    refine passes.mono fun fs crash => ?_
    obtain ⟨dir', stage, crashed⟩ := crash
    exact ⟨dir', .opening stage, crashed⟩
  · obtain ⟨next, _, _, _, holds, passes⟩ := (openInner_succeeds calm described log).ensures _ _ run
    refine Leads.bind composes ((recoverVectorIndex_leads opened.1 (passes.calm calm)
      holds.described).mono fun after facts => ?_) fun _ _ _ => Respects.pure composes _ _
    refine facts.2.2.mono fun fs crash => ?_
    obtain ⟨dir', thins, crashed⟩ := crash
    exact ⟨dir', .recovering next thins, crashed⟩

/-- **Opening recovers a running engine.** -/
theorem open_ensures [LinearOrder D] {dir : Dir} (calm : world.Calm)
    (described : Describes env.hashes world.now dir) {records : List Record}
    (log : LogHolds env.hashes dir.log records (logBytes env.hashes records)) :
    Ensures (Engine.open env) world fun engine after => ∃ next, IsNext dir.ids next ∧
      Running env.hashes after.now engine.inner (dir.recovered records next) records
        dir.latest.toList := by
  rw [open_eq]
  refine Ensures.bind ((openInner_succeeds calm described log).ensures.mono
    fun opened middle facts => ?_)
  obtain ⟨next, isNext, rfl, memtable, holds, passes⟩ := facts
  refine Ensures.bind (Ensures.mono (recoverVectorIndex_leads opened.1 (passes.calm calm)
    holds.described).1 fun index after facts => ?_)
  obtain ⟨frame, thinned, _⟩ := facts
  refine Ensures.pure ⟨next, isNext, ?_, log.valid, memtable⟩
  refine holds.reframe thinned (.of_frame frame fun name isTmp isSnapshot =>
    absurd isTmp isSnapshot.not_tmp) (frame.dir _ wal_not_snapshot)

end Sastran

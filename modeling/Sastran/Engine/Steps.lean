/-
The LSM steps of calls.

`Running` is an open engine whose log holds exactly the records of its memtable, `Standing` the same where
temporary files are left. A logged mutation is a write, and then a flush and a compaction as the sizes ask
for them (`logMutation_standing`, `flushLsm_standing`); `SettleCrash` lists the directories on the way.
-/

import Sastran.Engine.Snapshots

namespace Sastran

open Device SsTable

/-- An open engine, and the records behind its memtable; there may be temporary files. -/
structure Standing (hashes : Hashes) (fs : Fs) (inner : EngineInner) (lsm : Lsm)
    (records : List Record) (snapshots : List (Nat × Bytes)) : Prop where
  stands : Stands hashes fs inner lsm (logBytes hashes records) snapshots
  valid : ∀ record ∈ records, record.Valid
  memtable : inner.memtable = Memtable.replay records

/-- An open engine, and the records behind its memtable. -/
structure Running (hashes : Hashes) (fs : Fs) (inner : EngineInner) (lsm : Lsm)
    (records : List Record) (snapshots : List (Nat × Bytes)) : Prop where
  holds : Holds hashes fs inner lsm (logBytes hashes records) snapshots
  valid : ∀ record ∈ records, record.Valid
  memtable : inner.memtable = Memtable.replay records

variable {D : Type} {env : Env D} {world : World Fs} {inner : EngineInner} {lsm lsm' : Lsm}
  {records records' : List Record} {snapshots : List (Nat × Bytes)}

/-- A flush, or none. -/
inductive Flushed (lsm : Lsm) (records : List Record) : Lsm → List Record → Prop
  | kept : Flushed lsm records lsm records
  | moved : Flushed lsm records lsm.flush []

/-- A flush or none, and a compaction or none. -/
inductive Settled (lsm : Lsm) (records : List Record) : Lsm → List Record → Prop
  | kept {lsm' : Lsm} {records' : List Record} (flushed : Flushed lsm records lsm' records') :
      Settled lsm records lsm' records'
  | compacted {lsm' : Lsm} {records' : List Record} (flushed : Flushed lsm records lsm' records') :
      Settled lsm records lsm'.compact records'

/-- The directories that a flush and a compaction pass through. -/
inductive SettleCrash (hashes : Hashes) (lsm : Lsm) (records : List Record)
    (snapshots : List (Nat × Bytes)) : Dir → Prop
  | flushing {dir : Dir} (crash : FlushCrash lsm (logBytes hashes records) snapshots dir) :
      SettleCrash hashes lsm records snapshots dir
  | compacting {lsm' : Lsm} {records' : List Record} {dir : Dir}
      (flushed : Flushed lsm records lsm' records')
      (crash : CompactCrash lsm' (logBytes hashes records') snapshots dir) :
      SettleCrash hashes lsm records snapshots dir

/-! ### Values and ids -/

theorem Flushed.value (flushed : Flushed lsm records lsm' records') (key : Key) :
    lsm'.value key = lsm.value key := by
  cases flushed with
  | kept => rfl
  | moved => exact lsm.value_flush key

/-- **Flushes and compactions keep values.** -/
theorem Settled.value (settled : Settled lsm records lsm' records') (key : Key) :
    lsm'.value key = lsm.value key := by
  cases settled with
  | kept flushed => exact flushed.value key
  | compacted flushed => rw [Lsm.value_compact, flushed.value]

theorem Lsm.flush_eq_or (lsm : Lsm) : lsm.flush = lsm ∨ lsm.flush.nextId = lsm.nextId + 1 := by
  unfold Lsm.flush
  split
  · exact Or.inl rfl
  · exact Or.inr rfl

theorem Flushed.nextId_le (flushed : Flushed lsm records lsm' records') : lsm.nextId ≤ lsm'.nextId := by
  cases flushed with
  | kept => exact le_refl _
  | moved =>
    rcases lsm.flush_eq_or with same | next
    · rw [same]
    · omega

theorem Settled.nextId_le (settled : Settled lsm records lsm' records') :
    lsm.nextId ≤ lsm'.nextId := by
  cases settled with
  | kept flushed => exact flushed.nextId_le
  | compacted flushed =>
    have step := flushed.nextId_le
    show lsm.nextId ≤ _ + 1
    omega

/-- Where no table id was used up, nothing happened. -/
theorem Settled.same (settled : Settled lsm records lsm' records') (id : lsm'.nextId = lsm.nextId) :
    lsm' = lsm := by
  cases settled with
  | kept flushed =>
    cases flushed with
    | kept => rfl
    | moved =>
      rcases lsm.flush_eq_or with same | next
      · exact same
      · omega
  | compacted flushed =>
    have step := flushed.nextId_le
    have compact : ∀ other : Lsm, other.compact.nextId = other.nextId + 1 := fun _ => rfl
    rw [compact] at id
    omega

/-! ### Standing and running -/

/-- The directory is the one the next step starts in. -/
theorem Running.described (running : Running env.hashes world.now inner lsm records snapshots) :
    Describes env.hashes world.now (lsm.stored (logBytes env.hashes records) snapshots) :=
  running.holds.described

theorem Running.standing {fs : Fs} (running : Running env.hashes fs inner lsm records snapshots) :
    Standing env.hashes fs inner lsm records snapshots :=
  ⟨running.holds.toStands, running.valid, running.memtable⟩

theorem Standing.running {fs : Fs} (standing : Standing env.hashes fs inner lsm records snapshots)
    (tidy : fs.Tidy) : Running env.hashes fs inner lsm records snapshots :=
  ⟨⟨standing.stands, tidy⟩, standing.valid, standing.memtable⟩

/-- Where no temporary file comes, a running engine runs on. -/
theorem Running.onward {fs fs' : Fs} {inner' : EngineInner} {snapshots' : List (Nat × Bytes)}
    (running : Running env.hashes fs inner lsm records snapshots) (tidies : Fs.Tidies fs fs')
    (standing : Standing env.hashes fs' inner' lsm' records' snapshots') :
    Running env.hashes fs' inner' lsm' records' snapshots' :=
  standing.running (running.holds.tidy.tidied tidies)

theorem logRecord_standing (standing : Standing env.hashes world.now inner lsm records snapshots)
    (kind : RecordKind) (key value : Bytes) :
    Ensures (Engine.logRecord env kind key value) (inner, world) fun result after =>
      let record : Record := ⟨kind, key, value⟩
      result = lsm.nextId ∧ record.Valid ∧
      Standing env.hashes after.2.now after.1 (lsm.write key record.entry) (records ++ [record])
        snapshots ∧
      Fs.Tidies world.now after.2.now ∧ Passes (fun fs => fs = after.2.now) world after.2 := by
  refine (logRecord_stands standing.stands kind key value).mono fun result after facts => ?_
  obtain ⟨same, valid, memtable, stands, tidies, passes⟩ := facts
  refine ⟨same, valid, ⟨?_, ?_, ?_⟩, tidies, passes⟩
  · rw [logBytes_append, logBytes_cons, logBytes_nil, List.append_nil]
    exact stands
  · intro record member
    rcases List.mem_append.mp member with member | member
    · exact standing.valid record member
    · rw [List.mem_singleton.mp member]
      exact valid
  · rw [memtable, standing.memtable, Memtable.replay_append_one]

theorem logRecord_running (running : Running env.hashes world.now inner lsm records snapshots)
    (kind : RecordKind) (key value : Bytes) :
    Ensures (Engine.logRecord env kind key value) (inner, world) fun result after =>
      let record : Record := ⟨kind, key, value⟩
      result = lsm.nextId ∧ record.Valid ∧
      Running env.hashes after.2.now after.1 (lsm.write key record.entry) (records ++ [record])
        snapshots ∧
      Passes (fun fs => fs = after.2.now) world after.2 := by
  refine (logRecord_standing running.standing kind key value).mono fun result after facts => ?_
  obtain ⟨same, valid, standing, tidies, passes⟩ := facts
  exact ⟨same, valid, running.onward tidies standing, passes⟩

theorem flushInner_standing (calm : world.Calm)
    (standing : Standing env.hashes world.now inner lsm records snapshots) :
    Ensures (EngineInner.flushInner env) (inner, world) fun _ after =>
      (∃ records', Flushed lsm records lsm.flush records' ∧
        Standing env.hashes after.2.now after.1 lsm.flush records' snapshots) ∧
      Fs.Tidies world.now after.2.now ∧
      Passes (fun fs => ∃ dir, FlushCrash lsm (logBytes env.hashes records) snapshots dir ∧
        Describes env.hashes fs dir) world after.2 := by
  refine (flushInner_stands calm standing.stands).mono fun _ after facts => ?_
  obtain ⟨stands, memtable, tidies, passes⟩ := facts
  refine ⟨?_, tidies, passes⟩
  cases empty : inner.memtable.isEmpty with
  | true =>
    rw [empty] at stands memtable
    have same : lsm.flush = lsm := by
      rw [Lsm.flush, if_pos]
      rw [← standing.stands.memtable]
      exact empty
    rw [same] at stands ⊢
    exact ⟨records, .kept, stands, standing.valid, memtable.trans standing.memtable⟩
  | false =>
    rw [empty] at stands memtable
    exact ⟨[], .moved, stands, fun _ member => absurd member List.not_mem_nil, memtable⟩

theorem flushInner_running (calm : world.Calm)
    (running : Running env.hashes world.now inner lsm records snapshots) :
    Ensures (EngineInner.flushInner env) (inner, world) fun _ after =>
      (∃ records', Flushed lsm records lsm.flush records' ∧
        Running env.hashes after.2.now after.1 lsm.flush records' snapshots) ∧
      Passes (fun fs => ∃ dir, FlushCrash lsm (logBytes env.hashes records) snapshots dir ∧
        Describes env.hashes fs dir) world after.2 := by
  refine (flushInner_standing calm running.standing).mono fun _ after facts => ?_
  obtain ⟨⟨records', flushed, standing⟩, tidies, passes⟩ := facts
  exact ⟨⟨records', flushed, running.onward tidies standing⟩, passes⟩

/-- **A flush where the memtable is large enough.** -/
theorem maybeAutoFlush_standing (calm : world.Calm)
    (standing : Standing env.hashes world.now inner lsm records snapshots) :
    Ensures (EngineInner.maybeAutoFlush env) (inner, world) fun _ after =>
      (∃ lsm' records', Flushed lsm records lsm' records' ∧
        Standing env.hashes after.2.now after.1 lsm' records' snapshots) ∧
      Fs.Tidies world.now after.2.now ∧
      Passes (fun fs => ∃ dir, FlushCrash lsm (logBytes env.hashes records) snapshots dir ∧
        Describes env.hashes fs dir) world after.2 := by
  refine Ensures.bind_ok rfl ?_
  refine Ensures.ite (fun _ => ?_) fun _ => ?_
  · refine (flushInner_standing calm standing).mono fun _ after facts => ?_
    obtain ⟨⟨records', flushed, standing'⟩, facts⟩ := facts
    exact ⟨⟨lsm.flush, records', flushed, standing'⟩, facts⟩
  · exact Ensures.pure ⟨⟨lsm, records, .kept, standing⟩, Fs.Tidies.refl _, Passes.refl _ world⟩

theorem maybeAutoFlush_running (calm : world.Calm)
    (running : Running env.hashes world.now inner lsm records snapshots) :
    Ensures (EngineInner.maybeAutoFlush env) (inner, world) fun _ after =>
      (∃ lsm' records', Flushed lsm records lsm' records' ∧
        Running env.hashes after.2.now after.1 lsm' records' snapshots) ∧
      Passes (fun fs => ∃ dir, FlushCrash lsm (logBytes env.hashes records) snapshots dir ∧
        Describes env.hashes fs dir) world after.2 := by
  refine (maybeAutoFlush_standing calm running.standing).mono fun _ after facts => ?_
  obtain ⟨⟨lsm', records', flushed, standing⟩, tidies, passes⟩ := facts
  exact ⟨⟨lsm', records', flushed, running.onward tidies standing⟩, passes⟩

/-- **A compaction where there are enough L0 tables.** -/
theorem maybeCompact_standing (calm : world.Calm)
    (standing : Standing env.hashes world.now inner lsm records snapshots) :
    Ensures (EngineInner.maybeCompact env) (inner, world) fun _ after =>
      (∃ lsm', (lsm' = lsm ∨ lsm' = lsm.compact) ∧
        Standing env.hashes after.2.now after.1 lsm' records snapshots) ∧
      Fs.Tidies world.now after.2.now ∧
      Passes (fun fs => ∃ dir, CompactCrash lsm (logBytes env.hashes records) snapshots dir ∧
        Describes env.hashes fs dir) world after.2 := by
  refine Ensures.bind_ok rfl ?_
  refine Ensures.ite (fun _ => ?_) fun _ => ?_
  · exact Ensures.pure ⟨⟨lsm, Or.inl rfl, standing⟩, Fs.Tidies.refl _, Passes.refl _ world⟩
  · refine (compactL0L1_stands calm standing.stands standing.stands.tables_valid).mono
      fun _ after facts => ?_
    obtain ⟨stands, memtable, tidies, passes⟩ := facts
    exact ⟨⟨lsm.compact, Or.inr rfl, stands, standing.valid, memtable.trans standing.memtable⟩, tidies,
      passes⟩

/-- A flush and a compaction, one after the other. -/
theorem settle_standing {flush : InnerM Unit}
    (flushes : Ensures flush (inner, world) fun _ after =>
      (∃ lsm' records', Flushed lsm records lsm' records' ∧
        Standing env.hashes after.2.now after.1 lsm' records' snapshots) ∧
      Fs.Tidies world.now after.2.now ∧
      Passes (fun fs => ∃ dir, FlushCrash lsm (logBytes env.hashes records) snapshots dir ∧
        Describes env.hashes fs dir) world after.2) (calm : world.Calm) :
    Ensures (do flush; EngineInner.maybeCompact env) (inner, world) fun _ after =>
      (∃ lsm' records', Settled lsm records lsm' records' ∧
        Standing env.hashes after.2.now after.1 lsm' records' snapshots) ∧
      Fs.Tidies world.now after.2.now ∧
      Passes (fun fs => ∃ dir, SettleCrash env.hashes lsm records snapshots dir ∧
        Describes env.hashes fs dir) world after.2 := by
  refine Ensures.bind (flushes.mono fun _ flushed facts => ?_)
  obtain ⟨⟨lsm', records', step, standing'⟩, tidies, passes⟩ := facts
  obtain ⟨inner', world'⟩ := flushed
  refine (maybeCompact_standing (passes.calm calm) standing').mono fun _ after facts => ?_
  obtain ⟨⟨lsm'', which, standing''⟩, tidies', passes'⟩ := facts
  refine ⟨⟨lsm'', records', ?_, standing''⟩, tidies.trans tidies', (passes.mono fun fs crash => ?_).trans
    (passes'.mono fun fs crash => ?_)⟩
  · rcases which with rfl | rfl
    · exact .kept step
    · exact .compacted step
  · obtain ⟨dir, stage, crashed⟩ := crash
    exact ⟨dir, .flushing stage, crashed⟩
  · obtain ⟨dir, stage, crashed⟩ := crash
    exact ⟨dir, .compacting step stage, crashed⟩

/-! ### The steps -/

/-- The marker of a step: the next id, if it has changed. -/
def Lsm.marker (before after : Lsm) : Option Nat :=
  if before.nextId ≠ after.nextId then some after.nextId else none

theorem Lsm.marker_small (small : lsm'.nextId < u64Bound) :
    ∀ id, lsm.marker lsm' = some id → id < u64Bound := by
  intro id marked
  unfold Lsm.marker at marked
  split at marked
  · cases marked
    exact small
  · cases marked

theorem InMemory.changedId_ensures {before : Lsm} {id : Nat} (memory : InMemory env.hashes inner lsm)
    (same : id = before.nextId) :
    Ensures (Engine.changedId id) (inner, world) fun result after =>
      result = before.marker lsm ∧ after = (inner, world) := by
  intro result after run
  cases run
  subst same
  exact ⟨by rw [memory.next]; rfl, rfl⟩

/-- **A logged mutation** is a write; what it triggers changes no value. -/
theorem logMutation_standing (calm : world.Calm)
    (standing : Standing env.hashes world.now inner lsm records snapshots) (kind : RecordKind)
    (key value : Bytes) :
    Ensures (Engine.logMutation env kind key value) (inner, world) fun result after =>
      let record : Record := ⟨kind, key, value⟩
      record.Valid ∧
      (∃ lsm' records', Settled (lsm.write key record.entry) (records ++ [record]) lsm' records' ∧
        Standing env.hashes after.2.now after.1 lsm' records' snapshots ∧
        result = lsm.marker lsm') ∧
      Fs.Tidies world.now after.2.now ∧
      Passes (fun fs => ∃ dir, SettleCrash env.hashes (lsm.write key record.entry)
        (records ++ [record]) snapshots dir ∧ Describes env.hashes fs dir) world after.2 := by
  refine Ensures.bind ((logRecord_standing standing kind key value).mono fun before logged facts => ?_)
  obtain ⟨same, valid, standing', tidies, passes⟩ := facts
  obtain ⟨inner', world'⟩ := logged
  have calm' := passes.calm calm
  show Ensures (EngineInner.maybeAutoFlush env >>= fun _ => EngineInner.maybeCompact env >>= fun _ =>
    Engine.changedId before) (inner', world') _
  rw [← bind_assoc']
  refine Ensures.bind ((settle_standing (maybeAutoFlush_standing calm' standing') calm').mono
    fun _ settled facts => ?_)
  obtain ⟨⟨lsm', records', step, standing''⟩, tidies', passes'⟩ := facts
  refine (standing''.stands.changedId_ensures same).mono fun result after facts => ?_
  obtain ⟨rfl, rfl⟩ := facts
  refine ⟨valid, ⟨lsm', records', step, standing'', rfl⟩, tidies.trans tidies',
    (passes.mono fun fs same => ?_).trans passes'⟩
  exact ⟨_, .flushing .same, same ▸ standing'.stands.described⟩

/-- **The LSM part of a flush.** -/
theorem flushLsm_standing (calm : world.Calm)
    (standing : Standing env.hashes world.now inner lsm records snapshots) :
    Ensures (Engine.flushLsm env) (inner, world) fun result after =>
      (∃ lsm' records', Settled lsm records lsm' records' ∧
        Standing env.hashes after.2.now after.1 lsm' records' snapshots ∧
        result = lsm.marker lsm') ∧
      Fs.Tidies world.now after.2.now ∧
      Passes (fun fs => ∃ dir, SettleCrash env.hashes lsm records snapshots dir ∧
        Describes env.hashes fs dir) world after.2 := by
  refine Ensures.bind_ok (Engine.lockInner_running standing.stands.running) ?_
  show Ensures (EngineInner.flushInner env >>= fun _ => EngineInner.maybeCompact env >>= fun _ =>
    Engine.changedId inner.nextSstId) (inner, world) _
  rw [← bind_assoc']
  have flushes := (flushInner_standing calm standing).mono fun _ after facts =>
    (⟨⟨lsm.flush, facts.1⟩, facts.2⟩ :
      (∃ lsm' records', Flushed lsm records lsm' records' ∧
        Standing env.hashes after.2.now after.1 lsm' records' snapshots) ∧ _)
  refine Ensures.bind ((settle_standing flushes calm).mono fun _ settled facts => ?_)
  obtain ⟨⟨lsm', records', step, standing'⟩, tidies, passes⟩ := facts
  refine (standing'.stands.changedId_ensures standing.stands.next).mono fun result after facts => ?_
  obtain ⟨rfl, rfl⟩ := facts
  exact ⟨⟨lsm', records', step, standing', rfl⟩, tidies, passes⟩

end Sastran

/-
A flush behind one that failed.

A flush that fails leaves the engine leaning on its directory (`FlushFailure.leans`), so that the next one
has what it needs, but for two things: the temporary file of its table may hold something, and the log may be
gone.

* `Unhindered` - neither is the case.
* `flush_retries` - the next flush does the work exactly then.
-/

import Sastran.Engine.Interrupted
import Sastran.Engine.Rejected

namespace Sastran

open Device SsTable

variable {D : Type} {env : Env D} {world : World Fs} {inner inner' : EngineInner} {lsm : Lsm} {log : Bytes}
  {snapshots : List (Nat × Bytes)} {fs fs' : Fs}

/-! ### What a failed flush leaves -/

/-- The LSM state once the table of a flush is registered, with the memtable still there. -/
def Lsm.registered (lsm : Lsm) : Lsm :=
  ⟨lsm.memtable, (lsm.nextId, lsm.memtable) :: lsm.l0, lsm.l1, lsm.nextId + 1⟩

theorem Lsm.newest_registered (lsm : Lsm) (key : Key) : lsm.registered.newest key = lsm.newest key := by
  rw [newest_eq, newest_eq]
  simp only [registered, tables, List.cons_append, List.map_cons, newestOf_cons]
  rw [← Option.or_assoc, Option.or_self]

theorem Lsm.Ordered.registered (ordered : lsm.Ordered) : lsm.registered.Ordered := by
  refine ⟨List.pairwise_cons.mpr ⟨ordered.bound, ordered.descending⟩, ?_, ordered.single⟩
  intro table member
  rcases List.mem_cons.mp member with rfl | member
  · exact Nat.lt_succ_self _
  · exact Nat.lt_succ_of_lt (ordered.bound table member)

/-- The memory of an engine, once the table of a flush is registered. -/
theorem InMemory.registered {reader : SsTableReader} (memory : InMemory env.hashes inner lsm)
    (reads : reader.Reads env.hashes lsm.memtable) (small : lsm.nextId + 1 < u64Bound) :
    InMemory env.hashes (inner.withTable reader) lsm.registered where
  memtable := memory.memtable
  valid := memory.valid
  l0 := List.Forall₂.cons ⟨memory.next, reads⟩ memory.l0
  l1 := memory.l1
  next := congrArg (· + 1) memory.next
  small := small
  ordered := memory.ordered.registered
  running := memory.running

/-- A table under the name that the next flush gives its own. -/
theorem Holds.published {bytes : Bytes} (holds : Holds env.hashes fs inner lsm log snapshots)
    (small : lsm.nextId + 1 < u64Bound) (isTable : IsTable env.hashes bytes lsm.memtable)
    (pub : Published (sstFilename 0 lsm.nextId) bytes fs fs') :
    Describes env.hashes fs' (lsm.registered.stored log snapshots) := by
  have fresh : ∀ table ∈ (lsm.stored log snapshots).level 0, table.1 ≠ lsm.nextId :=
    fun table member => ne_of_lt (holds.ordered.fresh 0 table member)
  exact holds.described.pushTable (by decide : 0 < 2) small pub.frame.toOutside pub.held isTable fresh

/-- **What the next flush needs**: the directory stores the tables in memory, whatever it has under the name of
the next one. -/
structure Leans (hashes : Hashes) (fs : Fs) (inner : EngineInner) (lsm : Lsm)
    (snapshots : List (Nat × Bytes)) : Prop extends InMemory hashes inner lsm where
  described : ∃ dir, Describes hashes fs dir ∧
    (dir.l0.filter fun table => table.1 ≠ lsm.nextId) = lsm.l0 ∧ dir.l1 = lsm.l1 ∧ dir.snapshots = snapshots
  unsnapped : ∀ id, fs.content (tmpName (snapshotFilename id)) = none

/-- A directory with this table stores the tables without it. -/
theorem Lsm.Ordered.registered_filter (ordered : lsm.Ordered) :
    (lsm.registered.l0.filter fun table => table.1 ≠ lsm.nextId) = lsm.l0 := by
  rw [Lsm.registered, List.filter_cons_of_neg (by simp), ordered.filter_next]

/-- Only the temporary file of the next table may be there. -/
def Fs.TidyBut (fs : Fs) (id : Nat) : Prop :=
  ∀ name, IsTmp name → name ≠ tmpName (sstFilename 0 id) → fs.content name = none

theorem Fs.TidyBut.unsnapped {id : Nat} (tidy : fs.TidyBut id) (marker : Nat) :
    fs.content (tmpName (snapshotFilename marker)) = none :=
  tidy _ (Or.inr ⟨marker, rfl⟩) fun same => sst_ne_snapshot 0 id marker (tmpName_inj same).symm

/-- **What a failed flush leaves** is what the next one needs: the values are those from before. -/
theorem FlushFailure.leans (failure : FlushFailure env.hashes lsm inner fs inner' fs')
    (holds : Holds env.hashes fs inner lsm log snapshots) (small : lsm.nextId + 1 < u64Bound) :
    ∃ lsm', Leans env.hashes fs' inner' lsm' snapshots ∧
      inner'.memtable = inner.memtable ∧ (∀ key, lsm'.newest key = lsm.newest key) ∧
      lsm'.nextId ≤ lsm.nextId + 1 ∧ fs'.TidyBut lsm'.nextId := by
  cases failure with
  | @writing fs' frame =>
    have described := holds.described.tmp (frame.mono fun _ same => same ▸ tmp_of_sst 0 _)
    have tidy : fs'.TidyBut lsm.nextId := fun name tmp other => by
      rw [frame.content name other]
      exact holds.tidy name tmp
    exact ⟨lsm, ⟨holds.toInMemory, ⟨_, described, holds.ordered.filter_next, rfl, rfl⟩, tidy.unsnapped⟩, rfl,
      fun _ => rfl, Nat.le_succ _, tidy⟩
  | @published bytes fs' isTable pub =>
    have described := holds.published small isTable pub
    have tidy : fs'.Tidy := holds.tidy.tidied (.without ⟨0, _, rfl⟩ pub.frame pub.gone)
    exact ⟨lsm, ⟨holds.toInMemory, ⟨_, described, holds.ordered.registered_filter, rfl, rfl⟩,
      fun id => tidy _ (Or.inr ⟨id, rfl⟩)⟩, rfl, fun _ => rfl, Nat.le_succ _, fun name tmp _ => tidy name tmp⟩
  | @registered bytes reader fs₁ fs' isTable pub reads _ rotating =>
    have described := holds.published small isTable pub
    have tidy : fs₁.Tidy := holds.tidy.tidied (.without ⟨0, _, rfl⟩ pub.frame pub.gone)
    have frame : Fs.Frame (· = WAL_FILENAME) fs₁ fs' := by
      rcases rotating with rfl | lost
      · exact Fs.Frame.refl described.wf
      · exact lost.frame
    have tidy' : fs'.Tidy := tidy.tidied (.setLog frame)
    exact ⟨lsm.registered, ⟨holds.toInMemory.registered reads small,
      ⟨_, described.setLog frame, holds.ordered.registered.filter_next, rfl, rfl⟩,
      fun id => tidy' _ (Or.inr ⟨id, rfl⟩)⟩, rfl, lsm.newest_registered, le_refl _,
      fun name tmp _ => tidy' name tmp⟩

/-! ### The next flush -/

/-- Nothing is in the way of the next flush: its temporary file holds nothing, and there is a log. -/
def Unhindered (inner : EngineInner) (fs : Fs) : Prop :=
  (fs.content (tmpName (sstFilename 0 inner.nextSstId))).getD [] = [] ∧ fs.content WAL_FILENAME ≠ none

instance Unhindered.decidable (inner : EngineInner) (fs : Fs) : Decidable (Unhindered inner fs) :=
  inferInstanceAs (Decidable (_ ∧ _))

/-- **A flush that leans on its directory** leaves an engine that stands on it. -/
theorem Leans.flush_ensures (calm : world.Calm) (leans : Leans env.hashes world.now inner lsm snapshots)
    (full : inner.memtable.isEmpty = false) :
    Ensures (EngineInner.flushInner env) (inner, world) fun _ after =>
      Stands env.hashes after.2.now after.1 lsm.flush [] snapshots ∧ after.1.memtable = Memtable.new ∧
      Fs.Tidies world.now after.2.now ∧
      after.2.now.content (tmpName (sstFilename 0 lsm.nextId)) = none ∧ Unhindered inner world.now ∧
      Passes (fun _ => True) world after.2 := by
  have filled : lsm.memtable.entries.isEmpty = false := by
    rw [← leans.memtable]
    exact full
  obtain ⟨dir, described, l0, l1, rfl⟩ := leans.described
  refine (leans.toInMemory.flush_ensures calm described full).mono fun _ after facts => ?_
  obtain ⟨memory, memtable, described', linked, tidies, gone, unwritten, present, passes⟩ := facts
  have stored : ({ dir.pushL0 (lsm.nextId, lsm.memtable) with log := some Wal.fileHeader } : Dir) =
      lsm.flush.stored [] dir.snapshots := by
    rw [Lsm.flush_full filled]
    show (⟨(lsm.nextId, lsm.memtable) :: dir.l0.filter (fun table => table.1 ≠ lsm.nextId), dir.l1, _, _⟩ :
      Dir) = _
    rw [l0, l1]
    rfl
  refine ⟨⟨memory, stored ▸ described', linked, tidies.unsnapped leans.unsnapped⟩, memtable, tidies, gone,
    ⟨leans.next ▸ unwritten, described.log ▸ present⟩, passes.mono fun _ _ => trivial⟩

/-- **A flush that leans on its directory**, if it returns: nothing was in its way, and the engine runs
on. -/
theorem Leans.flush_running (calm : world.Calm)
    (leans : Leans env.hashes world.now inner lsm snapshots)
    (full : inner.memtable.isEmpty = false) (tidy : world.now.TidyBut lsm.nextId) :
    Ensures (EngineInner.flushInner env) (inner, world) fun _ after =>
      Unhindered inner world.now ∧ Running env.hashes after.2.now after.1 lsm.flush [] snapshots ∧
        after.2.Calm := by
  refine (leans.flush_ensures calm full).mono fun _ flushed facts => ?_
  obtain ⟨stands, memtable, tidies, gone, unhindered, passes⟩ := facts
  have tidy' : flushed.2.now.Tidy := by
    intro name tmp
    by_cases same : name = tmpName (sstFilename 0 lsm.nextId)
    · rw [same]
      exact gone
    · exact tidies name tmp (tidy name tmp same)
  exact ⟨unhindered,
    ⟨⟨stands, tidy'⟩, fun _ member => absurd member List.not_mem_nil, memtable⟩, passes.calm calm⟩

/-- **The LSM part of a flush** keeps the values. -/
theorem Leans.flushLsm_ensures (calm : world.Calm)
    (leans : Leans env.hashes world.now inner lsm snapshots)
    (full : inner.memtable.isEmpty = false) (tidy : world.now.TidyBut lsm.nextId) :
    Ensures (Engine.flushLsm env) (inner, world) fun marker after => Unhindered inner world.now ∧
      ∃ lsm', Running env.hashes after.2.now after.1 lsm' [] snapshots ∧ marker = lsm.marker lsm' ∧
        (∀ key, lsm'.value key = lsm.value key) ∧ after.2.Calm := by
  refine Ensures.bind_ok (Engine.lockInner_running leans.running) (Ensures.bind
    ((leans.flush_running calm full tidy).mono fun _ flushed facts => ?_))
  obtain ⟨unhindered, running, calm'⟩ := facts
  obtain ⟨inner', world'⟩ := flushed
  refine Ensures.bind ((maybeCompact_standing calm' running.standing).mono fun _ compacted facts => ?_)
  obtain ⟨⟨lsm', which, standing⟩, tidies, passes⟩ := facts
  obtain ⟨inner'', world''⟩ := compacted
  refine (standing.stands.changedId_ensures leans.next).mono fun marker after facts => ?_
  obtain ⟨same, rfl⟩ := facts
  refine ⟨unhindered, lsm', running.onward tidies standing, same, fun key => ?_, passes.calm calm'⟩
  rcases which with rfl | rfl
  · exact lsm.value_flush key
  · exact (lsm.flush.value_compact key).trans (lsm.value_flush key)

/-- It returns, if nothing is in its way, and there are ids and room. -/
theorem Leans.flushLsm_succeeds (calm : world.Calm)
    (leans : Leans env.hashes world.now inner lsm snapshots)
    (full : inner.memtable.isEmpty = false) (tidy : world.now.TidyBut lsm.nextId)
    (unhindered : Unhindered inner world.now) (small : lsm.nextId + 2 < u64Bound)
    (roomy : inner.room ≤ roomBound) : Succeeds (Engine.flushLsm env) (inner, world) fun _ _ => True := by
  refine Succeeds.bind_ok (Engine.lockInner_running leans.running) ?_
  have fits := leans.room_le.trans roomy
  have flushes := (leans.flush_running calm full tidy).mono fun _ after facts =>
    (⟨⟨lsm.flush, [], .moved, facts.2.1⟩, facts.2.2⟩ :
      (∃ lsm' records', Flushed lsm [] lsm' records' ∧
        Running env.hashes after.2.now after.1 lsm' records' snapshots) ∧ after.2.Calm)
  obtain ⟨dir, described, _⟩ := leans.described
  have returns := leans.flush_succeeds calm described full (leans.next ▸ unhindered.1)
    (described.log ▸ unhindered.2) (by omega) fits
  exact settle_succeeds _ returns flushes small fits

variable [LinearOrder D]

/-- Flushing the one engine empties its memtable, and every key reads as it does on the other one. -/
def FlushesAs (env : Env D) (state before : Engine × Fs) : Prop :=
  ∃ engine after, Engine.flush env (state.1, World.fresh state.2) = .ok () (engine, after) ∧
    engine.inner.memtable.isEmpty = true ∧
    ∀ key, answer env (engine, after.now) key = answer env before key

omit [LinearOrder D] in
theorem Running.answer {engine : Engine} {records : List Record}
    (running : Running env.hashes fs engine.inner lsm records snapshots) (key : Key) :
    answer env (engine, fs) key = some (.ok (Entry.visible (lsm.value key))) := by
  obtain ⟨_, found⟩ := gets_newest (World.fresh_calm fs) running engine.vectorIndex key
  rw [Sastran.answer, found, Lsm.value, Entry.visible_filter]
  rfl

/-- **A flush that leans on its directory**, as a call. -/
theorem Leans.flushes (leans : Leans env.hashes fs inner lsm snapshots)
    (full : inner.memtable.isEmpty = false) (tidy : fs.TidyBut lsm.nextId) (index : VectorIndex) :
    Ensures (Engine.flush env) (⟨inner, index⟩, World.fresh fs) fun _ after => Unhindered inner fs ∧
      after.1.inner.memtable.isEmpty = true ∧
      ∀ key, answer env (after.1, after.2.now) key = some (.ok (Entry.visible (lsm.value key))) := by
  refine Ensures.bind (Ensures.zoom ((leans.flushLsm_ensures (World.fresh_calm fs) full tidy).mono
    fun marker logged facts => ?_))
  obtain ⟨unhindered, lsm', running, same, value, calm⟩ := facts
  obtain ⟨inner', world⟩ := logged
  have holds : Holds env.hashes world.now (Engine.mk inner' index).inner lsm' _ snapshots := running.holds
  subst same
  refine (writeSnapshotAfter_ensures calm holds (Lsm.marker_small running.holds.small)).mono
    fun _ after facts => ?_
  obtain ⟨engine, holds', _⟩ := facts
  have running' : Running env.hashes after.2.now after.1.inner lsm' []
      (snapshotsAfter env index snapshots (lsm.marker lsm')) := by
    rw [engine]
    exact ⟨holds', running.valid, running.memtable⟩
  refine ⟨unhindered, ?_, fun key => ?_⟩
  · rw [running'.memtable]
    rfl
  · rw [← value key]
    exact running'.answer key

/-- It returns, if nothing is in its way, and there are ids and room. -/
theorem Leans.flush_returns (leans : Leans env.hashes fs inner lsm snapshots)
    (full : inner.memtable.isEmpty = false) (tidy : fs.TidyBut lsm.nextId) (index : VectorIndex)
    (unhindered : Unhindered inner fs) (small : lsm.nextId + 2 < u64Bound)
    (roomy : Call.flush.Roomy env ⟨inner, index⟩ fs) :
    Succeeds (Engine.flush env) (⟨inner, index⟩, World.fresh fs) fun _ _ => True := by
  have calm := World.fresh_calm fs
  refine Succeeds.bind (Succeeds.zoom (((leans.flushLsm_succeeds calm full tidy unhindered small
    roomy.data).of_ensures (leans.flushLsm_ensures calm full tidy)).mono fun marker logged facts => ?_))
  obtain ⟨_, lsm', running, same, _, calm'⟩ := facts
  obtain ⟨inner', world⟩ := logged
  subst same
  have holds : Holds env.hashes world.now (Engine.mk inner' index).inner lsm' _ snapshots := running.holds
  exact writeSnapshotAfter_succeeds calm' holds (Lsm.marker_small running.holds.small)
    fun id => roomy.snapshot index rfl id

/-- **A failed flush can be retried**, if it has left nothing in the temporary file that the next one writes,
and a log. -/
theorem flush_retries {number : Nat} {error : Error} (storable : env.options.hnswParams.Storable)
    (interim : Interim env inner fs) (full : inner.memtable.isEmpty = false)
    (ids : inner.nextSstId + 3 < u64Bound) (index : VectorIndex)
    (failed : EngineInner.flushInner env (inner, { World.fresh fs with failAt := some number }) =
      .err error (inner', world)) :
    (FlushesAs env (⟨inner', index⟩, world.now) (⟨inner, index⟩, fs) → Unhindered inner' world.now) ∧
    (Call.flush.Roomy env ⟨inner', index⟩ world.now → Unhindered inner' world.now →
      FlushesAs env (⟨inner', index⟩, world.now) (⟨inner, index⟩, fs)) := by
  obtain ⟨lsm, records, snapshots, running, _⟩ := interim.running storable
  have small : lsm.nextId + 3 < u64Bound := running.holds.next ▸ ids
  have failing : Holds env.hashes ({ World.fresh fs with failAt := some number } : World Fs).now inner lsm _
    snapshots := running.holds
  obtain ⟨lsm', leans, memtable, newest, next, tidy⟩ :=
    (flushInner_fails failing _ _ failed).leans running.holds (by omega)
  have full' : inner'.memtable.isEmpty = false := by rw [memtable]; exact full
  have ensures := leans.flushes full' tidy index
  refine ⟨fun flushes => ?_, fun roomy unhindered => ?_⟩
  · obtain ⟨engine, after, run, _⟩ := flushes
    exact (ensures _ _ run).1
  · obtain ⟨_, ⟨engine, after⟩, run, _, empty, answers⟩ :=
      (leans.flush_returns full' tidy index unhindered (by omega) roomy).of_ensures ensures
    refine ⟨engine, after, run, empty, fun key => (answers key).trans ?_⟩
    have before : Running env.hashes fs (Engine.mk inner index).inner lsm records snapshots := running
    rw [before.answer key, Lsm.value, newest key]
    rfl

/-- Few entries are flushed by themselves, and two tables are merged. -/
def Env.merging : Env Nat := Env.zeroOne ⟨1000, 2, 0, ⟨.euclideanSquared, 1, 2, 1, 1, 0, 0⟩⟩

/-- A key is put and flushed, and deleted again; the flush of that fails where the new log has no header yet.
The next one finds the log, and goes through. -/
theorem flush_retries_headless : ∃ inner inner' fs fs' index,
    Interim Env.merging inner fs ∧ fs'.content WAL_FILENAME = some [] ∧
    FlushesAs Env.merging (⟨inner', index⟩, fs') (⟨inner, index⟩, fs) := by
  have run : (serve Env.merging (fun server => decide server.engine.Few) Fs.empty
      [(0, some (.put [7] [1])), (0, none), (0, none), (0, some .flush), (0, none), (0, none), (0, none),
        (0, none), (0, none), (0, some (.delete [7])), (0, none), (0, none)]).bind (fun server =>
        (EngineInner.flushInner Env.merging (server.engine.inner,
          { World.fresh server.disk with failAt := some 14 })).raised.map fun after =>
          ((server.engine.inner.memtable.isEmpty, server.engine.inner.nextSstId),
            after.2.2.now.content WAL_FILENAME, decide (Unhindered after.2.1 after.2.2.now),
            decide (Call.flush.Roomy Env.merging ⟨after.2.1, server.engine.vectorIndex⟩ after.2.2.now))) =
      some ((false, 1), some [], true, true) := by decide +kernel
  obtain ⟨server, served, run⟩ := Option.bind_eq_some_iff.mp run
  obtain ⟨⟨error, inner', world⟩, failed, facts⟩ := Option.map_eq_some_iff.mp run
  obtain ⟨facts, rest⟩ := Prod.mk.inj facts
  obtain ⟨full, next⟩ := Prod.mk.inj facts
  obtain ⟨headless, rest⟩ := Prod.mk.inj rest
  obtain ⟨unhindered, roomy⟩ := Prod.mk.inj rest
  have interim : Interim Env.merging server.engine.inner server.disk :=
    .between (.of_serve .empty served fun _ few => of_decide_eq_true few)
  have ids : server.engine.inner.nextSstId + 3 < u64Bound := by
    have one : server.engine.inner.nextSstId = 1 := next
    rw [one]
    decide
  obtain ⟨_, retries⟩ := flush_retries
    ⟨⟨by decide, by decide, by decide, by decide, by decide⟩, by decide⟩ interim full ids
    server.engine.vectorIndex (Outcome.raised_eq_some.mp failed)
  exact ⟨_, _, _, _, _, interim, headless,
    retries (of_decide_eq_true roomy) (of_decide_eq_true unhindered)⟩

/-- Where the write of the index fails, the temporary file is not empty, and the next flush does not return. -/
theorem flush_retries_fails :
    ¬ ∀ inner inner' fs world index number error, Interim Env.merging inner fs →
      inner.memtable.isEmpty = false →
      EngineInner.flushInner Env.merging (inner, { World.fresh fs with failAt := some number }) =
        .err error (inner', world) →
      FlushesAs Env.merging (⟨inner', index⟩, world.now) (⟨inner, index⟩, fs) := by
  intro claimed
  have run : (serve Env.merging (fun server => decide server.engine.Few) Fs.empty
      [(0, some (.put [7] [1])), (0, none), (0, none)]).bind (fun server =>
        (EngineInner.flushInner Env.merging (server.engine.inner,
          { World.fresh server.disk with failAt := some 3 })).raised.map fun after =>
          (server.engine.inner.memtable.isEmpty, (Engine.flush Env.merging
            (⟨after.2.1, server.engine.vectorIndex⟩, World.fresh after.2.2.now)).left.isSome)) =
      some (false, false) := by decide +kernel
  obtain ⟨server, served, run⟩ := Option.bind_eq_some_iff.mp run
  obtain ⟨⟨error, inner', world⟩, failed, facts⟩ := Option.map_eq_some_iff.mp run
  obtain ⟨full, stuck⟩ := Prod.mk.inj facts
  have interim : Interim Env.merging server.engine.inner server.disk :=
    .between (.of_serve .empty served fun _ few => of_decide_eq_true few)
  obtain ⟨engine, after, flushed, _⟩ := claimed _ _ _ _ server.engine.vectorIndex 3 error interim full
    (Outcome.raised_eq_some.mp failed)
  have returned := Outcome.left_eq_some.mpr ⟨(), flushed⟩
  rw [returned] at stuck
  cases stuck

end Sastran

/-
Index and LSM state behind a call that fails.

A call that ends with an I/O error ends in one of three places. In front of the memtable update and behind
the index step, index and LSM state agree as before; in the automatic flush or in the compaction between
them, the index lacks what the memtable has.

* `settle_fails` - a flush or a compaction that fails changes no newest entry.
* `failed_call_mirrors` - where the index mirrors the LSM state behind a failed call.
-/

import Sastran.Engine.FailedFlush
import Sastran.Engine.History

namespace Sastran

open Device VectorIndex

variable {D : Type} {env : Env D} {world : World Fs} {inner : EngineInner} {lsm lsm' : Lsm}
  {records records' : List Record} {snapshots : List (Nat × Bytes)}

/-! ### A flush or a compaction that fails -/

/-- A flush that fails changes no newest entry. -/
theorem FlushFailure.newest {fs fs' : Fs} {inner' : EngineInner} {log : Bytes}
    (failure : FlushFailure env.hashes lsm inner fs inner' fs')
    (holds : Holds env.hashes fs inner lsm log snapshots) : inner'.Newest env.hashes lsm.newest := by
  cases failure with
  | writing _ => exact holds.newest
  | published _ _ => exact holds.newest
  | registered _ _ reads _ _ =>
    -- the table is in memory twice
    obtain ⟨maps, loaded, same⟩ := holds.newest
    refine ⟨lsm.memtable :: maps, List.Forall₂.cons reads loaded, ?_⟩
    funext key
    rw [same]
    show newestOf (inner.memtable.map.find? :: _) key = newestOf (inner.memtable.map.find? :: _) key
    rw [holds.memtable, List.map_cons, newestOf_cons, newestOf_cons, newestOf_cons, ← Option.or_assoc,
      Option.or_self]

theorem Flushed.newest (flushed : Flushed lsm records lsm' records') (key : Key) :
    lsm'.newest key = lsm.newest key := by
  cases flushed with
  | kept => rfl
  | moved => exact lsm.newest_flush key

/-- **A flush or a compaction that fails** changes no newest entry. -/
theorem settle_fails (running : Running env.hashes world.now inner lsm records snapshots) (before : Nat) :
    Fails (do EngineInner.maybeAutoFlush env; EngineInner.maybeCompact env; Engine.changedId before)
      (inner, world) fun _ after => after.1.Newest env.hashes lsm.newest := by
  have flushes : Ensures (EngineInner.maybeAutoFlush env) (inner, world) fun _ after => ∃ lsm' records',
      Flushed lsm records lsm' records' ∧
        Running env.hashes after.2.now after.1 lsm' records' snapshots := by
    exact (EngineInner.maybeAutoFlush_even.calm (maybeAutoFlush_running world.calmed_calm running)).mono
      fun _ after facts => facts.1
  refine Fails.bind (Fails.bind_ok rfl (Fails.ite (fun _ => ?_) fun _ => Fails.pure _))
    (flushes.mono fun _ flushed facts => ?_)
  · exact (flushInner_fails running.holds).mono fun _ after failure => failure.newest running.holds
  · obtain ⟨lsm', records', step, running'⟩ := facts
    obtain ⟨inner', world'⟩ := flushed
    have newest : lsm'.newest = lsm.newest := funext step.newest
    refine Fails.bind (Fails.bind_ok rfl (Fails.ite (fun _ => Fails.pure _) fun _ => ?_)) fun _ _ _ => nofun
    refine compactL0L1_fails.mono fun _ after same => ?_
    rw [same, ← newest]
    exact running'.holds.newest

/-! ### The other steps -/

variable [LinearOrder D]

/-- The error is about an argument. -/
def Error.IsArgument (error : Error) : Prop := ∃ text, error = .invalidArgument text

namespace IndexM

variable (ops : FloatOps D) {index : VectorIndex}

theorem onHnsw_fails {α : Type} {program : Prog Error HnswIndex α}
    (fails : ∀ hnsw, Fails program hnsw fun error _ => error.IsArgument) :
    Fails (onHnsw program) index fun error _ => error.IsArgument := Fails.zoom (fails _)

theorem dropKey_fails (key : Key) : Fails (dropKey ops key) index fun error _ => error.IsArgument := by
  refine Fails.bind_ok rfl ?_
  split
  · exact Fails.pure ()
  · refine Fails.bind nofun fun _ _ _ => onHnsw_fails fun hnsw => Fails.bind_ok rfl ?_
    refine Fails.ite (fun _ => Fails.throw ⟨_, rfl⟩) fun _ => Fails.ite (fun _ => Fails.throw ⟨_, rfl⟩)
      fun _ => ?_
    exact Fails.bind (Fails.ofOption _) fun _ _ _ => nofun

theorem addKey_fails (key : Key) (embedding : List F32) :
    Fails (addKey ops key embedding) index fun error _ => error.IsArgument := by
  refine Fails.bind (onHnsw_fails fun hnsw => ?_) fun _ _ _ => nofun
  refine Fails.bind (Fails.bind_ok rfl ?_) fun _ established _ => Fails.bind_ok rfl ?_
  · refine Fails.ite (fun _ => Fails.ite (fun _ => Fails.throw ⟨_, rfl⟩) fun _ => nofun) fun _ => ?_
    exact Fails.ite (fun _ => Fails.throw ⟨_, rfl⟩) fun _ => Fails.pure ()
  · split
    · exact Fails.throw ⟨_, rfl⟩
    · exact Fails.bind (Fails.ofOption _) fun _ _ _ => Fails.bind nofun fun _ _ _ => Fails.pure _

end IndexM

/-- An index step makes no I/O calls. -/
theorem Call.indexStep_fails (call : Call) (index : VectorIndex) :
    Fails (call.indexStep env) index fun error _ => error.IsArgument := by
  cases call with
  | put key value => exact Fails.pure ()
  | flush => exact Fails.pure ()
  | delete key => exact IndexM.dropKey_fails env.ops key
  | putIndexed key embedding =>
    refine Fails.bind (Fails.bind_ok rfl ?_) fun _ _ _ =>
      Fails.bind (IndexM.dropKey_fails env.ops key) fun _ _ _ => IndexM.addKey_fails env.ops key embedding
    split
    · exact nofun
    · exact Fails.ite (fun _ => Fails.throw ⟨_, rfl⟩) fun _ => Fails.pure ()

/-- Nor does a check, which changes nothing. -/
theorem Call.check_fails (call : Call) (index : VectorIndex) :
    Fails call.check index fun error after => error.IsArgument ∧ after = index := by
  cases call with
  | putIndexed key embedding =>
    refine Fails.bind_ok rfl (Fails.ite (fun _ => Fails.throw ⟨⟨_, rfl⟩, rfl⟩) fun _ =>
      Fails.ite (fun _ => Fails.throw ⟨⟨_, rfl⟩, rfl⟩) fun _ => ?_)
    split
    · exact Fails.pure ()
    · exact Fails.ite (fun _ => Fails.throw ⟨⟨_, rfl⟩, rfl⟩) fun _ => Fails.pure ()
  | put key value => exact Fails.pure ()
  | delete key => exact Fails.pure ()
  | flush => exact Fails.pure ()

/-- The failing call is still to come. -/
def Due (world : World Fs) : Prop := ∃ number, world.failAt = some number ∧ world.past.length ≤ number

omit [LinearOrder D] in
theorem Due.before {world' : World Fs} (goes : Goes world world') (due : Due world') : Due world := by
  obtain ⟨number, failing, late⟩ := due
  have earlier := goes.length_le
  exact ⟨number, goes.failAt ▸ failing, by omega⟩

omit [LinearOrder D] in
/-- Before a failing call that is still to come, no call has failed. -/
theorem Due.spares {world' : World Fs} (goes : Goes world world') (due : Due world') :
    Spares world world' := by
  obtain ⟨number, failing, late⟩ := due
  intro other failing'
  rw [← goes.failAt, failing] at failing'
  cases failing'
  exact Or.inr late

omit [LinearOrder D] in
theorem ioCall_due {α : Type} {step : Fs → Except Error (α × Fs)}
    (own : ∀ fs, step fs ≠ .error (.io .fault)) :
    Fails (ioCall step) world fun error _ => error = .io .fault → Due world := by
  rintro error after run rfl
  unfold ioCall call at run
  split at run
  · rename_i failing
    exact ⟨_, failing, le_refl _⟩
  · cases stepped : step world.now with
    | ok result => rw [stepped] at run; cases run
    | error error' =>
      rw [stepped] at run
      cases run
      exact absurd stepped (own _)

omit [LinearOrder D] in
/-- A call behind one that returned. -/
theorem Fails.bind_due {α β : Type} {first : IoM α} {next : α → IoM β} (even : Even False first)
    (one : Fails first world fun error _ => error = .io .fault → Due world)
    (two : ∀ value middle, Fails (next value) middle fun error _ => error = .io .fault → Due middle) :
    Fails (first >>= next) world fun error _ => error = .io .fault → Due world := by
  refine Fails.bind one fun value middle run => (two value middle).mono fun error after due fault => ?_
  exact (due fault).before ((even.goes world).1 value middle run)

omit [LinearOrder D] in
theorem ioRead_due {α : Type} {step : Fs → Except Error α} (own : ∀ fs, step fs ≠ .error (.io .fault)) :
    Fails (ioRead step) world fun error _ => error = .io .fault → Due world := by
  refine ioCall_due fun fs => ?_
  cases stepped : step fs with
  | ok value => exact nofun
  | error error =>
    rintro same
    cases same
    exact own fs stepped

omit [LinearOrder D] in
theorem installSnapshot_fails (id : Nat) (bytes : Bytes) :
    Fails (Engine.installSnapshot id bytes) world fun error _ => error = .io .fault → Due world := by
  have synced : ∀ world : World Fs, Fails (ioRead fun _ => (Except.ok () : Except Error Unit)) world
      fun error _ => error = .io .fault → Due world := fun world => ioRead_due fun _ => nofun
  refine Fails.bind_due (ioCall_even _) (ioCall_due fun fs => ?_) fun writer _ =>
    Fails.bind_due (ioCall_even _) (ioCall_due fun fs => ?_) fun _ _ =>
    Fails.bind_due (ioRead_even fun _ => .ok ()) (synced _) fun _ _ =>
    Fails.bind_due (ioCall_even _) (ioCall_due fun fs => ?_) fun _ _ =>
    synced _
  · split <;> exact nofun
  · simp only
    split <;> exact nofun
  · split <;> exact nofun

omit [LinearOrder D] in
/-- **A snapshot that is not written** leaves the engine as it was; if a call failed, it was one of its own. -/
theorem writeSnapshotAfter_fails (marker : Option Nat) (engine : Engine) :
    Fails (Engine.writeSnapshotAfter env marker) (engine, world) fun error after =>
      after.1 = engine ∧ (error = .io .fault → Due world) := by
  cases marker with
  | none => exact Fails.pure ()
  | some id =>
    refine Fails.bind_ok rfl (Fails.bind (Fails.zoom ((installSnapshot_fails _ _).mono
      fun _ after due => ⟨rfl, due⟩)) fun _ _ _ => Fails.zoom ?_)
    refine Fails.bind (Fails.attempt _) fun listed _ _ => ?_
    cases listed with
    | error error => exact Fails.pure ()
    | ok paths =>
      refine forEach_fails (fun path state => ?_) _ _
      unfold Engine.removeOlder
      refine Fails.ite (fun _ => Fails.pure ()) fun _ => ?_
      split
      · exact Fails.pure ()
      · exact Fails.ite (fun _ => ignore_fails _) fun _ => Fails.pure ()

/-! ### The LSM step -/

omit [LinearOrder D] in
theorem logRecord_fails (kind : RecordKind) (key value : Bytes) :
    Fails (Engine.logRecord env kind key value) (inner, world) fun _ after => after.1 = inner := by
  refine Fails.bind ?_ (Ensures.bind_ok rfl (Ensures.ite (fun _ => nofun) fun _ => Ensures.pure ?_))
  · exact Fails.bind_ok rfl (Fails.ite (fun _ => Fails.throw rfl) fun _ => Fails.pure _)
  have kept : ∀ {α : Type} (program : IoM α) (world : World Fs),
      Fails (onWorld program : InnerM α) (inner, world) fun _ after => after.1 = inner :=
    fun program world => Fails.zoom fun _ _ _ => rfl
  refine Fails.bind (kept _ _) (Ensures.zoom fun _ appended _ => ?_)
  exact Fails.bind (kept _ _) (Ensures.zoom fun _ synced _ => Fails.bind nofun fun _ _ _ => Fails.pure _)

/-- The call fails in the flush or in the compaction behind its memtable update. -/
def Call.FailsBehindLog (env : Env D) (call : Call) (state : EngineInner × World Fs) : Prop :=
  (∃ record before logged, call.record = some record ∧
    Engine.logRecord env record.kind record.key record.value state = .ok before logged) ∧
  ∃ error after, call.lsmStep env state = .err error after

omit [LinearOrder D] in
/-- **An LSM step that fails** changes no newest entry, or has made its write. -/
theorem Call.lsmStep_fails {call : Call} {record : Record} (recorded : call.record = some record)
    (running : Running env.hashes world.now inner lsm records snapshots) :
    Fails (call.lsmStep env) (inner, world) fun _ after =>
      (call.FailsBehindLog env (inner, world) →
        after.1.Newest env.hashes (lsm.write record.key record.entry).newest) ∧
      (¬ call.FailsBehindLog env (inner, world) → after.1.Newest env.hashes lsm.newest) := by
  intro error after run
  refine ⟨fun behind => ?_, fun early => ?_⟩
  · obtain ⟨⟨record', before, logged, recorded', ran⟩, _⟩ := behind
    obtain rfl := Option.some.inj (recorded'.symm.trans recorded)
    obtain ⟨_, _, running', _⟩ := logRecord_running running _ _ _ before logged ran
    obtain ⟨inner', world'⟩ := logged
    unfold lsmStep Engine.logMutation at run
    simp only [recorded] at run
    rw [Device.bind_eq, ran] at run
    exact settle_fails running' before error after run
  · have fails : Fails (call.lsmStep env) (inner, world) fun _ after => after.1 = inner := by
      unfold lsmStep
      simp only [recorded]
      refine Fails.bind (logRecord_fails _ _ _) fun before logged ran error after rest => ?_
      refine absurd ⟨⟨record, before, logged, recorded, ran⟩, error, after, ?_⟩ early
      unfold lsmStep Engine.logMutation
      simp only [recorded]
      rw [Device.bind_ok ran]
      exact rest
    rw [fails error after run]
    exact running.holds.newest

/-! ### The index behind a failed call -/

/-- The index is already as the call's index step would make it. -/
def Call.Repeats (env : Env D) (newest : Key → Option Entry) : Call → Prop
  | put _ _ => True
  | putIndexed key embedding => ∃ bytes processed, newest key = some (.vector bytes) ∧
      env.registers (.vector bytes) = some processed ∧
      env.ops.preprocessVector env.options.hnswParams.metric embedding = some processed
  | delete key => ∀ bytes, newest key ≠ some (.vector bytes)
  | flush => True

omit [LinearOrder D] in
/-- **An index without the call's step** mirrors the state with its write, if the step had nothing to do. -/
theorem VectorIndex.Mirrors.write_iff {index : VectorIndex} {newest newest' : Key → Option Entry}
    (mirrors : index.Mirrors env newest) {call : Call} {record : Record}
    (recorded : call.record = some record) (indexing : call.indexKey ≠ none)
    (written : ∀ key, newest' key = if record.key = key then some record.entry else newest key) :
    index.Mirrors env newest' ↔ call.Repeats env newest := by
  have elsewhere : ∀ {key}, record.key ≠ key → newest' key = newest key := fun other => by
    rw [written, if_neg other]
  have here : newest' record.key = some record.entry := by rw [written, if_pos rfl]
  constructor
  · intro mirrors'
    have was := mirrors record.key
    have now := mirrors' record.key
    rw [here] at now
    cases call with
    | put key value => exact absurd rfl indexing
    | flush => exact absurd rfl indexing
    | delete key =>
      cases recorded
      intro bytes found
      rw [found] at was
      obtain ⟨id, _, registered, _⟩ := was
      exact nomatch registered.symm.trans now
    | putIndexed key embedding =>
      cases recorded
      obtain ⟨id, node, registered, held, _, same⟩ := now
      split at was
      · rename_i bytes found
        obtain ⟨id', node', registered', held', _, same'⟩ := was
        obtain rfl := Option.some.inj (registered'.symm.trans registered)
        obtain rfl := Option.some.inj (held'.symm.trans held)
        exact ⟨bytes, node'.vector, found, same', (env.registers_encodeVector embedding).symm.trans same⟩
      · exact nomatch was.symm.trans registered
  · intro repeats key
    by_cases same : record.key = key
    · subst same
      have was := mirrors record.key
      rw [here]
      cases call with
      | put key value => exact absurd rfl indexing
      | flush => exact absurd rfl indexing
      | delete key =>
        cases recorded
        show index.keyToNode.find? key = none
        split at was
        · exact absurd ‹_› (repeats _)
        · exact was
      | putIndexed key embedding =>
        cases recorded
        obtain ⟨bytes, processed, found, registers, accepted⟩ := repeats
        rw [show newest key = _ from found] at was
        obtain ⟨id, node, registered, held, alive, same⟩ := was
        refine ⟨id, node, registered, held, alive, ?_⟩
        rw [env.registers_encodeVector, accepted, ← same, registers]
    · rw [elsewhere same]
      exact mirrors key

/-- **Behind an index step** the index mirrors the state of the LSM step. -/
theorem Indexed.mirrors_after {call : Call} {index index' : VectorIndex}
    (indexed : Indexed env False index lsm snapshots) (view : ∀ key, index.view key = lsm.vectors env key)
    (indexing : call.indexKey ≠ none)
    (effect : call.Effect env index lsm records index' lsm' records') :
    index'.Mirrors env lsm'.newest := by
  have few := indexed.few
  obtain ⟨dim, rebuildable⟩ := indexed.vectors_rebuildable effect
  obtain ⟨sound, stepped⟩ := call.indexStep_ensures effect.valid indexed.sound (by omega) _ _ effect.indexed
  have spared : True → ∀ key value, call = .put key value → lsm.vectors env key = none := by
    rintro _ key value rfl
    exact absurd rfl indexing
  have covers := Indexed.covers_after call effect.settled spared (fun key _ => view key) stepped
  refine (sound.matched.mirrors_iff fun key bytes found => (rebuildable.takes key _ found).2).mpr fun key => ?_
  exact covers key (Or.inl trivial)

/-- **Index and LSM state behind a failed call.** For every state of a run (with fewer than 2^31 nodes)
whose index mirrors the newest entries, and every `put_indexed` or `delete` that one failing I/O call ends:
the index mirrors the newest entries again if and only if the failure is not in the flush or in the
compaction behind the memtable update, or the index had nothing to do. -/
theorem failed_call_mirrors {events : List Event} {engine : Engine} {call : Call} {number : Nat}
    {after : Engine × World Fs} {newest : Key → Option Entry}
    (storable : env.options.hnswParams.Storable) (runs : Runs env events (engine, world))
    (few : Throughout env events Engine.Few) (visible : engine.inner.Newest env.hashes newest)
    (mirrors : engine.vectorIndex.Mirrors env newest) (indexing : call.indexKey ≠ none)
    (run : call.run env (engine, { world with failAt := some number }) = .err (.io .fault) after) :
    ∃ newest', after.1.inner.Newest env.hashes newest' ∧
      (after.1.vectorIndex.Mirrors env newest' ↔
        ¬ call.FailsBehindLog env (engine.inner, { world with failAt := some number }) ∨
          call.Repeats env newest) := by
  obtain ⟨record, recorded⟩ : ∃ record, call.record = some record := by
    cases call with
    | put key value => exact ⟨_, rfl⟩
    | putIndexed key embedding => exact ⟨_, rfl⟩
    | delete key => exact ⟨_, rfl⟩
    | flush => exact absurd rfl indexing
  obtain ⟨lsm, records, snapshots, refines, indexed⟩ := runs.indexed storable few (False.elim : False → _)
  obtain rfl := visible.unique refines.running.holds.newest
  obtain ⟨dim, rebuildable⟩ := indexed.vectors
  have view := (indexed.sound.matched.mirrors_iff fun key bytes found =>
    (rebuildable.takes key _ found).2).mp mirrors
  obtain ⟨failing, failingDef⟩ : ∃ failing : World Fs, failing = { world with failAt := some number } :=
    ⟨_, rfl⟩
  have running : Running env.hashes failing.now engine.inner lsm records snapshots := by
    rw [failingDef]
    exact refines.running
  rw [← failingDef] at run ⊢
  have fails : Fails (call.run env) (engine, failing) fun error after => error = .io .fault →
      ∃ newest', after.1.inner.Newest env.hashes newest' ∧
        (after.1.vectorIndex.Mirrors env newest' ↔
          ¬ call.FailsBehindLog env (engine.inner, failing) ∨ call.Repeats env lsm.newest) := by
    rw [Call.run_eq]
    refine Fails.bind (Fails.zoom ((call.check_fails _).mono ?_)) (Ensures.zoom fun _ index checked => ?_)
    · rintro error index ⟨⟨text, rfl⟩, _⟩ fault
      cases fault
    obtain rfl := call.check_ensures _ _ _ checked
    refine Fails.bind (Fails.zoom ((Call.lsmStep_fails recorded running).mono ?_))
      (Ensures.zoom fun marker settled stepped => ?_)
    · rintro error ⟨inner', world'⟩ ⟨behind, early⟩ _
      by_cases late : call.FailsBehindLog env (engine.inner, failing)
      · refine ⟨_, behind late, (mirrors.write_iff recorded indexing fun key => lsm.newest_write _ _ key).trans
          ⟨Or.inr, fun holds => holds.resolve_left fun not => not late⟩⟩
      · exact ⟨_, early late, ⟨fun _ => Or.inl late, fun _ => mirrors⟩⟩
    have ended : ¬ call.FailsBehindLog env (engine.inner, failing) := by
      rintro ⟨_, error, after, failed⟩
      exact nomatch stepped.symm.trans failed
    refine Fails.bind (Fails.zoom ((call.indexStep_fails _).mono ?_))
      (Ensures.zoom fun _ index' indexStep => ?_)
    · rintro error index ⟨text, rfl⟩ fault
      cases fault
    intro error after marked fault
    obtain ⟨same, due⟩ := writeSnapshotAfter_fails marker _ error after marked
    obtain ⟨inner', world'⟩ := settled
    -- the failing call is one of the snapshot's: the LSM step ran as if none failed
    have even : Even False (call.lsmStep env) := by
      unfold Call.lsmStep
      simp only [recorded]
      exact Engine.logMutation_even _ _ _
    have spares : Spares failing world' := (due fault).spares ((even.goes _).1 _ _ stepped)
    obtain ⟨valid, ⟨lsm', records', settled, running', _⟩, _⟩ :=
      call.lsmStep_running failing.calmed_calm running _ _ (even.returns _ _ _ stepped spares)
    have after_newest : after.1.inner.Newest env.hashes lsm'.newest := by
      rw [same]
      exact running'.holds.newest
    have after_mirrors : after.1.vectorIndex.Mirrors env lsm'.newest := by
      rw [same]
      exact indexed.mirrors_after view indexing ⟨checked, valid, settled, indexStep⟩
    exact ⟨_, after_newest, ⟨fun _ => Or.inl ended, fun _ => after_mirrors⟩⟩
  exact fails _ _ run rfl

/-- A newly opened engine. -/
theorem Runs.mirrors_nothing {engine : Engine} (runs : Runs env [] (engine, world)) :
    engine.inner.Newest env.hashes (fun _ => none) ∧ engine.vectorIndex.Mirrors env fun _ => none := by
  have run := runs.runAll_eq
  unfold runAll at run
  split at run
  · rename_i engine' world' opened
    obtain ⟨rfl, rfl⟩ := Prod.mk.inj (Option.some.inj run)
    obtain ⟨same, next, running⟩ := open_empty opened
    refine ⟨running.holds.newest, fun key => ?_⟩
    rw [same]
    rfl
  · cases run

/-- The first vector of an empty engine: its flush cannot open the table. -/
theorem failed_call_mirrors_first :
    let env : Env Nat := Env.zeroOne ⟨1, 4, 0, ⟨.euclideanSquared, 1, 2, 1, 1, 0, 0⟩⟩
    ∃ (engine : Engine) (world : World Fs) (after : Engine × World Fs) (newest : Key → Option Entry),
      after.1.inner.Newest env.hashes newest ∧
      (after.1.vectorIndex.Mirrors env newest ↔
        ¬ (Call.putIndexed [7] [0]).FailsBehindLog env (engine.inner, { world with failAt := some 11 }) ∨
          (Call.putIndexed [7] [0]).Repeats env fun _ => none) := by
  intro env
  have run : ((runAll env []).bind fun state => ((Call.putIndexed [7] [0]).run env
      (state.1, { state.2 with failAt := some 11 })).raised).map Prod.fst = some (.io .fault) := by
    decide +kernel
  obtain ⟨⟨error, after⟩, raised, fault⟩ := Option.map_eq_some_iff.mp run
  obtain rfl : error = .io .fault := fault
  obtain ⟨⟨engine, world⟩, ran, raised⟩ := Option.bind_eq_some_iff.mp raised
  have few : Throughout env [] Engine.Few := Throughout.of_runAll (by decide +kernel)
  have runs := Runs.of_runAll ran
  obtain ⟨visible, mirrors⟩ := runs.mirrors_nothing
  obtain ⟨newest, found, exactly⟩ := failed_call_mirrors ⟨⟨by decide, by decide, by decide, by decide,
    by decide⟩, by decide⟩ runs few visible mirrors (by decide) (Outcome.raised_eq_some.mp raised)
  exact ⟨engine, world, after, newest, found, exactly⟩

/-- The vector is in the memtable then, and the index does not have it. -/
theorem failed_call_mirrors_fails :
    let env : Env Nat := Env.zeroOne ⟨1, 4, 0, ⟨.euclideanSquared, 1, 2, 1, 1, 0, 0⟩⟩
    ¬ ∀ (events : List Event) (engine : Engine) (world : World Fs) (newest : Key → Option Entry)
        (call : Call) (number : Nat) (after : Engine × World Fs), Runs env events (engine, world) →
      engine.inner.Newest env.hashes newest → engine.vectorIndex.Mirrors env newest →
      call.indexKey ≠ none →
      call.run env (engine, { world with failAt := some number }) = .err (.io .fault) after →
      ∃ newest', after.1.inner.Newest env.hashes newest' ∧ after.1.vectorIndex.Mirrors env newest' := by
  intro env claimed
  have run : (((runAll env []).bind fun state => ((Call.putIndexed [7] [0]).run env
      (state.1, { state.2 with failAt := some 11 })).raised).map fun raised => (raised.1,
        (raised.2.1.inner.levels.l0 ++ raised.2.1.inner.levels.l1).length,
        raised.2.1.inner.memtable.map.find? [7])) =
      some (.io .fault, 0, some (.vector [0, 0, 0, 0])) := by decide +kernel
  have unregistered : (((runAll env []).bind fun state => ((Call.putIndexed [7] [0]).run env
      (state.1, { state.2 with failAt := some 11 })).raised).map fun raised =>
        raised.2.1.vectorIndex.keyToNode.find? [7]) = some none := by decide +kernel
  obtain ⟨⟨error, after⟩, raised, facts⟩ := Option.map_eq_some_iff.mp run
  rw [raised] at unregistered
  simp only [Prod.mk.injEq] at facts
  obtain ⟨rfl, tables, written⟩ := facts
  obtain ⟨⟨engine, world⟩, ran, raised⟩ := Option.bind_eq_some_iff.mp raised
  have runs := Runs.of_runAll ran
  obtain ⟨visible, mirrors⟩ := runs.mirrors_nothing
  obtain ⟨newest, found, mirrors'⟩ := claimed [] engine world _ (.putIndexed [7] [0]) 11 after runs visible
    mirrors (by decide) (Outcome.raised_eq_some.mp raised)
  have here := mirrors' [7]
  rw [found.memtable tables, written] at here
  obtain ⟨id, _, registered, _⟩ := here
  exact nomatch registered.symm.trans (Option.some.inj unregistered)

end Sastran

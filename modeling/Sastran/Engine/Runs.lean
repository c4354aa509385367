/-
Runs: a directory that starts out empty, and calls and reopenings that all returned.

Over a run the engine is a map: a key reads as what was written last (`lsm_refines_map`), whichever
flushes, compactions and reopenings came in between. `Runs.running` is the invariant.
-/

import Sastran.Engine.Calls

namespace Sastran

open Device SsTable

variable {D : Type} [LinearOrder D] {env : Env D}

/-- A call, or closing the engine and opening its directory again. -/
inductive Event where
  | call (call : Call)
  | reopen

def Event.run (env : Env D) : Event → EngineM Unit
  | .call request => request.run env
  | .reopen => Engine.reopen env

/-- The states that events lead to, all of which returned, on a file system that never failed. -/
inductive Runs (env : Env D) : List Event → Engine × World Fs → Prop
  | opened {engine : Engine} {world : World Fs}
      (run : Engine.open env (World.fresh Fs.empty) = .ok engine world) : Runs env [] (engine, world)
  | step {events : List Event} {before after : Engine × World Fs} (event : Event)
      (runs : Runs env events before) (run : event.run env before = .ok () after) :
      Runs env (events ++ [event]) after

/-- Run one event after the other, as long as they return. -/
def runAll (env : Env D) (events : List Event) : Option (Engine × World Fs) :=
  match Engine.open env (World.fresh Fs.empty) with
  | .ok engine world => events.foldlM (fun state event => (event.run env state).left) (engine, world)
  | _ => none

theorem Runs.of_runAll {events : List Event} {state : Engine × World Fs}
    (run : runAll env events = some state) : Runs env events state := by
  unfold runAll at run
  split at run
  · rename_i engine world opened
    induction events using List.reverseRecOn generalizing state with
    | nil =>
      cases run
      exact .opened opened
    | append_singleton events event ih =>
      rw [List.foldlM_append] at run
      obtain ⟨before, ran, last⟩ := Option.bind_eq_some_iff.mp run
      rw [List.foldlM_cons] at last
      obtain ⟨after, stepped, same⟩ := Option.bind_eq_some_iff.mp last
      obtain ⟨_, returned⟩ := Outcome.left_eq_some.mp stepped
      cases same
      exact (ih ran).step event returned
  · cases run

/-- What a call writes: the last write of a key decides, and a deletion leaves nothing. -/
def Call.writes (call : Call) (map : Key → Option Entry) (key : Key) : Option Entry :=
  match call with
  | put target value => if target = key then some (.put value) else map key
  | putIndexed target embedding => if target = key then some (.vector (encodeVector embedding)) else map key
  | delete target => if target = key then none else map key
  | flush => map key

/-- **The reference map** of a history. -/
def reference : List Event → Key → Option Entry :=
  List.foldl (fun map event => match event with
    | .call request => request.writes map
    | .reopen => map) fun _ => none

@[simp] theorem reference_call (events : List Event) (call : Call) :
    reference (events ++ [.call call]) = call.writes (reference events) := by
  rw [reference, List.foldl_append, ← reference]
  rfl

@[simp] theorem reference_reopen (events : List Event) :
    reference (events ++ [.reopen]) = reference events := by
  rw [reference, List.foldl_append, ← reference]
  rfl

/-- A call's record writes what the call does. -/
theorem Call.value_log (call : Call) (lsm : Lsm) (key : Key) :
    (lsm.log call.record).value key = call.writes lsm.value key := by
  cases call with
  | flush => rfl
  | put target value =>
    show (lsm.write target (.put value)).value key = _
    rw [Lsm.value_write]
    rfl
  | putIndexed target embedding =>
    show (lsm.write target (.vector (encodeVector embedding))).value key = _
    rw [Lsm.value_write]
    rfl
  | delete target =>
    show (lsm.write target .tombstone).value key = _
    rw [Lsm.value_write]
    rfl

/-! ### The invariant -/

variable {world : World Fs} {lsm : Lsm} {records : List Record} {snapshots : List (Nat × Bytes)}

omit [LinearOrder D] in
/-- The directory of a running engine is recovered to the same state, but for the next id. -/
theorem Running.recovered {inner : EngineInner} {fs : Fs}
    (running : Running env.hashes fs inner lsm records snapshots) (next : Nat) :
    (lsm.stored (logBytes env.hashes records) snapshots).recovered records next =
      { lsm with nextId := next } := by
  obtain ⟨l0, l1⟩ := Dir.live_of_ordered running.holds.ordered
    (rfl : (lsm.stored (logBytes env.hashes records) snapshots).l0 = lsm.l0) rfl
  have memtable : (Memtable.replay records).map = lsm.memtable := by
    rw [← running.memtable, running.holds.memtable]
  rw [Dir.recovered, l0, l1, memtable]

theorem close_ensures {engine : Engine} (world : World Fs) (running : engine.inner.closed = false) :
    Ensures (Engine.onInner Engine.close) (engine, world) fun _ after => Quiet world after.2 := by
  refine Ensures.zoom (Ensures.bind_ok rfl ?_)
  show Ensures (if engine.inner.closed = true then _ else _) (engine.inner, world) _
  rw [running, if_neg Bool.false_ne_true]
  refine Ensures.bind (Ensures.zoom (FileAppend.sync_ensures.mono fun _ synced quiet => ?_))
  intro _ after run
  cases run
  exact quiet

/-- **Reopening** finds the state that was closed. -/
theorem reopen_ensures {engine : Engine} (calm : world.Calm)
    (running : Running env.hashes world.now engine.inner lsm records snapshots) :
    Ensures (Engine.reopen env) (engine, world) fun _ after => ∃ next,
      IsNext (lsm.tables.map Prod.fst) next ∧
      Running env.hashes after.2.now after.1.inner { lsm with nextId := next } records
        (lsm.stored (logBytes env.hashes records) snapshots).latest.toList ∧ after.2.Calm := by
  refine Ensures.bind ((close_ensures world running.holds.running).mono fun _ closed quiet => ?_)
  obtain ⟨engine', world'⟩ := closed
  have described : Describes env.hashes world'.now (lsm.stored (logBytes env.hashes records) snapshots) :=
    quiet.now ▸ running.described
  have log : LogHolds env.hashes (lsm.stored (logBytes env.hashes records) snapshots).log records
      (logBytes env.hashes records) := LogHolds.whole running.valid
  have calm' := quiet.calm calm
  refine Ensures.bind (Ensures.zoom ?_)
  intro opened after run
  obtain ⟨next, isNext, running'⟩ := open_ensures calm' described log opened after run
  rw [running.recovered] at running'
  have passes := (open_leads calm' described log).1 opened after run
  intro _ last ran
  cases ran
  exact ⟨next, isNext, running', passes.calm calm'⟩

/-- The invariant of runs: a running engine whose values are those of the reference map. -/
structure Refines (env : Env D) (events : List Event) (state : Engine × World Fs) (lsm : Lsm)
    (records : List Record) (snapshots : List (Nat × Bytes)) : Prop where
  calm : state.2.Calm
  running : Running env.hashes state.2.now state.1.inner lsm records snapshots
  value : ∀ key, lsm.value key = reference events key

theorem Refines.opened {engine : Engine} {world : World Fs}
    (run : Engine.open env (World.fresh Fs.empty) = .ok engine world) :
    ∃ next records snapshots, Refines env [] (engine, world)
      (Dir.empty.recovered records next) records snapshots := by
  have log : LogHolds env.hashes Dir.empty.log [] (logBytes env.hashes []) := .absent
  have calm := World.fresh_calm Fs.empty
  obtain ⟨next, _, running⟩ := open_ensures calm Describes.empty log engine world run
  exact ⟨next, [], _, ((open_leads calm Describes.empty log).1 engine world run).calm calm, running,
    fun key => rfl⟩

omit [LinearOrder D] in
theorem Refines.call {events : List Event} {before after : Engine × World Fs} {call : Call} {lsm' : Lsm}
    {records' : List Record} {snapshots' : List (Nat × Bytes)}
    (refines : Refines env events before lsm records snapshots) (calm : after.2.Calm)
    (settled : Settled (lsm.log call.record) (records ++ call.record.toList) lsm' records')
    (running : Running env.hashes after.2.now after.1.inner lsm' records' snapshots') :
    Refines env (events ++ [.call call]) after lsm' records' snapshots' := by
  refine ⟨calm, running, fun key => ?_⟩
  have same : lsm.value = reference events := funext refines.value
  rw [settled.value, call.value_log, same, reference_call]

theorem Refines.step {events : List Event} {before after : Engine × World Fs} {event : Event}
    (refines : Refines env events before lsm records snapshots)
    (run : event.run env before = .ok () after) :
    ∃ lsm' records' snapshots', Refines env (events ++ [event]) after lsm' records' snapshots' := by
  obtain ⟨engine, world⟩ := before
  cases event with
  | call call =>
    obtain ⟨lsm', records', effect, running, passes⟩ :=
      call.ensures refines.calm refines.running _ _ run
    exact ⟨lsm', records', _, refines.call (passes.calm refines.calm) effect.settled running⟩
  | reopen =>
    obtain ⟨next, _, running, calm⟩ := reopen_ensures refines.calm refines.running _ _ run
    refine ⟨_, _, _, calm, running, fun key => ?_⟩
    rw [reference_reopen, ← refines.value]
    rfl

theorem Runs.refines {events : List Event} {state : Engine × World Fs} (runs : Runs env events state) :
    ∃ lsm records snapshots, Refines env events state lsm records snapshots := by
  induction runs with
  | opened run =>
    obtain ⟨next, records, snapshots, refines⟩ := Refines.opened run
    exact ⟨_, _, _, refines⟩
  | step event _ run ih =>
    obtain ⟨lsm, records, snapshots, refines⟩ := ih
    exact refines.step run

/-! ### Lookups -/

omit [LinearOrder D] in
theorem searchTables_succeeds (calm : world.Calm) (key : Key) {entries : List SsTableEntry}
    {tables : List Table} (loaded : Loaded env.hashes entries tables) :
    Succeeds (Engine.searchTables env key entries) world fun result after =>
      result = Entry.visible (newestOf (tables.map fun table => table.2.find?) key) ∧
      Quiet world after := by
  induction loaded generalizing world with
  | nil => exact Succeeds.pure ⟨rfl, Quiet.refl world⟩
  | @cons entry table entries tables same _ ih =>
    refine Succeeds.bind ((SsTableReader.get_succeeds same.2 calm key).mono fun found after facts => ?_)
    obtain ⟨rfl, quiet⟩ := facts
    rw [List.map_cons, newestOf_cons]
    cases held : table.2.find? key with
    | none =>
      rw [Option.none_or]
      refine (ih (quiet.calm calm)).mono fun result last facts => ?_
      exact ⟨facts.1, quiet.trans facts.2⟩
    | some entry =>
      rw [Option.some_or]
      cases entry with
      | put value => exact Succeeds.pure ⟨rfl, quiet⟩
      | vector bytes => exact Succeeds.pure ⟨rfl, quiet⟩
      | tombstone => exact Succeeds.pure ⟨rfl, quiet⟩

theorem Entry.visible_filter (entry : Option Entry) :
    Entry.visible (entry.filter Entry.isLive) = Entry.visible entry := by
  cases entry with
  | none => rfl
  | some entry => cases entry <;> rfl

omit [LinearOrder D] in
/-- **A lookup** sees the value of its key. -/
theorem Holds.get_succeeds {engine : Engine} {log : Bytes} (calm : world.Calm)
    (holds : Holds env.hashes world.now engine.inner lsm log snapshots) (key : Key) :
    Succeeds (Engine.get env key) (engine, world) fun result after =>
      result = Entry.visible (lsm.value key) ∧ after.1 = engine ∧ Quiet world after.2 := by
  have locked : Engine.onInner Engine.lockInner (engine, world) = .ok engine.inner (engine, world) := by
    unfold Engine.onInner Prog.zoom
    rw [Engine.lockInner_running holds.running]
  refine Succeeds.bind ⟨_, _, locked, ?_⟩
  rw [Lsm.value, Entry.visible_filter, Lsm.newest_eq, ← holds.memtable]
  unfold Memtable.get
  beta_reduce
  cases engine.inner.memtable.map.find? key with
  | none =>
    rw [Option.none_or, Lsm.tables]
    have loaded : Loaded env.hashes (engine.inner.levels.l0 ++ engine.inner.levels.l1)
        (lsm.l0 ++ lsm.l1) := List.rel_append holds.l0 holds.l1
    refine Succeeds.zoom ((searchTables_succeeds calm key loaded).mono fun result after facts => ?_)
    exact ⟨facts.1, rfl, facts.2⟩
  | some entry =>
    rw [Option.some_or]
    cases entry with
    | put value => exact Succeeds.pure ⟨rfl, rfl, Quiet.refl world⟩
    | vector bytes => exact Succeeds.pure ⟨rfl, rfl, Quiet.refl world⟩
    | tombstone => exact Succeeds.pure ⟨rfl, rfl, Quiet.refl world⟩

/-- **The engine is a map**, over every run: the newest entry of a key among memtable, L0 and L1 is what
the last call for the key wrote, of the kind it wrote, or a deletion or nothing where that call deleted
it or there was none; and a lookup returns its bytes. -/
theorem lsm_refines_map {events : List Event} {engine : Engine} {world : World Fs}
    (runs : Runs env events (engine, world)) :
    (∃ maps, List.Forall₂ (fun entry map => entry.reader.Reads env.hashes map)
        (engine.inner.levels.l0 ++ engine.inner.levels.l1) maps ∧
      ∀ key, (newestOf (engine.inner.memtable.map.find? :: maps.map SortedMap.find?) key).filter
        Entry.isLive = reference events key) ∧
    ∀ key, ∃ after, Engine.get env key (engine, world) =
      .ok (Entry.visible (reference events key)) after := by
  obtain ⟨lsm, records, snapshots, refines⟩ := runs.refines
  have running := refines.running
  refine ⟨⟨lsm.tables.map Prod.snd, ?_, fun key => ?_⟩, fun key => ?_⟩
  · rw [List.forall₂_map_right_iff]
    exact (List.rel_append running.holds.l0 running.holds.l1).imp fun entry table same => same.2
  · rw [← refines.value, Lsm.value, Lsm.newest, Lsm.layers, running.holds.memtable, List.map_cons]
  · obtain ⟨result, after, run, rfl, _⟩ := running.holds.get_succeeds refines.calm key
    exact ⟨after, by rw [run, refines.value]⟩

/-- A vector that is flushed, deleted and compacted away, and a key that is written before reopening. -/
theorem lsm_refines_map_compacted :
    ∃ engine world, ∀ key, ∃ after,
      Engine.get (Env.zeroOne ⟨1000, 2, 0, ⟨.euclideanSquared, 1, 2, 1, 1, 0, 0⟩⟩) key (engine, world) =
        .ok (if [8] = key then some [2] else none) after := by
  have run : (runAll (Env.zeroOne ⟨1000, 2, 0, ⟨.euclideanSquared, 1, 2, 1, 1, 0, 0⟩⟩)
      [.call (.putIndexed [7] [0]), .call .flush, .call (.delete [7]), .call .flush,
        .call (.put [8] [2]), .reopen]).isSome = true := by decide +kernel
  obtain ⟨⟨engine, world⟩, ran⟩ := Option.isSome_iff_exists.mp run
  refine ⟨engine, world, fun key => ?_⟩
  obtain ⟨after, found⟩ := (lsm_refines_map (Runs.of_runAll ran)).2 key
  refine ⟨after, found.trans ?_⟩
  by_cases eight : [8] = key
  · subst eight
    rfl
  · have other : reference [.call (.putIndexed [7] [0]), .call .flush, .call (.delete [7]), .call .flush,
        .call (.put [8] [2]), .reopen] key = none := by
      show (if [8] = key then _ else if [7] = key then none else
        if [7] = key then _ else none) = none
      rw [if_neg eight]
      by_cases seven : [7] = key
      · rw [if_pos seven]
      · rw [if_neg seven, if_neg seven]
    rw [other, if_neg eight]
    rfl

end Sastran

/-
The engine as a durable map.

Clients take their steps and read keys, the process ends anywhere but in a compaction that would bring
something back, and its directory is opened again and again. Seen from outside each such history is one of
a map that is never lost: `durable_map`.

* `Label` - what is seen of a history, and `Label.writes` - what it does to the map.
* `engineSystem` - the histories of the engine; `durableMap` - those of the map.
* `Stores` - a directory that is recovered to the map, and `lsmStep_stores`, `open_stores` - the steps that
  pass through such directories only.
-/

import Sastran.Engine.HalfCompacted
import Sastran.Engine.Serving
import Sastran.Library.Simulation

namespace Sastran

open Device SsTable

variable {D : Type} [LinearOrder D] {env : Env D} {world : World Fs} {lsm lsm' : Lsm}
  {records records' : List Record} {snapshots : List (Nat × Bytes)} {map : Key → Option Entry}

/-! ### Histories -/

/-- What is seen of a history: the clients' steps, the answers to readers, crashes with the call whose LSM
step was interrupted, and attempts to open the directory. -/
inductive Label where
  | act (act : Act)
  | read (key : Key) (answer : Except Error (Option Bytes))
  | crash (interrupted : Option Call)
  | restart

/-- The LSM step of a call up to its compaction. -/
def Call.uncompacted (env : Env D) (call : Call) : InnerM Unit :=
  match call.record with
  | some record => do
    let _ ← Engine.logRecord env record.kind record.key record.value
    EngineInner.maybeAutoFlush env
  | none => do
    let _ ← Engine.lockInner
    EngineInner.flushInner env

/-- If the step comes to a compaction, it disturbs nothing. -/
def Call.Harmless (env : Env D) (call : Call) (state : EngineInner × World Fs) : Prop :=
  ∀ inner world, call.uncompacted env state = .ok () (inner, world) →
    env.options.l0CompactionTrigger ≤ inner.levels.l0.length →
    ∀ l0 l1, List.Forall₂ (fun entry table => entry.reader.Reads env.hashes table) inner.levels.l0 l0 →
      List.Forall₂ (fun entry table => entry.reader.Reads env.hashes table) inner.levels.l1 l1 →
      Undisturbed inner.memtable l0 l1

/-- Where the process may end: between steps, and between two calls on the file system within one; an LSM
step is interrupted where it has written its record. -/
inductive Server.Halt (env : Env D) (server : Server) : Option Call → Fs → Prop
  | between : Halt env server none server.disk
  | logging {client : Nat} {call : Call} {marker : Option Nat} {inner : EngineInner} {world : World Fs}
      {disk : Fs} (phase : server.clients client = .logging call)
      (run : call.lsmStep env (server.engine.inner, World.fresh server.disk) =
        .ok marker (inner, world)) (point : disk ∈ world.past)
      (harmless : call.Harmless env (server.engine.inner, World.fresh server.disk)) :
      Halt env server (some call) disk
  | installing {client marker : Nat} {bytes : Bytes} {world : World Fs} {disk : Fs}
      (phase : server.clients client = .installing marker bytes)
      (run : Engine.installSnapshot marker bytes (World.fresh server.disk) = .ok () world)
      (point : disk ∈ world.past) : Halt env server none disk
  | cleaning {client marker : Nat} {world : World Fs} {disk : Fs}
      (phase : server.clients client = .cleaning marker)
      (run : Engine.cleanSnapshots marker (World.fresh server.disk) = .ok () world)
      (point : disk ∈ world.past) : Halt env server none disk

/-- **One step of the engine with its clients and its directory.** -/
inductive Moment.Step (env : Env D) : Moment → Label → Moment → Prop
  | act {server server' : Server} {act : Act} (step : server.Step env act server') :
      Step env (.up server) (.act act) (.up server')
  | answered {server : Server} {key : Key} {answer : Option Bytes} {engine : Engine} {world : World Fs}
      (run : Engine.get env key (server.engine, World.fresh server.disk) = .ok answer (engine, world)) :
      Step env (.up server) (.read key (.ok answer)) (.up ⟨engine, world.now, server.clients⟩)
  | failed {server : Server} {key : Key} {error : Error} {engine : Engine} {world : World Fs}
      (run : Engine.get env key (server.engine, World.fresh server.disk) = .err error (engine, world)) :
      Step env (.up server) (.read key (.error error)) (.up ⟨engine, world.now, server.clients⟩)
  | crash {server : Server} {interrupted : Option Call} {disk : Fs}
      (halt : server.Halt env interrupted disk) : Step env (.up server) (.crash interrupted) (.down disk)
  | opened {disk : Fs} {engine : Engine} {world : World Fs}
      (run : Engine.open env (World.fresh disk) = .ok engine world) :
      Step env (.down disk) .restart (.up ⟨engine, world.now, fun _ => .idle⟩)
  | interrupted {disk disk' : Fs} {world : World Fs}
      (ended : Ended (Engine.open env) (World.fresh disk) world) (point : disk' ∈ world.past) :
      Step env (.down disk) .restart (.down disk')

/-- The engine, from an empty directory; whenever it is opened, its options may be others. -/
def engineSystem (D : Type) [LinearOrder D] (hashes : Hashes) : System (Env D × Moment) Label where
  init state := state.1.hashes = hashes ∧ state.2 = .down Fs.empty
  step before label after := after.1.hashes = hashes ∧ (label ≠ .restart → after.1 = before.1) ∧
    Moment.Step after.1 before.2 label after.2

/-- The map after a label: LSM steps write, also one that was interrupted behind its record. -/
def Label.writes : Label → (Key → Option Entry) → Key → Option Entry
  | .act step, map => step.writes map
  | .crash (some call), map => call.writes map
  | _, map => map

/-- A map that answers readers with what was written last. -/
def durableMap : System (Key → Option Entry) Label where
  init map := map = fun _ => none
  step map label map' := map' = label.writes map ∧
    ∀ key answer, label = .read key answer → answer = .ok (Entry.visible (map key))

/-! ### Directories on the way -/

/-- The directory is recovered to the map, unless its log has no header. -/
def Stores (hashes : Hashes) (map : Key → Option Entry) (disk : Fs) : Prop :=
  ∃ dir records, Describes hashes disk dir ∧ Keeps hashes map dir records

omit [LinearOrder D] in
theorem Running.stores {inner : EngineInner} {disk : Fs}
    (running : Running env.hashes disk inner lsm records snapshots) : Stores env.hashes lsm.value disk := by
  refine ⟨_, records, running.holds.described, Or.inl (.whole running.valid), fun _ key => ?_⟩
  rw [running.recovered]
  rfl

omit [LinearOrder D] in
/-- A flush and a compaction pass through directories that store the map, if the compaction disturbs
nothing. -/
theorem settle_stores {flush : InnerM Unit} {inner : EngineInner} (calm : world.Calm)
    (running : Running env.hashes world.now inner lsm records snapshots)
    (flushes : Ensures flush (inner, world) fun _ after =>
      (∃ lsm' records', Flushed lsm records lsm' records' ∧
        Running env.hashes after.2.now after.1 lsm' records' snapshots) ∧
      Passes (fun fs => ∃ dir, FlushCrash lsm (logBytes env.hashes records) snapshots dir ∧
        Describes env.hashes fs dir) world after.2)
    (harmless : ∀ inner' world', flush (inner, world) = .ok () (inner', world') →
      env.options.l0CompactionTrigger ≤ inner'.levels.l0.length →
      ∀ l0 l1, List.Forall₂ (fun entry table => entry.reader.Reads env.hashes table) inner'.levels.l0 l0 →
        List.Forall₂ (fun entry table => entry.reader.Reads env.hashes table) inner'.levels.l1 l1 →
        Undisturbed inner'.memtable l0 l1) :
    Ensures (do flush; EngineInner.maybeCompact env) (inner, world) fun _ after =>
      Passes (Stores env.hashes lsm.value) world after.2 := by
  refine Ensures.bind ((flushes.and (Ensures.itself flush _)).mono fun _ flushed facts => ?_)
  obtain ⟨⟨⟨lsm', records', step, running'⟩, passes⟩, ran⟩ := facts
  obtain ⟨inner', world'⟩ := flushed
  have before : Passes (Stores env.hashes lsm.value) world world' := by
    refine passes.mono fun fs crash => ?_
    obtain ⟨dir, stage, described⟩ := crash
    obtain ⟨_, records'', keeps⟩ := stage.keeps running
    exact ⟨dir, records'', described, keeps⟩
  refine Ensures.bind_ok rfl ?_
  refine Ensures.ite (fun _ => Ensures.pure before) fun reached => ?_
  have undisturbed := harmless inner' world' ran (not_lt.mp reached) _ _ running'.holds.l0.reads
    running'.holds.l1.reads
  rw [← lsm'.resurrects_iff running'.holds.memtable] at undisturbed
  refine (compactL0L1_ensures (passes.calm calm) running'.holds
    running'.holds.tables_valid).mono fun _ after facts => before.trans (facts.2.2.mono fun fs crash => ?_)
  obtain ⟨dir, stage, described⟩ := crash
  obtain ⟨_, keeps⟩ := stage.keeps running' undisturbed
  have same : lsm'.value = lsm.value := funext fun key => step.value key
  exact ⟨dir, records', described, same ▸ keeps⟩

omit [LinearOrder D] in
/-- **The LSM step of a call** passes through directories that store what it writes. -/
theorem Call.lsmStep_stores {inner : EngineInner} (call : Call) (calm : world.Calm)
    (running : Running env.hashes world.now inner lsm records snapshots)
    (harmless : call.Harmless env (inner, world)) :
    Ensures (call.lsmStep env) (inner, world) fun _ after =>
      Passes (Stores env.hashes (call.writes lsm.value)) world after.2 := by
  have written : (lsm.log call.record).value = call.writes lsm.value :=
    funext fun key => call.value_log lsm key
  unfold Call.Harmless Call.uncompacted at harmless
  unfold Call.lsmStep
  cases recorded : call.record with
  | some record =>
    rw [recorded] at harmless written
    refine Ensures.bind (((logRecord_running running record.kind record.key record.value).and
      (Ensures.itself _ _)).mono fun before logged facts => ?_)
    obtain ⟨⟨_, _, running', passes⟩, ran⟩ := facts
    obtain ⟨inner', world'⟩ := logged
    have calm' := passes.calm calm
    have here : Passes (Stores env.hashes (call.writes lsm.value)) world world' := by
      refine passes.mono fun fs same => ?_
      rw [same, ← written]
      exact running'.stores
    show Ensures (EngineInner.maybeAutoFlush env >>= fun _ => EngineInner.maybeCompact env >>= fun _ =>
      Engine.changedId before) (inner', world') _
    rw [← bind_assoc']
    have settles := settle_stores calm' running' (maybeAutoFlush_running calm' running')
      fun inner'' world'' flushed => harmless inner'' world'' ((bind_ok ran _).trans flushed)
    refine Ensures.bind (settles.mono fun _ settled passes' => ?_)
    intro marker after ran
    cases ran
    exact here.trans (written ▸ passes')
  | none =>
    rw [recorded] at harmless written
    have locked : Engine.lockInner (inner, world) = .ok inner (inner, world) :=
      Engine.lockInner_running running.holds.running
    refine Ensures.bind_ok locked ?_
    show Ensures (EngineInner.flushInner env >>= fun _ => EngineInner.maybeCompact env >>= fun _ =>
      Engine.changedId inner.nextSstId) (inner, world) _
    rw [← bind_assoc']
    have flushes := (flushInner_running calm running).mono fun _ after facts =>
      (⟨⟨lsm.flush, facts.1⟩, facts.2⟩ :
        (∃ lsm' records', Flushed lsm records lsm' records' ∧
          Running env.hashes after.2.now after.1 lsm' records' snapshots) ∧ _)
    have settles := settle_stores calm running flushes
      fun inner' world' flushed => harmless inner' world' ((bind_ok locked _).trans flushed)
    refine Ensures.bind (settles.mono fun _ settled passes => ?_)
    intro marker after ran
    cases ran
    exact written ▸ passes

omit [LinearOrder D] in
/-- A directory with other snapshots, of a running engine. -/
theorem Running.stores_snapshots {inner : EngineInner} {fs disk : Fs}
    (running : Running env.hashes fs inner lsm records snapshots) {snapshots' : List (Nat × Bytes)}
    (described : Describes env.hashes disk
      { lsm.stored (logBytes env.hashes records) snapshots with snapshots := snapshots' }) :
    Stores env.hashes lsm.value disk := by
  refine ⟨_, records, described, Or.inl (.whole running.valid), fun _ key => ?_⟩
  show ((lsm.stored (logBytes env.hashes records) snapshots).recovered records 0).value key = _
  rw [running.recovered]
  rfl

/-- **Opening a directory** that stores the map passes through such directories only, and gives an engine
that holds it. -/
theorem open_stores {disk : Fs} (stores : Stores env.hashes map disk) :
    (∀ engine world, Engine.open env (World.fresh disk) = .ok engine world → ∃ lsm records snapshots,
      Running env.hashes world.now engine.inner lsm records snapshots ∧ lsm.value = map) ∧
    ∀ world, Ended (Engine.open env) (World.fresh disk) world → ∀ point ∈ world.past,
      Stores env.hashes map point := by
  obtain ⟨dir, records, described, keeps⟩ := stores
  have calm := World.fresh_calm disk
  by_cases headless : dir.log = some []
  · obtain ⟨error, after, failed, passes⟩ := open_headless calm described headless
    refine ⟨fun engine world run => ?_, fun world ended => ?_⟩
    · rw [run] at failed
      cases failed
    · have last : world = after := by
        rcases ended with ⟨engine, run⟩ | ⟨error', run⟩
        · rw [run] at failed
          cases failed
        · rw [run] at failed
          cases failed
          rfl
      subst last
      intro point member
      obtain ⟨dir', described', headless', _⟩ := passes.of_fresh point member
      exact ⟨dir', [], described', Or.inr headless', fun headed => absurd headless' headed⟩
  · have log := keeps.log.resolve_right headless
    have value := keeps.value headless
    refine ⟨fun engine world run => ?_, fun world ended point member => ?_⟩
    · obtain ⟨next, _, running⟩ := open_ensures calm described log engine world run
      exact ⟨_, records, _, running, funext fun key => value key⟩
    · obtain ⟨dir', crash, described'⟩ := ((open_leads calm described log).ended ended).of_fresh point member
      obtain ⟨⟨records', keeps'⟩, _⟩ := crash.keeps described log value described'
      exact ⟨dir', records', described', keeps'⟩

/-! ### The refinement -/

/-- A moment holds the map: the running engine does, or its directory stores it. -/
def Moment.Holds (hashes : Hashes) : Moment → (Key → Option Entry) → Prop
  | .up server, map => (∃ lsm records snapshots,
      Running hashes server.disk server.engine.inner lsm records snapshots ∧ lsm.value = map) ∧
      ∀ client, (server.clients client).Bounded
  | .down disk, map => Stores hashes map disk

variable {server server' : Server}

omit [LinearOrder D] in
/-- **Where the process ends**, the directory stores the map; with the write of the step that was
interrupted. -/
theorem Server.Halt.stores {interrupted : Option Call} {disk : Fs}
    (halt : server.Halt env interrupted disk) (holds : Moment.Holds env.hashes (.up server) map) :
    Stores env.hashes ((Label.crash interrupted).writes map) disk := by
  obtain ⟨⟨lsm, records, snapshots, running, rfl⟩, bounded⟩ := holds
  have calm := World.fresh_calm server.disk
  have fresh : Running env.hashes (World.fresh server.disk).now server.engine.inner lsm records
    snapshots := running
  cases halt with
  | between => exact running.stores
  | @logging client call marker inner world _ phase run point harmless =>
    exact (call.lsmStep_stores calm fresh harmless _ _ run).of_fresh disk point
  | @installing client marker bytes world _ phase run point =>
    have small := bounded client
    rw [phase] at small
    obtain ⟨_, _, _, passes⟩ :=
      installSnapshot_ensures fresh.described (fresh.holds.unsnapped marker) small bytes _ _ run
    rcases passes.of_fresh disk point with crashed | crashed
    · exact running.stores_snapshots crashed
    · exact running.stores_snapshots crashed
  | @cleaning client marker world _ phase run point =>
    have small := bounded client
    rw [phase] at small
    obtain ⟨_, _, passes⟩ := cleanSnapshots_ensures calm fresh.described small _ _ run
    obtain ⟨gone, _, crashed⟩ := passes.of_fresh disk point
    exact running.stores_snapshots crashed

omit [LinearOrder D] in
/-- **A reader** is always answered, with what the map holds, and leaves the engine and its directory as
they are. -/
theorem Moment.Holds.answers (holds : Moment.Holds env.hashes (.up server) map) (key : Key) : ∃ world,
    Engine.get env key (server.engine, World.fresh server.disk) =
      .ok (Entry.visible (map key)) (server.engine, world) ∧ world.now = server.disk := by
  obtain ⟨⟨lsm, records, snapshots, running, rfl⟩, _⟩ := holds
  obtain ⟨answer, ⟨engine, world⟩, run, rfl, same, quiet⟩ :=
    running.holds.get_succeeds (World.fresh_calm server.disk) key
  obtain rfl : engine = server.engine := same
  exact ⟨world, run, quiet.now⟩

/-- **The engine is a durable map.** -/
theorem engine_simulates (hashes : Hashes) :
    (engineSystem D hashes).Simulates durableMap fun state map => Moment.Holds hashes state.2 map where
  init := by
    rintro ⟨_, moment⟩ ⟨_, rfl⟩
    refine ⟨fun _ => none, rfl, Dir.empty, [], Describes.empty, Or.inl .absent, fun _ key => rfl⟩
  step := by
    rintro ⟨_, before⟩ label ⟨env, after⟩ map holds ⟨rfl, _, step⟩
    refine ⟨label.writes map, ⟨rfl, ?_⟩, ?_⟩
    · rintro key answer rfl
      cases step with
      | answered run =>
        obtain ⟨world, run', _⟩ := holds.answers key
        rw [run] at run'
        cases run'
        rfl
      | failed run =>
        obtain ⟨world, run', _⟩ := holds.answers key
        rw [run] at run'
        cases run'
    · cases step with
      | @act server server' act step =>
        obtain ⟨⟨lsm, records, snapshots, running, rfl⟩, bounded⟩ := holds
        obtain ⟨lsm', records', snapshots', running', value⟩ := step.value running bounded
        exact ⟨⟨lsm', records', snapshots', running', value⟩,
          (step.sound (fun _ => Phase.installs_any _)
            ⟨⟨lsm, records, snapshots, running, fun _ _ => trivial⟩, bounded⟩).2⟩
      | @answered server key answer engine world run =>
        obtain ⟨world', run', same⟩ := holds.answers key
        rw [run] at run'
        cases run'
        rw [same]
        exact holds
      | @failed server key error engine world run =>
        obtain ⟨world', run', _⟩ := holds.answers key
        rw [run] at run'
        cases run'
      | crash halt => exact halt.stores holds
      | opened run => exact ⟨(open_stores holds).1 _ _ run, fun client => trivial⟩
      | interrupted ended point => exact (open_stores holds).2 _ ended _ point

/-- The map of a history. -/
def written : List Label → Key → Option Entry := List.foldl (fun map label => label.writes map) fun _ => none

@[simp] theorem written_append (labels : List Label) (label : Label) :
    written (labels ++ [label]) = label.writes (written labels) := by
  rw [written, List.foldl_append, ← written]
  rfl

/-- The map's state is what was written. -/
theorem durableMap_run {labels : List Label} (run : durableMap.Run labels map) : map = written labels := by
  refine run.invariant (P := fun labels map => map = written labels) (fun map starts => starts)
    fun labels label before after same step => ?_
  rw [written_append, ← same]
  exact step.1

/-- **Durable linearizability.** Whatever clients do, wherever the process ends, but for compactions that
bring something back, and however often the directory is opened, with whatever options, every answer a
reader got is the last write before it; each logged step counts once, at the moment of its log record,
also if it was interrupted behind it. And a running engine always answers. -/
theorem durable_map {hashes : Hashes} {labels : List Label} {env : Env D} {moment : Moment}
    (run : (engineSystem D hashes).Run labels (env, moment)) :
    durableMap.Trace labels ∧ ∀ server, moment = .up server → ∀ key, ∃ world,
      Engine.get env key (server.engine, World.fresh server.disk) =
        .ok (Entry.visible (written labels key)) (server.engine, world) := by
  obtain ⟨map, followed, holds⟩ := (engine_simulates hashes).run run
  refine ⟨⟨map, followed⟩, ?_⟩
  rintro server rfl key
  have same : env.hashes = hashes := by
    cases run with
    | start init => exact init.1
    | step _ step => exact step.1
  subst same
  obtain ⟨world, answer, _⟩ := Moment.Holds.answers holds key
  exact ⟨world, durableMap_run followed ▸ answer⟩

/-- A step under the same options. -/
theorem engineSystem_step {labels : List Label} {label : Label} {before after : Moment}
    (run : (engineSystem D env.hashes).Run labels (env, before)) (step : Moment.Step env before label after) :
    (engineSystem D env.hashes).Run (labels ++ [label]) (env, after) :=
  run.step ⟨rfl, fun _ => rfl, step⟩

/-- An interleaving from an empty directory is such a history. -/
theorem Serves.run {may : List Act → Server → Act → Prop} {acts : List Act}
    (serves : Serves env may acts server) :
    (engineSystem D env.hashes).Run (.restart :: acts.map Label.act) (env, .up server) := by
  induction serves with
  | opened run =>
    have start : (engineSystem D env.hashes).Run [] (env, .down Fs.empty) := .start ⟨rfl, rfl⟩
    exact engineSystem_step start (.opened run)
  | step serves allowed step ih =>
    rw [List.map_append]
    exact engineSystem_step ih (.act step)

/-- A key is written, and written again by a call that is interrupted behind its log record. -/
theorem durable_map_interrupted :
    let env : Env Nat := Env.zeroOne ⟨1000, 4, 0, ⟨.euclideanSquared, 1, 2, 1, 1, 0, 0⟩⟩
    ∃ labels server world,
      (engineSystem Nat env.hashes).Run (labels ++ [.crash (some (.put [7] [2])), .restart])
        (env, .up server) ∧
      Engine.get env [7] (server.engine, World.fresh server.disk) = .ok (some [2]) (server.engine, world) := by
  intro env
  obtain ⟨call, callDef⟩ : ∃ call, call = Call.put [7] [2] := ⟨_, rfl⟩
  have run : ((takeTurns env (fun _ _ _ => true) [(0, some (.put [7] [1])), (0, none), (0, none)]).bind
      fun state => (call.uncompacted env (state.2.engine.inner, World.fresh state.2.disk)).left.bind
        fun middle => (call.lsmStep env (state.2.engine.inner, World.fresh state.2.disk)).left.bind
          fun after => after.2.past.head?.bind fun disk => (Engine.open env (World.fresh disk)).left.map
            fun _ => (decide (middle.1.levels.l0.length < 4), state.1.filterMap Act.starter)) =
      some (true, [0]) := by
    rw [callDef]
    decide +kernel
  obtain ⟨⟨acts, server⟩, taken, run⟩ := Option.bind_eq_some_iff.mp run
  obtain ⟨middle, uncompacted, run⟩ := Option.bind_eq_some_iff.mp run
  obtain ⟨after, stepped, run⟩ := Option.bind_eq_some_iff.mp run
  obtain ⟨disk, point, run⟩ := Option.bind_eq_some_iff.mp run
  obtain ⟨world, opened, run⟩ := Option.map_eq_some_iff.mp run
  obtain ⟨few, starters⟩ := Prod.mk.inj run
  obtain ⟨_, uncompacted⟩ := Outcome.left_eq_some.mp uncompacted
  obtain ⟨marker, stepped⟩ := Outcome.left_eq_some.mp stepped
  obtain ⟨engine, opened⟩ := Outcome.left_eq_some.mp opened
  have serves : Serves env (fun _ _ _ => True) acts server :=
    Serves.of_takeTurns taken fun _ _ _ _ _ => trivial
  have idle : server.clients 1 = .idle := by
    refine serves.idle_unless fun other member => ?_
    have started : 1 ∈ acts.filterMap Act.starter := List.mem_filterMap.mpr ⟨_, member, rfl⟩
    rw [starters] at started
    exact absurd started (by decide)
  have harmless : call.Harmless env (server.engine.inner, World.fresh server.disk) := by
    intro inner world' ran reached
    rw [uncompacted] at ran
    cases ran
    exact absurd reached (not_le.mpr (of_decide_eq_true few))
  have checked : call.check server.engine.vectorIndex = .ok () server.engine.vectorIndex := by
    rw [callDef]
    rfl
  have started := engineSystem_step serves.run (.act (.start idle checked))
  have halted := engineSystem_step started (.crash (.logging (Function.update_self ..) stepped
    (List.mem_of_mem_head? point) harmless))
  have restarted := engineSystem_step halted (.opened opened)
  obtain ⟨last, answer⟩ := (durable_map restarted).2 _ rfl [7]
  rw [written_append, written_append, callDef] at answer
  rw [callDef, List.append_assoc] at restarted
  exact ⟨_, _, last, restarted, answer⟩

end Sastran

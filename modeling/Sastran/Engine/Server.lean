/-
The engine with its clients, crashes and restarts.

Each client works through its calls one atomic step at a time, as the two locks are taken and released:
the check, the LSM step, the index step, and the parts of the snapshot. The steps of different clients
interleave. A crash may come between any two calls on the file system; it leaves the disk, and the
directory may then be opened again. `Reached` are the moments of all such histories, and `Reached.sound`
is what holds at each: a running engine, or a directory that discovery can read.
-/

import Sastran.Engine.Calls

namespace Sastran

open Device SsTable

variable {D : Type} [LinearOrder D] {env : Env D}

/-- What a client is about to do. -/
inductive Phase where
  | idle
  | logging (call : Call)
  | indexing (call : Call) (marker : Option Nat)
  | encoding (marker : Nat)
  | installing (marker : Nat) (bytes : Bytes)
  | cleaning (marker : Nat)

/-- After the index step a snapshot is written, if the LSM step used up a table id. -/
def Phase.marking : Option Nat → Phase
  | none => .idle
  | some marker => .encoding marker

structure Server where
  engine : Engine
  disk : Fs
  clients : Nat → Phase

def Server.become (server : Server) (client : Nat) (phase : Phase) : Server :=
  { server with clients := Function.update server.clients client phase }

/-- One atomic step. -/
inductive Act where
  | start (client : Nat) (call : Call)
  | refuse (client : Nat) (call : Call)
  | log (client : Nat) (call : Call)
  | index (client : Nat) (call : Call)
  | reject (client : Nat) (call : Call)
  | encode (client : Nat)
  | install (client : Nat)
  | clean (client : Nat)

/-- **The steps of clients**, on a file system that does not fail. A call whose record is refused, or whose
index step fails, ends with its error. -/
inductive Server.Step (env : Env D) : Server → Act → Server → Prop
  | start {server : Server} {client : Nat} {call : Call} (idle : server.clients client = .idle)
      (checked : call.check server.engine.vectorIndex = .ok () server.engine.vectorIndex) :
      Step env server (.start client call) (server.become client (.logging call))
  | refuse {server : Server} {client : Nat} {call : Call} {record : Record} {error : Error}
      (phase : server.clients client = .logging call) (written : call.record = some record)
      (refused : Record.encode env.hashes record.kind record.key record.value = .error error) :
      Step env server (.refuse client call) (server.become client .idle)
  | log {server : Server} {client : Nat} {call : Call} {marker : Option Nat} {inner : EngineInner}
      {world : World Fs} (phase : server.clients client = .logging call)
      (run : call.lsmStep env (server.engine.inner, World.fresh server.disk) =
        .ok marker (inner, world)) :
      Step env server (.log client call)
        (Server.become ⟨{ server.engine with inner := inner }, world.now, server.clients⟩ client
          (.indexing call marker))
  | index {server : Server} {client : Nat} {call : Call} {marker : Option Nat} {index : VectorIndex}
      (phase : server.clients client = .indexing call marker)
      (run : call.indexStep env server.engine.vectorIndex = .ok () index) :
      Step env server (.index client call)
        (Server.become ⟨{ server.engine with vectorIndex := index }, server.disk, server.clients⟩ client
          (Phase.marking marker))
  | reject {server : Server} {client : Nat} {call : Call} {marker : Option Nat} {index : VectorIndex}
      {error : Error} (phase : server.clients client = .indexing call marker)
      (run : call.indexStep env server.engine.vectorIndex = .err error index) :
      Step env server (.reject client call)
        (Server.become ⟨{ server.engine with vectorIndex := index }, server.disk, server.clients⟩ client
          .idle)
  | encode {server : Server} {client : Nat} {marker : Nat}
      (phase : server.clients client = .encoding marker) :
      Step env server (.encode client) (server.become client
        (.installing marker (snapshotBytes env server.engine.vectorIndex marker)))
  | install {server : Server} {client : Nat} {marker : Nat} {bytes : Bytes} {world : World Fs}
      (phase : server.clients client = .installing marker bytes)
      (run : Engine.installSnapshot marker bytes (World.fresh server.disk) = .ok () world) :
      Step env server (.install client)
        (Server.become ⟨server.engine, world.now, server.clients⟩ client (.cleaning marker))
  | clean {server : Server} {client : Nat} {marker : Nat} {world : World Fs}
      (phase : server.clients client = .cleaning marker)
      (run : Engine.cleanSnapshots marker (World.fresh server.disk) = .ok () world) :
      Step env server (.clean client)
        (Server.become ⟨server.engine, world.now, server.clients⟩ client .idle)

/-- The disks a crash may leave: between steps, or between two calls on the file system within one. -/
inductive Server.Crash (env : Env D) : Server → Fs → Prop
  | between {server : Server} : Crash env server server.disk
  | logging {server : Server} {client : Nat} {call : Call} {marker : Option Nat} {inner : EngineInner}
      {world : World Fs} {crashed : Fs} (phase : server.clients client = .logging call)
      (run : call.lsmStep env (server.engine.inner, World.fresh server.disk) =
        .ok marker (inner, world)) (point : crashed ∈ world.past) : Crash env server crashed
  | installing {server : Server} {client : Nat} {marker : Nat} {bytes : Bytes} {world : World Fs}
      {crashed : Fs} (phase : server.clients client = .installing marker bytes)
      (run : Engine.installSnapshot marker bytes (World.fresh server.disk) = .ok () world)
      (point : crashed ∈ world.past) : Crash env server crashed
  | cleaning {server : Server} {client : Nat} {marker : Nat} {world : World Fs} {crashed : Fs}
      (phase : server.clients client = .cleaning marker)
      (run : Engine.cleanSnapshots marker (World.fresh server.disk) = .ok () world)
      (point : crashed ∈ world.past) : Crash env server crashed

/-- A process is running, or only the disk is there. -/
inductive Moment where
  | up (server : Server)
  | down (disk : Fs)

/-- **Histories** from an empty directory, through moments of a kind. -/
inductive ReachedBy (env : Env D) (may : Moment → Prop) : Moment → Prop
  | empty : ReachedBy env may (.down Fs.empty)
  | opened {disk : Fs} {engine : Engine} {world : World Fs} (reached : ReachedBy env may (.down disk))
      (run : Engine.open env (World.fresh disk) = .ok engine world)
      (allowed : may (.up ⟨engine, world.now, fun _ => .idle⟩)) :
      ReachedBy env may (.up ⟨engine, world.now, fun _ => .idle⟩)
  | interrupted {disk crashed : Fs} {world : World Fs} (reached : ReachedBy env may (.down disk))
      (ended : Ended (Engine.open env) (World.fresh disk) world) (point : crashed ∈ world.past)
      (allowed : may (.down crashed)) : ReachedBy env may (.down crashed)
  | stepped {server server' : Server} {act : Act} (reached : ReachedBy env may (.up server))
      (step : server.Step env act server') (allowed : may (.up server')) : ReachedBy env may (.up server')
  | crashed {server : Server} {disk : Fs} (reached : ReachedBy env may (.up server))
      (crash : server.Crash env disk) (allowed : may (.down disk)) : ReachedBy env may (.down disk)

/-- **All histories.** -/
abbrev Reached (env : Env D) : Moment → Prop := ReachedBy env fun _ => True

theorem ReachedBy.reached {may : Moment → Prop} {moment : Moment} (reached : ReachedBy env may moment) :
    Reached env moment := by
  induction reached with
  | empty => exact .empty
  | opened _ run _ ih => exact ih.opened run trivial
  | interrupted _ ended point _ ih => exact ih.interrupted ended point trivial
  | stepped _ step _ ih => exact ih.stepped step trivial
  | crashed _ crash _ ih => exact ih.crashed crash trivial

/-! ### Schedules -/

/-- The next step of a client: one that does nothing takes a call, the others go on with theirs. -/
def Server.advance (env : Env D) (server : Server) (client : Nat) (next : Option Call) :
    Option (Act × Server) :=
  match server.clients client, next with
  | .idle, some call =>
    match call.check server.engine.vectorIndex with
    | .ok () _ => some (.start client call, server.become client (.logging call))
    | _ => none
  | .logging call, none =>
    match call.lsmStep env (server.engine.inner, World.fresh server.disk) with
    | .ok marker (inner, world) => some (.log client call,
        Server.become ⟨{ server.engine with inner := inner }, world.now, server.clients⟩ client
          (.indexing call marker))
    | _ => none
  | .indexing call marker, none =>
    match call.indexStep env server.engine.vectorIndex with
    | .ok () index => some (.index client call,
        Server.become ⟨{ server.engine with vectorIndex := index }, server.disk, server.clients⟩ client
          (Phase.marking marker))
    | .err _ index => some (.reject client call,
        Server.become ⟨{ server.engine with vectorIndex := index }, server.disk, server.clients⟩ client
          .idle)
    | .stuck => none
  | .encoding marker, none => some (.encode client, server.become client
      (.installing marker (snapshotBytes env server.engine.vectorIndex marker)))
  | .installing marker bytes, none =>
    match Engine.installSnapshot marker bytes (World.fresh server.disk) with
    | .ok () world => some (.install client,
        Server.become ⟨server.engine, world.now, server.clients⟩ client (.cleaning marker))
    | _ => none
  | .cleaning marker, none =>
    match Engine.cleanSnapshots marker (World.fresh server.disk) with
    | .ok () world => some (.clean client,
        Server.become ⟨server.engine, world.now, server.clients⟩ client .idle)
    | _ => none
  | _, _ => none

theorem Server.Step.of_advance {server server' : Server} {client : Nat} {next : Option Call} {act : Act}
    (advanced : server.advance env client next = some (act, server')) : server.Step env act server' := by
  unfold Server.advance at advanced
  split at advanced
  · rename_i call idle
    split at advanced
    · rename_i index run
      cases advanced
      obtain rfl := call.check_ensures server.engine.vectorIndex _ _ run
      exact .start idle run
    · cases advanced
  · rename_i call phase
    split at advanced
    · rename_i marker inner world run
      cases advanced
      exact .log phase run
    · cases advanced
  · rename_i call marker phase
    split at advanced
    · rename_i index run
      cases advanced
      exact .index phase run
    · rename_i error index run
      cases advanced
      exact .reject phase run
    · cases advanced
  · rename_i marker phase
    cases advanced
    exact .encode phase
  · rename_i marker bytes phase
    split at advanced
    · rename_i world run
      cases advanced
      exact .install phase run
    · cases advanced
  · rename_i marker phase
    split at advanced
    · rename_i world run
      cases advanced
      exact .clean phase run
    · cases advanced
  · cases advanced

/-- Open a directory and let the clients take turns, as long as the server passes a test. -/
def serve (env : Env D) (test : Server → Bool) (disk : Fs) (turns : List (Nat × Option Call)) :
    Option Server :=
  match Engine.open env (World.fresh disk) with
  | .ok engine world =>
    if test ⟨engine, world.now, fun _ => .idle⟩ = true then
      turns.foldlM (fun (server : Server) turn =>
        ((server.advance env turn.1 turn.2).map Prod.snd).filter test) ⟨engine, world.now, fun _ => .idle⟩
    else none
  | _ => none

theorem ReachedBy.of_serve {may : Moment → Prop} {test : Server → Bool} {disk : Fs}
    {turns : List (Nat × Option Call)} {server : Server} (reached : ReachedBy env may (.down disk))
    (served : serve env test disk turns = some server)
    (passed : ∀ server, test server = true → may (.up server)) : ReachedBy env may (.up server) := by
  unfold serve at served
  split at served
  · rename_i engine world opened
    split at served
    case isFalse => cases served
    rename_i first
    induction turns using List.reverseRecOn generalizing server with
    | nil =>
      cases served
      exact reached.opened opened (passed _ first)
    | append_singleton turns turn ih =>
      rw [List.foldlM_append] at served
      obtain ⟨before, ran, last⟩ := Option.bind_eq_some_iff.mp served
      rw [List.foldlM_cons] at last
      obtain ⟨after, advanced, same⟩ := Option.bind_eq_some_iff.mp last
      obtain ⟨advanced, allowed⟩ := Option.filter_eq_some_iff.mp advanced
      obtain ⟨⟨act, _⟩, stepped, rfl⟩ := Option.map_eq_some_iff.mp advanced
      cases same
      exact (ih ran).stepped (Server.Step.of_advance stepped) (passed _ allowed)
  · cases served

/-! ### What holds at every moment -/

/-- A log of whole records, if any; it may have been created only. -/
inductive CleanLog (hashes : Hashes) : Option Bytes → Prop
  | absent : CleanLog hashes none
  | created : CleanLog hashes (some [])
  | whole {records : List Record} (valid : ∀ record ∈ records, record.Valid) :
      CleanLog hashes (some (Wal.fileHeader ++ logBytes hashes records))

/-- A directory discovery can read, with snapshots of a kind. -/
def Readable (hashes : Hashes) (taken : Nat × Bytes → Prop) (fs : Fs) : Prop :=
  ∃ dir, Describes hashes fs dir ∧ CleanLog hashes dir.log ∧ ∀ item ∈ dir.snapshots, taken item

/-- The marker of a snapshot that is being written is a 64-bit number. -/
def Phase.Bounded : Phase → Prop
  | .idle => True
  | .logging _ => True
  | .indexing _ marker => ∀ id, marker = some id → id < u64Bound
  | .encoding marker => marker < u64Bound
  | .installing marker _ => marker < u64Bound
  | .cleaning marker => marker < u64Bound

theorem Phase.marking_bounded {marker : Option Nat} (small : ∀ id, marker = some id → id < u64Bound) :
    (Phase.marking marker).Bounded := by
  cases marker with
  | none => exact trivial
  | some id => exact small id rfl

/-- A running engine, or a directory that can be read, with snapshots of a kind. -/
def Moment.Sound (env : Env D) (taken : Nat × Bytes → Prop) : Moment → Prop
  | .up server => (∃ lsm records snapshots,
      Running env.hashes server.disk server.engine.inner lsm records snapshots ∧
      ∀ item ∈ snapshots, taken item) ∧ ∀ client, (server.clients client).Bounded
  | .down disk => Readable env.hashes taken disk

/-- A snapshot that is being installed is of the kind. -/
def Phase.Installs (taken : Nat × Bytes → Prop) : Phase → Prop
  | .installing marker bytes => taken (marker, bytes)
  | _ => True

variable {world : World Fs} {lsm lsm' : Lsm} {records records' : List Record}
  {snapshots : List (Nat × Bytes)} {hashes : Hashes} {dir dir' : Dir} {taken : Nat × Bytes → Prop}

/-! Every directory passed through has such a log. -/

theorem CleanLog.header (hashes : Hashes) : CleanLog hashes (some Wal.fileHeader) := by
  have whole : CleanLog hashes (some (Wal.fileHeader ++ logBytes hashes [])) := .whole nofun
  rwa [logBytes_nil, List.append_nil] at whole

theorem RotateCrash.clean (crash : RotateCrash dir dir') : CleanLog hashes dir'.log := by
  cases crash with
  | removed => exact .absent
  | created => exact .created
  | rotated => exact .header hashes

theorem RotateCrash.same_snapshots (crash : RotateCrash dir dir') : dir'.snapshots = dir.snapshots := by
  cases crash <;> rfl

theorem FlushCrash.clean (valid : ∀ record ∈ records, record.Valid)
    (crash : FlushCrash lsm (logBytes hashes records) snapshots dir) : CleanLog hashes dir.log := by
  cases crash with
  | same => exact .whole valid
  | written => exact .whole valid
  | rotating crash => exact crash.clean

theorem Flushed.valid (flushed : Flushed lsm records lsm' records')
    (valid : ∀ record ∈ records, record.Valid) : ∀ record ∈ records', record.Valid := by
  cases flushed with
  | kept => exact valid
  | moved => exact nofun

theorem SettleCrash.clean (valid : ∀ record ∈ records, record.Valid)
    (crash : SettleCrash hashes lsm records snapshots dir) : CleanLog hashes dir.log := by
  cases crash with
  | flushing crash => exact crash.clean valid
  | compacting flushed crash =>
    have valid' := flushed.valid valid
    cases crash with
    | merging => exact .whole valid'
    | removing removed left order => exact .whole valid'

theorem SettleCrash.same_snapshots (crash : SettleCrash hashes lsm records snapshots dir) :
    dir.snapshots = snapshots := by
  cases crash with
  | flushing crash =>
    cases crash with
    | same => rfl
    | written => rfl
    | rotating crash => exact crash.same_snapshots
  | compacting flushed crash => cases crash <;> rfl

theorem Dir.Sheds.clean (sheds : dir.Sheds dir') (clean : CleanLog hashes dir.log) :
    CleanLog hashes dir'.log := sheds.log ▸ clean

/-- A log that can be replayed, or one that was created only. -/
theorem CleanLog.cases {log : Option Bytes} (clean : CleanLog hashes log) :
    (∃ records, LogHolds hashes log records (logBytes hashes records)) ∨ log = some [] := by
  cases clean with
  | absent => exact Or.inl ⟨[], .absent⟩
  | created => exact Or.inr rfl
  | whole valid => exact Or.inl ⟨_, .whole valid⟩

/-- **A log without its header is not opened.** -/
theorem open_headless (calm : world.Calm) (described : Describes env.hashes world.now dir)
    (headless : dir.log = some []) : ∃ error after, Engine.open env world = .err error after ∧
      Passes (fun fs => ∃ dir', Describes env.hashes fs dir' ∧ dir'.log = some [] ∧
        dir'.snapshots = dir.snapshots) world after := by
  obtain ⟨error, after, failed, _, _, passes⟩ := open_unreplayed (fun _ => True) calm described
    headless fun world calm here => by
      obtain ⟨after, failed⟩ := WalReader.open_short calm here (by decide)
      exact ⟨_, after, bind_err failed _, trivial⟩
  exact ⟨error, after, failed, passes⟩

/-- **Opening passes through readable directories only.** -/
theorem open_readable (calm : world.Calm) (readable : Readable env.hashes taken world.now) :
    Leads (Passes (Readable env.hashes taken)) (Engine.open env) world := by
  obtain ⟨dir, described, clean, taken⟩ := readable
  rcases clean.cases with ⟨records, log⟩ | headless
  · refine (open_leads calm described log).mono fun after passes => passes.mono fun fs crash => ?_
    obtain ⟨dir', stage, crashed⟩ := crash
    cases stage with
    | opening stage =>
      cases stage with
      | shedding sheds => exact ⟨dir', crashed, sheds.clean clean, sheds.snapshots ▸ taken⟩
      | discovered => exact ⟨_, crashed, clean, taken⟩
      | creating absent crash => exact ⟨dir', crashed, crash.clean, crash.same_snapshots ▸ taken⟩
    | recovering next thins =>
      refine ⟨dir', crashed, ?_, fun item member => taken item (thins.inside item member)⟩
      rw [thins.rest]
      exact .whole log.valid
  · obtain ⟨error, after, run, passes⟩ := open_headless calm described headless
    refine ⟨fun value other ran => ?_, fun error other ran => ?_⟩
    · rw [run] at ran
      cases ran
    · rw [run] at ran
      cases ran
      refine passes.mono fun fs crash => ?_
      obtain ⟨dir', crashed, headless', same⟩ := crash
      exact ⟨dir', crashed, headless' ▸ .created, same ▸ taken⟩

/-! ### Every step keeps it -/

/-- What holds of every client's phase, and of the next phase of one. -/
theorem Phase.forall_update {clients : Nat → Phase} {holds : Phase → Prop}
    (before : ∀ client, holds (clients client)) (client : Nat) {phase : Phase} (next : holds phase) :
    ∀ other, holds (Function.update clients client phase other) := by
  intro other
  by_cases same : other = client
  · rw [same, Function.update_self]
    exact next
  · rw [Function.update_of_ne same]
    exact before other

omit [LinearOrder D] in
/-- What installing and removing snapshots keeps. -/
theorem Running.snapshots_changed {inner : EngineInner} {fs fs' : Fs}
    {snapshots' : List (Nat × Bytes)} (running : Running env.hashes fs inner lsm records snapshots)
    (described : Describes env.hashes fs'
      { lsm.stored (logBytes env.hashes records) snapshots with snapshots := snapshots' })
    (tidies : Fs.Tidies fs fs')
    (frame : Fs.Frame (fun name => IsTmp name ∨ IsSnapshot name) fs fs') :
    Running env.hashes fs' inner lsm records snapshots' :=
  running.reframe described tidies
    (frame.dir _ fun either => either.elim wal_not_tmp wal_not_snapshot)

omit [LinearOrder D] in
theorem install_running {inner : EngineInner} {marker : Nat} {bytes : Bytes}
    (running : Running env.hashes world.now inner lsm records snapshots)
    (old : ∀ item ∈ snapshots, taken item) (new : taken (marker, bytes)) (small : marker < u64Bound) :
    Ensures (Engine.installSnapshot marker bytes) world fun _ after =>
      (∃ snapshots', Running env.hashes after.now inner lsm records snapshots' ∧
        ∀ item ∈ snapshots', taken item) ∧
      Passes (Readable env.hashes taken) world after := by
  have both : ∀ item ∈ (marker, bytes) :: snapshots.filter (fun item => item.1 ≠ marker), taken item :=
    List.forall_mem_cons.mpr ⟨new, fun item member => old item (List.mem_filter.mp member).1⟩
  refine (installSnapshot_ensures running.described (running.holds.unsnapped marker) small bytes).mono
    fun _ after facts => ?_
  obtain ⟨pushed, tidy, frame, passes⟩ := facts
  refine ⟨⟨_, running.snapshots_changed pushed tidy frame, both⟩, passes.mono fun fs crash => ?_⟩
  rcases crash with crashed | crashed
  · exact ⟨_, crashed, .whole running.valid, old⟩
  · exact ⟨_, crashed, .whole running.valid, both⟩

omit [LinearOrder D] in
theorem clean_running {inner : EngineInner} {marker : Nat} (calm : world.Calm)
    (running : Running env.hashes world.now inner lsm records snapshots)
    (old : ∀ item ∈ snapshots, taken item) (small : marker < u64Bound) :
    Ensures (Engine.cleanSnapshots marker) world fun _ after =>
      (∃ snapshots', Running env.hashes after.now inner lsm records snapshots' ∧
        ∀ item ∈ snapshots', taken item) ∧
      Passes (Readable env.hashes taken) world after := by
  have left : ∀ keep : Nat × Bytes → Bool, ∀ item ∈ snapshots.filter keep, taken item :=
    fun keep item member => old item (List.mem_filter.mp member).1
  refine (cleanSnapshots_ensures calm running.described small).mono fun _ after facts => ?_
  obtain ⟨cleaned, frame, passes⟩ := facts
  have tidy : Fs.Tidies world.now after.now :=
    .of_frame frame fun name isTmp isSnapshot => absurd isTmp isSnapshot.not_tmp
  refine ⟨⟨_, running.snapshots_changed cleaned tidy (frame.mono fun _ => Or.inr), left _⟩,
    passes.mono fun fs crash => ?_⟩
  obtain ⟨gone, _, crashed⟩ := crash
  exact ⟨_, crashed, .whole running.valid, left _⟩

/-- The LSM step of a call keeps the engine running, and passes through readable directories. -/
theorem lsmStep_readable {inner : EngineInner} (call : Call) (calm : world.Calm)
    (running : Running env.hashes world.now inner lsm records snapshots)
    (old : ∀ item ∈ snapshots, taken item) :
    Ensures (call.lsmStep env) (inner, world) fun marker after =>
      (∃ lsm' records', Running env.hashes after.2.now after.1 lsm' records' snapshots) ∧
      (∀ id, marker = some id → id < u64Bound) ∧ Passes (Readable env.hashes taken) world after.2 := by
  refine (call.lsmStep_running calm running).mono fun marker after facts => ?_
  obtain ⟨valid, ⟨lsm', records', _, running', rfl⟩, passes⟩ := facts
  refine ⟨⟨lsm', records', running'⟩, Lsm.marker_small running'.holds.small, passes.mono fun fs crash => ?_⟩
  obtain ⟨dir, stage, crashed⟩ := crash
  refine ⟨dir, crashed, stage.clean fun record member => ?_, stage.same_snapshots ▸ old⟩
  rcases List.mem_append.mp member with member | member
  · exact running.valid record member
  · exact valid record (Option.mem_toList.mp member)

theorem Server.Step.sound {server server' : Server} {act : Act} (step : server.Step env act server')
    (installs : ∀ client, (server.clients client).Installs taken)
    (sound : Moment.Sound env taken (.up server)) : Moment.Sound env taken (.up server') := by
  obtain ⟨⟨lsm, records, snapshots, running, old⟩, bounded⟩ := sound
  have calm := World.fresh_calm server.disk
  have running' : Running env.hashes (World.fresh server.disk).now server.engine.inner lsm records
    snapshots := running
  cases step with
  | @start client call idle checked =>
    exact ⟨⟨lsm, records, snapshots, running, old⟩, Phase.forall_update bounded client trivial⟩
  | @refuse client call record error phase written refused =>
    exact ⟨⟨lsm, records, snapshots, running, old⟩, Phase.forall_update bounded client trivial⟩
  | @log client call marker inner world phase run =>
    obtain ⟨⟨lsm', records', logged⟩, small, _⟩ := lsmStep_readable call calm running' old _ _ run
    exact ⟨⟨lsm', records', snapshots, logged, old⟩, Phase.forall_update bounded client small⟩
  | @index client call marker index phase run =>
    have here := bounded client
    rw [phase] at here
    exact ⟨⟨lsm, records, snapshots, running, old⟩,
      Phase.forall_update bounded client (Phase.marking_bounded here)⟩
  | @reject client call marker index error phase run =>
    exact ⟨⟨lsm, records, snapshots, running, old⟩, Phase.forall_update bounded client trivial⟩
  | @encode client marker phase =>
    have here := bounded client
    rw [phase] at here
    exact ⟨⟨lsm, records, snapshots, running, old⟩, Phase.forall_update bounded client here⟩
  | @install client marker bytes world phase run =>
    have here := bounded client
    have new := installs client
    rw [phase] at here new
    obtain ⟨⟨snapshots', installed⟩, _⟩ := install_running running' old new here _ _ run
    exact ⟨⟨lsm, records, snapshots', installed⟩, Phase.forall_update bounded client here⟩
  | @clean client marker world phase run =>
    have here := bounded client
    rw [phase] at here
    obtain ⟨⟨snapshots', cleaned⟩, _⟩ := clean_running calm running' old here _ _ run
    exact ⟨⟨lsm, records, snapshots', cleaned⟩, Phase.forall_update bounded client trivial⟩

theorem Server.Crash.sound {server : Server} {crashed : Fs} (crash : server.Crash env crashed)
    (installs : ∀ client, (server.clients client).Installs taken)
    (sound : Moment.Sound env taken (.up server)) : Moment.Sound env taken (.down crashed) := by
  obtain ⟨⟨lsm, records, snapshots, running, old⟩, bounded⟩ := sound
  have calm := World.fresh_calm server.disk
  have running' : Running env.hashes (World.fresh server.disk).now server.engine.inner lsm records
    snapshots := running
  cases crash with
  | between =>
    exact ⟨lsm.stored (logBytes env.hashes records) snapshots, running.holds.described,
      .whole running.valid, old⟩
  | @logging client call marker inner world _ phase run point =>
    exact (lsmStep_readable call calm running' old _ _ run).2.2.of_fresh _ point
  | @installing client marker bytes world _ phase run point =>
    have here := bounded client
    have new := installs client
    rw [phase] at here new
    exact (install_running running' old new here _ _ run).2.of_fresh _ point
  | @cleaning client marker world _ phase run point =>
    have here := bounded client
    rw [phase] at here
    exact (clean_running calm running' old here _ _ run).2.of_fresh _ point

/-- **An opened directory** is one of a running engine. -/
theorem open_sound {disk : Fs} {engine : Engine} {world : World Fs}
    (run : Engine.open env (World.fresh disk) = .ok engine world)
    (sound : Moment.Sound env taken (.down disk)) :
    Moment.Sound env taken (.up ⟨engine, world.now, fun _ => .idle⟩) := by
  obtain ⟨dir, described, clean, taken⟩ := sound
  have calm := World.fresh_calm disk
  rcases clean.cases with ⟨records, log⟩ | headless
  · obtain ⟨next, _, running⟩ := open_ensures calm described log engine world run
    exact ⟨⟨_, _, _, running, fun item member => taken item (Dir.latest_mem (Option.mem_toList.mp member))⟩,
      fun client => trivial⟩
  · obtain ⟨error, after, failed, _⟩ := open_headless calm described headless
    rw [run] at failed
    cases failed

theorem Phase.installs_any (phase : Phase) : phase.Installs fun _ => True := by
  cases phase <;> exact trivial

/-- **At every moment** of every history the engine is running, or its directory can be read. -/
theorem Reached.sound {moment : Moment} (reached : Reached env moment) :
    moment.Sound env fun _ => True := by
  induction reached with
  | empty => exact ⟨Dir.empty, Describes.empty, .absent, fun _ _ => trivial⟩
  | opened _ run _ ih => exact open_sound run ih
  | interrupted _ ended point _ ih =>
    exact ((open_readable (World.fresh_calm _) ih).ended ended).of_fresh _ point
  | stepped _ step _ ih => exact step.sound (fun _ => Phase.installs_any _) ih
  | crashed _ crash _ ih => exact crash.sound (fun _ => Phase.installs_any _) ih

/-- An engine of a history is running. -/
theorem Reached.running {server : Server} (reached : Reached env (.up server)) : ∃ lsm records snapshots,
    Running env.hashes server.disk server.engine.inner lsm records snapshots := by
  obtain ⟨⟨lsm, records, snapshots, running, _⟩, _⟩ := reached.sound
  exact ⟨lsm, records, snapshots, running⟩

end Sastran

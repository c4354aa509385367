/-
Clients of one engine that was opened on an empty directory, and the interleavings of their steps.

* `EngineInner.Newest` - the entry a key has in memory: in the memtable, else in the first table that
  has one. It is determined by what the engine holds (`EngineInner.Newest.unique`).
* `Serves` - an interleaving, the acts in order; `may` limits the acts that are taken, by those before
  and the state they left.
* `Server.Step.value`, `Server.Step.vectorIndex` - which acts write to the LSM state and to the index.
* `logged` - the map the LSM steps of an interleaving write.
-/

import Sastran.Engine.Runs
import Sastran.Engine.Server

namespace Sastran

open Device

variable {D : Type} {env : Env D} {world : World Fs} {lsm lsm' : Lsm} {records : List Record}
  {snapshots : List (Nat × Bytes)}

/-- What the engine finds for each key: the newest entry of memtable, L0 and L1. -/
def EngineInner.Newest (hashes : Hashes) (inner : EngineInner) (newest : Key → Option Entry) : Prop :=
  ∃ maps, List.Forall₂ (fun entry map => entry.reader.Reads hashes map)
      (inner.levels.l0 ++ inner.levels.l1) maps ∧
    newest = newestOf (inner.memtable.map.find? :: maps.map SortedMap.find?)

theorem InMemory.newest {inner : EngineInner} (memory : InMemory env.hashes inner lsm) :
    inner.Newest env.hashes lsm.newest := by
  refine ⟨lsm.tables.map Prod.snd, ?_, ?_⟩
  · rw [List.forall₂_map_right_iff]
    exact (List.rel_append memory.l0 memory.l1).imp fun _ _ same => same.2
  · funext key
    rw [Lsm.newest, Lsm.layers, memory.memtable]
    rfl

/-- Without tables the memtable decides. -/
theorem EngineInner.Newest.memtable {hashes : Hashes} {inner : EngineInner}
    {newest : Key → Option Entry} (found : inner.Newest hashes newest)
    (none : (inner.levels.l0 ++ inner.levels.l1).length = 0) : newest = inner.memtable.map.find? := by
  obtain ⟨maps, reads, rfl⟩ := found
  rw [List.length_eq_zero_iff.mp none, List.forall₂_nil_left_iff] at reads
  funext key
  rw [reads, List.map_nil, newestOf_cons, newestOf_nil, Option.or_none]

/-- An iterator yields one list. -/
theorem SsTableIterator.Yields.unique {hashes : Hashes} {iterator : SsTableIterator}
    {one two : List (Key × Entry)} (yields : iterator.Yields hashes one)
    (yields' : iterator.Yields hashes two) : one = two := by
  induction one generalizing iterator two with
  | nil =>
    obtain ⟨item, after, run, step, _⟩ := next_succeeds yields (World.fresh_calm Fs.empty)
    obtain ⟨_, _, run', step', _⟩ := next_succeeds yields' (World.fresh_calm Fs.empty)
    obtain ⟨rfl, rfl⟩ := Outcome.ok.inj (run.symm.trans run')
    obtain ⟨item, left⟩ := item
    cases item with
    | none => exact step'.1.symm
    | some item =>
      cases item with
      | ok item =>
        obtain ⟨_, same, _⟩ := step
        cases same
      | error => exact step.elim
  | cons entry rest ih =>
    obtain ⟨item, after, run, step, _⟩ := next_succeeds yields (World.fresh_calm Fs.empty)
    obtain ⟨_, _, run', step', _⟩ := next_succeeds yields' (World.fresh_calm Fs.empty)
    obtain ⟨rfl, rfl⟩ := Outcome.ok.inj (run.symm.trans run')
    obtain ⟨item, left⟩ := item
    cases item with
    | none => cases step.1
    | some item =>
      cases item with
      | ok item =>
        obtain ⟨_, same, yields⟩ := step
        obtain ⟨_, same', yields'⟩ := step'
        cases same
        rw [same', ih yields yields']
      | error => exact step.elim

theorem SsTableReader.Reads.unique {hashes : Hashes} {reader : SsTableReader}
    {one two : SortedMap Key Entry} (reads : reader.Reads hashes one) (reads' : reader.Reads hashes two) :
    one = two := by
  have entries := (SsTableReader.iter_yields reads).unique (SsTableReader.iter_yields reads')
  obtain ⟨_, _⟩ := one
  obtain ⟨_, _⟩ := two
  cases entries
  rfl

/-- **What an engine finds** is determined by what it holds in memory. -/
theorem EngineInner.Newest.unique {hashes : Hashes} {one two : Key → Option Entry}
    {inner : EngineInner} (found : inner.Newest hashes one) (found' : inner.Newest hashes two) : one = two := by
  obtain ⟨maps, loaded, rfl⟩ := found
  obtain ⟨maps', loaded', rfl⟩ := found'
  have same : ∀ {tables : List SsTableEntry} {maps maps' : List (SortedMap Key Entry)},
      List.Forall₂ (fun entry map => entry.reader.Reads hashes map) tables maps →
      List.Forall₂ (fun entry map => entry.reader.Reads hashes map) tables maps' → maps = maps' := by
    intro tables maps maps' loaded loaded'
    induction loaded generalizing maps' with
    | nil =>
      cases loaded'
      rfl
    | cons reads _ ih =>
      cases loaded' with
      | cons reads' rest' => rw [reads.unique reads', ih rest']
  rw [same loaded loaded']

/-- With an empty memtable the tables decide. -/
theorem EngineInner.Newest.tables {hashes : Hashes} {inner : EngineInner} {newest : Key → Option Entry}
    {l0 l1 : List (SortedMap Key Entry)} (found : inner.Newest hashes newest)
    (reads0 : List.Forall₂ (fun entry map => entry.reader.Reads hashes map) inner.levels.l0 l0)
    (reads1 : List.Forall₂ (fun entry map => entry.reader.Reads hashes map) inner.levels.l1 l1)
    (empty : inner.memtable.map.entries = []) : newest = newestOf ((l0 ++ l1).map SortedMap.find?) := by
  rw [found.unique ⟨l0 ++ l1, List.rel_append reads0 reads1, rfl⟩]
  funext key
  rw [newestOf_cons, SortedMap.find?_eq_none_of_entries_nil empty, Option.none_or]

/-- Lookups, whatever the index is. -/
theorem gets_newest (calm : world.Calm) {inner : EngineInner}
    (running : Running env.hashes world.now inner lsm records snapshots) (index : VectorIndex) (key : Key) :
    ∃ last, Engine.get env key (⟨inner, index⟩, world) = .ok (Entry.visible (lsm.newest key)) last := by
  have holds : Holds env.hashes world.now (Engine.mk inner index).inner lsm _ snapshots := running.holds
  obtain ⟨_, last, found, rfl, _⟩ := holds.get_succeeds calm key
  exact ⟨last, by rw [found, Lsm.value, Entry.visible_filter]⟩

/-- Tombstones are not vectors. -/
theorem Lsm.value_eq_vector {key : Key} {bytes : Bytes} :
    lsm.value key = some (.vector bytes) ↔ lsm.newest key = some (.vector bytes) := by
  rw [Lsm.value, Option.filter_eq_some_iff]
  exact ⟨fun both => both.1, fun newest => ⟨newest, rfl⟩⟩

/-! ### An empty engine -/

section Opening

variable [LinearOrder D]

/-- **Opening an empty directory** gives an empty engine. -/
theorem open_empty {engine : Engine} (run : Engine.open env (World.fresh Fs.empty) = .ok engine world) :
    engine.vectorIndex = VectorIndex.new env.options.hnswParams ∧ ∃ next,
      Running env.hashes world.now engine.inner (Dir.empty.recovered [] next) [] [] := by
  have calm := World.fresh_calm Fs.empty
  obtain ⟨next, _, running⟩ := open_ensures calm Describes.empty
    (.absent : LogHolds env.hashes none [] []) engine world run
  refine ⟨?_, next, running⟩
  have rebuilt : Ensures (Engine.open env) (World.fresh Fs.empty) fun engine _ =>
      engine.vectorIndex = VectorIndex.new env.options.hnswParams := by
    rw [open_eq]
    refine Ensures.bind ((openInner_succeeds calm Describes.empty .absent).ensures.mono
      fun opened middle facts => ?_)
    obtain ⟨next, _, _, memtable, holds, passes⟩ := facts
    refine Ensures.bind (Ensures.mono ?_ fun index _ same => Ensures.pure same)
    refine Ensures.bind ((discoverLatestSnapshot_succeeds (passes.calm calm)
      holds.described).ensures.mono fun found after facts => ?_)
    obtain ⟨rfl, _⟩ := facts
    show Ensures (fullRebuildIndexFromLsm env opened.1) after _
    have l0 : opened.1.levels.l0 = [] := List.forall₂_nil_right_iff.mp holds.l0
    have l1 : opened.1.levels.l1 = [] := List.forall₂_nil_right_iff.mp holds.l1
    unfold fullRebuildIndexFromLsm ingestAll
    rw [memtable, l0, l1]
    intro index _ ran
    cases ran
    rfl
  exact rebuilt engine world run

/-! ### Interleavings -/

/-- An interleaving of the clients' steps, from an empty engine. -/
inductive Serves (env : Env D) (may : List Act → Server → Act → Prop) : List Act → Server → Prop
  | opened {engine : Engine} {world : World Fs}
      (run : Engine.open env (World.fresh Fs.empty) = .ok engine world) :
      Serves env may [] ⟨engine, world.now, fun _ => .idle⟩
  | step {acts : List Act} {server server' : Server} {act : Act} (serves : Serves env may acts server)
      (allowed : may acts server act) (step : server.Step env act server') :
      Serves env may (acts ++ [act]) server'

variable {may : List Act → Server → Act → Prop} {acts : List Act} {server server' : Server} {act : Act}

theorem Serves.reached (serves : Serves env may acts server) : Reached env (.up server) := by
  induction serves with
  | opened run => exact .opened .empty run trivial
  | step _ _ step ih => exact ih.stepped step trivial

/-- The limit on the acts may use what holds of every such interleaving. -/
theorem Serves.strengthen {may' : List Act → Server → Act → Prop} (serves : Serves env may acts server)
    (stronger : ∀ acts server act, Serves env may acts server → may acts server act →
      may' acts server act) :
    Serves env may' acts server := by
  induction serves with
  | opened run => exact .opened run
  | step serves allowed step ih => exact ih.step (stronger _ _ _ serves allowed) step

theorem Serves.allowed (serves : Serves env may acts server) (member : act ∈ acts) :
    ∃ acts server, may acts server act := by
  induction serves with
  | opened => cases member
  | step _ allowed _ ih =>
    rcases List.mem_append.mp member with before | last
    · exact ih before
    · exact ⟨_, _, List.mem_singleton.mp last ▸ allowed⟩

/-! ### What an act does -/

/-- The map after an act: only LSM steps write. -/
def Act.writes (act : Act) (map : Key → Option Entry) : Key → Option Entry :=
  match act with
  | .log _ call => call.writes map
  | _ => map

/-- The map the LSM steps write. -/
def logged : List Act → Key → Option Entry := List.foldl (fun map act => act.writes map) fun _ => none

@[simp] theorem logged_nil : logged [] = fun _ => none := rfl

@[simp] theorem logged_append (acts : List Act) (act : Act) :
    logged (acts ++ [act]) = act.writes (logged acts) := by
  rw [logged, List.foldl_append, ← logged]
  rfl

/-- The record of an LSM step. -/
def Act.record : Act → Option Record
  | .log _ call => call.record
  | _ => none

/-- **The map is that of the last records**, without deletions. -/
theorem logged_eq (acts : List Act) (key : Key) :
    logged acts key = (lastEntry (acts.filterMap Act.record) key).filter Entry.isLive := by
  induction acts using List.reverseRecOn with
  | nil => rfl
  | append_singleton acts act ih =>
    rw [logged_append, List.filterMap_append]
    -- A record decides its key, and leaves the others as they were.
    have record : ∀ one : Record, (if one.key = key then (some one.entry).filter Entry.isLive
        else logged acts key) =
        (lastEntry (acts.filterMap Act.record ++ [one]) key).filter Entry.isLive := by
      intro one
      rw [lastEntry_append_one, ih]
      split <;> rfl
    have none : logged acts key =
        (lastEntry (acts.filterMap Act.record ++ []) key).filter Entry.isLive := by
      rw [List.append_nil, ih]
    cases act with
    | log client call =>
      cases call with
      | flush => exact none
      | put target value => exact record ⟨.put, target, value⟩
      | putIndexed target embedding => exact record ⟨.vector, target, encodeVector embedding⟩
      | delete target => exact record ⟨.delete, target, []⟩
    | start | refuse | index | reject | encode | install | clean => exact none

/-- The step of a client touches the index. -/
def Act.Indexes : Act → Prop
  | .index _ _ => True
  | .reject _ _ => True
  | _ => False

/-- **The LSM state after a step.** -/
theorem Server.Step.value (step : server.Step env act server')
    (running : Running env.hashes server.disk server.engine.inner lsm records snapshots)
    (bounded : ∀ client, (server.clients client).Bounded) : ∃ lsm' records' snapshots',
      Running env.hashes server'.disk server'.engine.inner lsm' records' snapshots' ∧
      lsm'.value = act.writes lsm.value := by
  have calm := World.fresh_calm server.disk
  have fresh : Running env.hashes (World.fresh server.disk).now server.engine.inner lsm records
    snapshots := running
  cases step with
  | @log client call marker inner world phase run =>
    obtain ⟨_, ⟨lsm', records', settled, running', _⟩, _⟩ := call.lsmStep_running calm fresh _ _ run
    refine ⟨lsm', records', snapshots, running', ?_⟩
    funext key
    rw [settled.value key, Call.value_log]
    rfl
  | @install client marker bytes world phase run =>
    have here := bounded client
    rw [phase] at here
    obtain ⟨⟨snapshots', installed, _⟩, _⟩ := @install_running D env _ _ _ _ (fun _ => True) _ _ _ fresh
      (fun _ _ => trivial) trivial here _ _ run
    exact ⟨lsm, records, snapshots', installed, rfl⟩
  | @clean client marker world phase run =>
    have here := bounded client
    rw [phase] at here
    obtain ⟨⟨snapshots', cleaned, _⟩, _⟩ := @clean_running D env _ _ _ _ (fun _ => True) _ _ calm fresh
      (fun _ _ => trivial) here _ _ run
    exact ⟨lsm, records, snapshots', cleaned, rfl⟩
  | start => exact ⟨lsm, records, snapshots, running, rfl⟩
  | refuse => exact ⟨lsm, records, snapshots, running, rfl⟩
  | index => exact ⟨lsm, records, snapshots, running, rfl⟩
  | reject => exact ⟨lsm, records, snapshots, running, rfl⟩
  | encode => exact ⟨lsm, records, snapshots, running, rfl⟩

/-- **The index after a step** that is not an index step. -/
theorem Server.Step.vectorIndex (step : server.Step env act server') (other : ¬ act.Indexes) :
    server'.engine.vectorIndex = server.engine.vectorIndex := by
  cases step with
  | index => exact absurd trivial other
  | reject => exact absurd trivial other
  | start => rfl
  | refuse => rfl
  | log => rfl
  | encode => rfl
  | install => rfl
  | clean => rfl

/-! ### What clients are doing -/

/-- The call a client has not applied to the index yet. -/
def Phase.call : Phase → Option Call
  | .logging call => some call
  | .indexing call _ => some call
  | _ => none

@[simp] theorem Phase.marking_call (marker : Option Nat) : (Phase.marking marker).call = none := by
  cases marker <;> rfl

theorem Server.become_call {client other : Nat} {phase : Phase} {call : Call}
    (found : ((server.become client phase).clients other).call = some call) :
    (server.clients other).call = some call ∨ other = client ∧ phase.call = some call := by
  change (Function.update server.clients client phase other).call = some call at found
  by_cases same : other = client
  · rw [same, Function.update_self] at found
    exact Or.inr ⟨same, found⟩
  · rw [Function.update_of_ne same] at found
    exact Or.inl found

/-- A call is taken up when it starts. -/
theorem Server.Step.call {client : Nat} {call : Call} (step : server.Step env act server')
    (found : (server'.clients client).call = some call) :
    (server.clients client).call = some call ∨ act = .start client call := by
  cases step with
  | start =>
    rcases Server.become_call found with before | ⟨rfl, here⟩
    · exact Or.inl before
    · cases here
      exact Or.inr rfl
  | log phase =>
    rcases Server.become_call found with before | ⟨rfl, here⟩
    · exact Or.inl before
    · cases here
      exact Or.inl (by rw [phase]; rfl)
  | index =>
    rcases Server.become_call found with before | ⟨_, here⟩
    · exact Or.inl before
    · rw [Phase.marking_call] at here
      cases here
  | refuse => exact Or.inl ((Server.become_call found).resolve_right fun here => nomatch here.2)
  | reject => exact Or.inl ((Server.become_call found).resolve_right fun here => nomatch here.2)
  | encode => exact Or.inl ((Server.become_call found).resolve_right fun here => nomatch here.2)
  | install => exact Or.inl ((Server.become_call found).resolve_right fun here => nomatch here.2)
  | clean => exact Or.inl ((Server.become_call found).resolve_right fun here => nomatch here.2)

theorem Serves.started (serves : Serves env may acts server) {client : Nat} {call : Call}
    (found : (server.clients client).call = some call) : .start client call ∈ acts := by
  induction serves with
  | opened => cases found
  | step _ _ step ih =>
    rcases step.call found with before | rfl
    · exact List.mem_append_left _ (ih before)
    · exact List.mem_append_right _ (List.mem_singleton.mpr rfl)

/-- A call that took its LSM step has a record the log accepts. -/
theorem Serves.valid (serves : Serves env may acts server) {client : Nat} {call : Call}
    {marker : Option Nat} (found : server.clients client = .indexing call marker) :
    ∀ record, call.record = some record → record.Valid := by
  induction serves with
  | opened => cases found
  | @step _ before _ _ serves _ step ih =>
    have other : ∀ {server'' : Server} {acting : Nat} {phase : Phase},
        server''.clients = before.clients → (server''.become acting phase).clients client =
          .indexing call marker → phase ≠ .indexing call marker →
        before.clients client = .indexing call marker := by
      intro server'' acting phase same found different
      change Function.update server''.clients acting phase client = _ at found
      by_cases here : client = acting
      · rw [here, Function.update_self] at found
        exact absurd found different
      · rw [Function.update_of_ne here, same] at found
        exact found
    cases step with
    | @log acting call' marker' inner world phase run =>
      by_cases here : (Phase.indexing call' marker') = .indexing call marker
      · cases here
        obtain ⟨lsm, records, snapshots, running⟩ := serves.reached.running
        exact (call.lsmStep_running (World.fresh_calm before.disk) running _ _ run).1
      · exact ih (other rfl found here)
    | @index acting call' marker' index phase run =>
      refine ih (other rfl found fun equal => ?_)
      have none := Phase.marking_call marker'
      rw [equal] at none
      cases none
    | start => exact ih (other rfl found nofun)
    | refuse => exact ih (other rfl found nofun)
    | reject => exact ih (other rfl found nofun)
    | encode => exact ih (other rfl found nofun)
    | install => exact ih (other rfl found nofun)
    | clean => exact ih (other rfl found nofun)

/-- A client is idle until it starts a call. -/
theorem Server.Step.idle {client : Nat} (step : server.Step env act server')
    (idle : server.clients client = .idle) :
    server'.clients client = .idle ∨ ∃ call, act = .start client call := by
  have other : ∀ {server'' : Server} {acting : Nat} {phase : Phase},
      server''.clients = server.clients → server.clients acting ≠ .idle →
      (server''.become acting phase).clients client = .idle := by
    intro server'' acting phase same busy
    have different : client ≠ acting := fun equal => busy (equal ▸ idle)
    refine (Function.update_of_ne different _ _).trans ?_
    rw [same, idle]
  cases step with
  | @start starting call free checked =>
    by_cases same : client = starting
    · exact Or.inr ⟨call, by rw [same]⟩
    · exact Or.inl ((Function.update_of_ne same _ _).trans idle)
  | refuse phase => exact Or.inl (other rfl (by rw [phase]; exact nofun))
  | log phase => exact Or.inl (other rfl (by rw [phase]; exact nofun))
  | index phase => exact Or.inl (other rfl (by rw [phase]; exact nofun))
  | reject phase => exact Or.inl (other rfl (by rw [phase]; exact nofun))
  | encode phase => exact Or.inl (other rfl (by rw [phase]; exact nofun))
  | install phase => exact Or.inl (other rfl (by rw [phase]; exact nofun))
  | clean phase => exact Or.inl (other rfl (by rw [phase]; exact nofun))

theorem Serves.idle_unless (serves : Serves env may acts server) {client : Nat}
    (never : ∀ call, .start client call ∉ acts) : server.clients client = .idle := by
  induction serves with
  | opened => rfl
  | step _ _ step ih =>
    have before := ih fun call member => never call (List.mem_append_left _ member)
    refine (step.idle before).resolve_right ?_
    rintro ⟨call, rfl⟩
    exact never call (List.mem_append_right _ (List.mem_singleton.mpr rfl))

/-- **The LSM state of an interleaving.** -/
theorem Serves.running (serves : Serves env may acts server) : ∃ lsm records snapshots,
    Running env.hashes server.disk server.engine.inner lsm records snapshots ∧
    lsm.value = logged acts := by
  induction serves with
  | opened run =>
    obtain ⟨_, next, running⟩ := open_empty run
    exact ⟨_, _, _, running, funext fun key => rfl⟩
  | step serves _ step ih =>
    obtain ⟨lsm, records, snapshots, running, value⟩ := ih
    obtain ⟨_, bounded⟩ := serves.reached.sound
    obtain ⟨lsm', records', snapshots', running', value'⟩ := step.value running bounded
    exact ⟨lsm', records', snapshots', running', by rw [value', value, logged_append]⟩

/-- **The newest entries of an interleaving** are those of its records, but for deletions. -/
theorem Serves.newest (serves : Serves env may acts server) {newest : Key → Option Entry}
    (held : server.engine.inner.Newest env.hashes newest) (key : Key) :
    (newest key).filter Entry.isLive = (lastEntry (acts.filterMap Act.record) key).filter Entry.isLive := by
  obtain ⟨lsm, _, _, running, value⟩ := serves.running
  rw [held.unique running.holds.newest, ← logged_eq, ← value]
  rfl

/-! ### Running an interleaving -/

/-- The client that starts a call. -/
def Act.starter : Act → Option Nat
  | .start client _ => some client
  | _ => none

def Phase.isIdle : Phase → Bool
  | .idle => true
  | _ => false

/-- No call is in progress if none is of the clients that started one. -/
theorem Serves.all_idle (serves : Serves env may acts server)
    (idle : ∀ client ∈ acts.filterMap Act.starter, (server.clients client).isIdle = true) :
    ∀ client, server.clients client = .idle := by
  intro client
  by_cases started : client ∈ acts.filterMap Act.starter
  · have checked := idle client started
    cases phase : server.clients client with
    | idle => rfl
    | logging call => rw [phase] at checked; cases checked
    | indexing call marker => rw [phase] at checked; cases checked
    | encoding marker => rw [phase] at checked; cases checked
    | installing marker bytes => rw [phase] at checked; cases checked
    | cleaning marker => rw [phase] at checked; cases checked
  · exact serves.idle_unless fun call member =>
      started (List.mem_filterMap.mpr ⟨.start client call, member, rfl⟩)

/-- Let the clients take turns, as long as their acts are allowed. -/
def takeTurns (env : Env D) (allowed : List Act → Server → Act → Bool) (turns : List (Nat × Option Call)) :
    Option (List Act × Server) :=
  match Engine.open env (World.fresh Fs.empty) with
  | .ok engine world => turns.foldlM (fun state turn =>
      match state.2.advance env turn.1 turn.2 with
      | some (act, server) => if allowed state.1 state.2 act then some (state.1 ++ [act], server) else none
      | none => none) ([], ⟨engine, world.now, fun _ => .idle⟩)
  | _ => none

theorem Serves.of_takeTurns {allowed : List Act → Server → Act → Bool} {turns : List (Nat × Option Call)}
    {acts : List Act} {server : Server} (taken : takeTurns env allowed turns = some (acts, server))
    (justified : ∀ acts server act, Serves env may acts server → allowed acts server act = true →
      may acts server act) : Serves env may acts server := by
  unfold takeTurns at taken
  split at taken
  · rename_i engine world opened
    induction turns using List.reverseRecOn generalizing acts server with
    | nil =>
      cases taken
      exact .opened opened
    | append_singleton turns turn ih =>
      rw [List.foldlM_append] at taken
      obtain ⟨⟨before, server'⟩, ran, last⟩ := Option.bind_eq_some_iff.mp taken
      rw [List.foldlM_cons] at last
      obtain ⟨_, advanced, same⟩ := Option.bind_eq_some_iff.mp last
      cases same
      split at advanced
      · rename_i act server'' stepped
        split at advanced
        · rename_i checked
          cases advanced
          have serves := ih ran
          exact serves.step (justified _ _ _ serves checked) (.of_advance stepped)
        · cases advanced
      · cases advanced
  · cases taken

end Opening

end Sastran

/-
The vector index and its snapshots at every moment of a history.

However an index step ends, the index stays sound (`VectorIndex.Stays`). So whatever clients do and
wherever the process ends, every snapshot that is found on disk is one of a sound index (`Moment.Kept`), as
long as ids are left (`Moment.Few`). What a directory is opened to then depends on the newest entries
only: it is opened if their vectors can be in one index (`Env.Indexable`).
-/

import Sastran.Engine.History
import Sastran.Engine.Matched
import Sastran.Engine.Serving

namespace Sastran

open Device SsTable VectorIndex

variable {D : Type} [LinearOrder D] {env : Env D} {world : World Fs} {lsm : Lsm}
  {records : List Record} {snapshots : List (Nat × Bytes)} {params : HnswParams}

/-! ### Index steps -/

/-- Nodes are only added, and a sound index is sound afterwards, as long as ids are left. -/
def VectorIndex.Stays (params : HnswParams) (before after : VectorIndex) : Prop :=
  before.hnsw.nodes.length ≤ after.hnsw.nodes.length ∧
    (after.hnsw.nodes.length < nodeIdBound → before.Sound params → after.Sound params)

namespace VectorIndex.Stays

theorem composes : Composes (Stays params) where
  refl := fun _ => ⟨le_refl _, fun _ sound => sound⟩
  trans := fun _ _ _ one two => ⟨one.1.trans two.1, fun room sound =>
    two.2 room (one.2 (lt_of_le_of_lt two.1 room) sound)⟩

/-- From what the step does to the number of nodes, and what it does to a sound index. -/
theorem respects {program : IndexM Unit} (grows : Respects Advances program)
    (keeps : ∀ index : VectorIndex, index.Sound params → index.hnsw.nodes.length < nodeIdBound →
      Leads (fun _ after => after.Sound params) program index) : Respects (Stays params) program := by
  refine fun index => ⟨fun value after run => ⟨((grows index).1 value after run).1, fun room sound => ?_⟩,
    fun error after run => ⟨((grows index).2 error after run).1, fun room sound => ?_⟩⟩
  · have before := lt_of_le_of_lt ((grows index).1 value after run).1 room
    exact (keeps index sound before).1 value after run
  · have before := lt_of_le_of_lt ((grows index).2 error after run).1 room
    exact (keeps index sound before).2 error after run

/-- **Every index step keeps a sound index sound**, however it ends. -/
theorem upkept : Upkept env (Stays env.options.hnswParams) where
  composes := composes
  drop := fun key => respects (IndexM.dropKey_respects env.ops key) fun index sound room =>
    ((dropKey_sound env.ops sound room.le key).mono fun _ after facts => facts.1).leads
  replace := by
    intro key bytes embedding valid decoded mismatch
    refine respects (IndexM.establish_replace_respects env.ops valid.key_ne_nil embedding mismatch)
      fun index sound room => ?_
    have short : key.length < 2 ^ 32 := lt_of_le_of_lt valid.key_le (by decide)
    have sized : embedding.length < 2 ^ 32 := by
      have large : bytes.length ≤ Wal.MAX_VALUE_LEN := valid.payload_le
      have bound : Wal.MAX_VALUE_LEN < 2 ^ 32 := by decide
      have four := decodeVector_length decoded
      omega
    rcases replaceKey_outcome env.ops sound room valid.key_ne_nil short sized mismatch with
      ⟨_, after, _, run, sound', _⟩ | ⟨error, after, _, run, sound', _⟩
    · exact Succeeds.leads ⟨(), after, run, sound'⟩
    · exact Leads.of_err run sound'

/-- So does the index step of a call. -/
theorem indexStep (call : Call) (valid : ∀ record, call.record = some record → record.Valid) :
    Respects (Stays env.options.hnswParams) (call.indexStep env) := by
  cases call with
  | put key value => exact Respects.pure composes ()
  | flush => exact Respects.pure composes ()
  | delete key => exact upkept.drop key
  | putIndexed key embedding =>
    obtain ⟨named, key_le, value_le, _⟩ := valid _ rfl
    exact upkept.replace ⟨named, key_le, value_le⟩ (decodeVector_encodeVector embedding) _

end VectorIndex.Stays

/-! ### Recoveries -/

/-- A snapshot of a sound index of fewer than half as many nodes as there are ids. -/
def Taken (env : Env D) (item : Nat × Bytes) : Prop :=
  ∃ index, SnapshotOf env item index ∧ 2 * index.hnsw.nodes.length < nodeIdBound

/-- **A recovered index is sound**, if the snapshots are of sound ones. -/
theorem recoverVectorIndex_sound (calm : world.Calm) (storable : env.options.hnswParams.Storable)
    {inner : EngineInner} {log : Bytes} (holds : Holds env.hashes world.now inner lsm log snapshots)
    (taken : ∀ item ∈ snapshots, Taken env item) :
    Ensures (recoverVectorIndex env inner) world fun index _ =>
      index.hnsw.nodes.length < nodeIdBound → index.Sound env.options.hnswParams := by
  have whole : ∀ entry ∈ inner.levels.l0 ++ inner.levels.l1, ∃ map, entry.reader.Reads env.hashes map := by
    have loaded : Loaded env.hashes (inner.levels.l0 ++ inner.levels.l1) lsm.tables :=
      List.rel_append holds.l0 holds.l1
    exact ((List.forall₂_and_left _ _).mp (loaded.imp fun entry table read =>
      (⟨⟨_, read.2⟩, read⟩ : (∃ map, entry.reader.Reads env.hashes map) ∧ _))).1
  refine (Stays.upkept.recover (holds.memtable ▸ holds.valid) whole).mono fun index _ recovered room => ?_
  rcases recovered with rebuilt | ⟨path, found, bytes, read, hnsw, keys, marker, discovered, held, decoded,
    loaded⟩
  · exact rebuilt.2 room (new_sound _)
  · obtain ⟨same, described, _, passes⟩ :=
      (discoverLatestSnapshot_succeeds calm holds.described).ensures _ _ discovered
    obtain ⟨item, latest, rfl⟩ := Option.map_eq_some_iff.mp same.symm
    have here : found.now.content (snapshotFilename item.1) = some item.2 := by
      refine (described.snapshot item ?_).2
      rw [latest]
      exact List.mem_singleton_self item
    obtain ⟨rfl, _⟩ := (readFileFully_succeeds (passes.calm calm) here).ensures _ _ held
    obtain ⟨snapshot, snapshotOf, _⟩ := taken item (Dir.latest_mem latest)
    rw [snapshotOf.decoded storable] at decoded
    cases decoded
    exact loaded.2 room (snapshotOf.sound.reloaded storable snapshotOf.room)

/-! ### Histories -/

/-- Fewer than half as many nodes as there are ids. -/
def Moment.Few : Moment → Prop
  | .up server => server.engine.Few
  | .down _ => True

instance Moment.decidableFew : DecidablePred Moment.Few
  | .up server => inferInstanceAs (Decidable server.engine.Few)
  | .down _ => inferInstanceAs (Decidable True)

/-- What a client has in hand: the record of a logged call is one the log accepts, and bytes to install are
a snapshot. -/
def Phase.Ready (env : Env D) : Phase → Prop
  | .indexing call _ => ∀ record, call.record = some record → record.Valid
  | .installing marker bytes => Taken env (marker, bytes)
  | _ => True

omit [LinearOrder D] in
theorem Phase.Ready.installs {phase : Phase} (ready : phase.Ready env) : phase.Installs (Taken env) := by
  cases phase with
  | installing marker bytes => exact ready
  | idle => exact trivial
  | logging call => exact trivial
  | indexing call marker => exact trivial
  | encoding marker => exact trivial
  | cleaning marker => exact trivial

omit [LinearOrder D] in
theorem Phase.marking_ready (marker : Option Nat) : (Phase.marking marker).Ready env := by
  cases marker <;> exact trivial

/-- A sound index, and snapshots of sound ones. -/
def Moment.Kept (env : Env D) (moment : Moment) : Prop :=
  moment.Sound env (Taken env) ∧
    match moment with
    | .up server => server.engine.vectorIndex.Sound env.options.hnswParams ∧
        ∀ client, (server.clients client).Ready env
    | .down _ => True

theorem Moment.Kept.opened (storable : env.options.hnswParams.Storable) {disk : Fs} {engine : Engine}
    (run : Engine.open env (World.fresh disk) = .ok engine world) (few : engine.Few)
    (kept : Moment.Kept env (.down disk)) :
    Moment.Kept env (.up ⟨engine, world.now, fun _ => .idle⟩) := by
  refine ⟨open_sound run kept.1, ?_, fun _ => trivial⟩
  obtain ⟨dir, described, clean, taken⟩ := kept.1
  have calm := World.fresh_calm disk
  rcases clean.cases with ⟨records, log⟩ | headless
  · rw [open_eq] at run
    obtain ⟨opened, middle, ran, rest⟩ := bind_eq_ok.mp run
    obtain ⟨next, _, _, _, holds, passes⟩ := (openInner_succeeds calm described log).ensures _ _ ran
    obtain ⟨index, after, recovered, rest⟩ := bind_eq_ok.mp rest
    cases rest
    have room : index.hnsw.nodes.length < nodeIdBound := by
      have half : 2 * index.hnsw.nodes.length < nodeIdBound := few
      omega
    exact recoverVectorIndex_sound (passes.calm calm) storable holds taken _ _ recovered room
  · obtain ⟨error, after, failed, _⟩ := open_headless calm described headless
    rw [run] at failed
    cases failed

variable {server server' : Server} {act : Act}

theorem Server.Step.kept (step : server.Step env act server') (few : server'.engine.Few)
    (kept : Moment.Kept env (.up server)) : Moment.Kept env (.up server') := by
  obtain ⟨sound, index, ready⟩ := kept
  refine ⟨step.sound (fun client => (ready client).installs) sound, ?_⟩
  obtain ⟨⟨lsm, records, snapshots, running, _⟩, bounded⟩ := sound
  have room : server'.engine.vectorIndex.hnsw.nodes.length < nodeIdBound := by
    have half : 2 * server'.engine.vectorIndex.hnsw.nodes.length < nodeIdBound := few
    omega
  cases step with
  | @start client call idle checked => exact ⟨index, Phase.forall_update ready client trivial⟩
  | @refuse client call record error phase written refused =>
    exact ⟨index, Phase.forall_update ready client trivial⟩
  | @log client call marker inner world phase run =>
    obtain ⟨valid, _⟩ := call.lsmStep_running (World.fresh_calm server.disk) running _ _ run
    exact ⟨index, Phase.forall_update ready client valid⟩
  | @index client call marker index' phase run =>
    have valid := ready client
    rw [phase] at valid
    exact ⟨((Stays.indexStep call valid).ensures _ _ _ run).2 room index,
      Phase.forall_update ready client (Phase.marking_ready marker)⟩
  | @reject client call marker index' error phase run =>
    have valid := ready client
    rw [phase] at valid
    exact ⟨((Stays.indexStep call valid).ended (Or.inr ⟨error, run⟩)).2 room index,
      Phase.forall_update ready client trivial⟩
  | @encode client marker phase =>
    have small := bounded client
    rw [phase] at small
    exact ⟨index, Phase.forall_update ready client ⟨_, ⟨index, room, small, rfl⟩, few⟩⟩
  | @install client marker bytes world phase run => exact ⟨index, Phase.forall_update ready client trivial⟩
  | @clean client marker world phase run => exact ⟨index, Phase.forall_update ready client trivial⟩

/-- An interleaving with few nodes is a history. -/
theorem Serves.few {may : List Act → Server → Act → Prop} {acts : List Act}
    (serves : Serves env may acts server)
    (always : ∀ acts server act, may acts server act → server.engine.Few) (few : server.engine.Few) :
    ReachedBy env Moment.Few (.up server) := by
  induction serves with
  | opened run => exact .opened .empty run few
  | step serves allowed step ih => exact (ih (always _ _ _ allowed)).stepped step few

/-- **At every moment** of a history with few nodes the index is sound, and so are those of the
snapshots. -/
theorem ReachedBy.kept (storable : env.options.hnswParams.Storable) {moment : Moment}
    (reached : ReachedBy env Moment.Few moment) : moment.Kept env := by
  induction reached with
  | empty =>
    exact ⟨⟨Dir.empty, Describes.empty, .absent, fun _ member => absurd member List.not_mem_nil⟩, trivial⟩
  | opened _ run few ih => exact ih.opened storable run few
  | interrupted _ ended point _ ih =>
    exact ⟨((open_readable (World.fresh_calm _) ih.1).ended ended).of_fresh _ point, trivial⟩
  | stepped _ step few ih => exact step.kept few ih
  | crashed _ crash _ ih => exact ⟨crash.sound (fun client => (ih.2.2 client).installs) ih.1, trivial⟩

/-! ### Vectors in one index -/

/-- The vectors among the newest entries can be in one index: they have one dimension, which is that of the
options if there is one, the metric accepts them, and they are fewer than half as many as ids. -/
structure Env.Indexable (env : Env D) (newest : Key → Option Entry) : Prop where
  dimension : ∃ dim, 0 < dim ∧ (env.options.hnswParams.dim = 0 ∨ env.options.hnswParams.dim = dim) ∧
    ∀ key entry, newest key = some entry → env.Takes dim entry
  few : ∀ keys : List Key, keys.Nodup → (∀ key ∈ keys, ∃ bytes, newest key = some (.vector bytes)) →
    2 * keys.length < nodeIdBound

namespace Env.Indexable

omit [LinearOrder D] in
theorem rebuildable (indexable : env.Indexable lsm.newest) : ∃ dim, lsm.Rebuildable env dim := by
  obtain ⟨dim, positive, preset, takes⟩ := indexable.dimension
  exact ⟨dim, positive, preset, takes⟩

omit [LinearOrder D] in
theorem vectorKeys_few (indexable : env.Indexable lsm.newest) : 2 * lsm.vectorKeys.length < nodeIdBound := by
  refine indexable.few _ lsm.vectorKeys_nodup fun key member => ?_
  obtain ⟨entry, found, isVector⟩ := Lsm.mem_vectorKeys.mp member
  cases entry with
  | tombstone => cases isVector
  | put bytes => cases isVector
  | vector bytes => exact ⟨bytes, found⟩

omit [LinearOrder D] in
/-- There are ids for them, and for the nodes of a snapshot. -/
theorem roomy (indexable : env.Indexable lsm.newest) {latest : Option (Nat × Bytes)}
    (taken : ∀ item, latest = some item → Taken env item) : Roomy env lsm latest := by
  have few := indexable.vectorKeys_few
  refine ⟨by omega, fun item found => ?_⟩
  obtain ⟨snapshot, snapshotOf, half⟩ := taken item found
  exact ⟨snapshot, snapshotOf, by omega⟩

end Env.Indexable

end Sastran

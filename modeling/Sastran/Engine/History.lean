/-
The vector index over histories.

`Indexed` is what calls and reopenings keep about the index beside `Refines`: it covers the stored
vectors, the vectors that count can be in one index, and every snapshot on disk, with the entries newer
than its marker over it, covers them as well. A key may stay registered behind a plain write; where no
plain write was on a vector, the index registers nothing else (`exact`).

* `Indexed.call`, `Indexed.reopened` - the steps.
* `Runs.indexed` - every state of a run.
* `history_mirrors` - where plain writes spare vectors, the index mirrors the newest entries.
-/

import Sastran.Engine.Dimension
import Sastran.Engine.Filtered

namespace Sastran

open Device VectorIndex

variable {D : Type} {env : Env D}

/-! ### Covering -/

/-- Every stored vector is registered; where the index is `exact`, nothing else is. -/
def Covers (exact : Prop) (view vectors : Key → Option (List F32)) : Prop :=
  ∀ key, exact ∨ vectors key ≠ none → view key = vectors key

theorem Covers.refl {exact : Prop} (vectors : Key → Option (List F32)) : Covers exact vectors vectors :=
  fun _ _ => rfl

/-- **An index of some LSM state and its snapshots.** -/
structure Indexed (env : Env D) (exact : Prop) (index : VectorIndex) (lsm : Lsm)
    (snapshots : List (Nat × Bytes)) : Prop where
  sound : index.Sound env.options.hnswParams
  few : 2 * index.hnsw.nodes.length < nodeIdBound
  vectors : ∃ dim, lsm.Rebuildable env dim
  covers : Covers exact index.view (lsm.vectors env)
  snapshots : ∀ item ∈ snapshots, ∃ snapshot, SnapshotOf env item snapshot ∧
    2 * snapshot.hnsw.nodes.length < nodeIdBound ∧
    Covers exact ((lsm.since item.1).overlaid env snapshot.view) (lsm.vectors env)

variable {index index' : VectorIndex} {lsm lsm' : Lsm} {records records' : List Record}
  {snapshots : List (Nat × Bytes)} {exact : Prop} {dim : Nat}

/-- The vectors of a state depend on its values only. -/
theorem Lsm.vectors_eq (env : Env D) (lsm : Lsm) (key : Key) :
    lsm.vectors env key = (lsm.value key).bind env.registers :=
  (Lsm.registers_value env lsm key).symm

namespace Lsm

theorem overlaid_write (lsm : Lsm) (key : Key) (entry : Entry) (base : Key → Option (List F32))
    (other : Key) : (lsm.write key entry).overlaid env base other =
      if key = other then env.registers entry else lsm.overlaid env base other := by
  rw [overlaid, newest_write]
  by_cases same : key = other
  · rw [if_pos same, if_pos same]
  · rw [if_neg same, if_neg same]
    rfl

/-- No table is as new as the next id. -/
theorem Ordered.since_nextId (ordered : lsm.Ordered) :
    lsm.since lsm.nextId = { lsm with l0 := [], l1 := [] } := by
  have none : ∀ tables : List Table, (∀ table ∈ tables, table ∈ lsm.tables) →
      tables.filter (fun table => decide (lsm.nextId ≤ table.1)) = [] := by
    intro tables inside
    refine List.filter_eq_nil_iff.mpr fun table member => ?_
    have below := ordered.bound table (inside table member)
    simpa using below
  rw [since, none lsm.l0 fun table member => List.mem_append_left _ member,
    none lsm.l1 fun table member => List.mem_append_right _ member]

/-- Behind a marker that is the next id there is only the memtable. -/
theorem Ordered.overlaid_nextId (ordered : lsm.Ordered) (base : Key → Option (List F32)) (key : Key) :
    (lsm.since lsm.nextId).overlaid env base key =
      match lsm.memtable.find? key with
      | some entry => env.registers entry
      | none => base key := by
  rw [ordered.since_nextId, overlaid, newest_eq]
  show (match (lsm.memtable.find? key).or none with | some entry => _ | none => _) = _
  rw [Option.or_none]

end Lsm

/-- A registered vector has the dimension of the graph. -/
theorem VectorIndex.Sound.view_length {params : HnswParams} (sound : index.Sound params) {key : Key}
    {vector : List F32} (shown : index.view key = some vector) : vector.length = index.hnsw.dim := by
  obtain ⟨id, _, here⟩ := Option.bind_eq_some_iff.mp shown
  rw [HnswIndex.contents_getElem?, Option.map_map, Option.map_eq_some_iff] at here
  obtain ⟨node, here, rfl⟩ := here
  exact sound.wf.dims node (List.mem_of_getElem? here)

/-- **Keys with a vector are at most as many as nodes.** -/
theorem VectorIndex.Sound.keys_le {params : HnswParams} (sound : index.Sound params) {keys : List Key}
    (distinct : keys.Nodup) (shown : ∀ key ∈ keys, index.view key ≠ none) :
    keys.length ≤ index.hnsw.nodes.length := by
  have registered : ∀ key ∈ keys, ∃ id, index.keyToNode.find? key = some id ∧
      id < index.hnsw.nodes.length := by
    intro key member
    obtain ⟨id, found⟩ := Option.ne_none_iff_exists'.mp
      fun unregistered => shown key member (sound.matched.view_eq_none.mpr unregistered)
    obtain ⟨vector, here⟩ := sound.matched.node found
    have bound := (List.getElem?_eq_some_iff.mp here).1
    rw [HnswIndex.contents_length] at bound
    exact ⟨id, found, bound⟩
  have nodup : (keys.map fun key => (index.keyToNode.find? key).getD 0).Nodup := by
    refine distinct.map_on fun key member other member' same => ?_
    obtain ⟨id, found, _⟩ := registered key member
    obtain ⟨id', found', _⟩ := registered other member'
    rw [found, found'] at same
    obtain rfl : id = id' := same
    have one := (sound.matched.inverse key id).mp found
    rw [(sound.matched.inverse other id).mp found'] at one
    exact (Option.some.inj one).symm
  have few := nodup.length_le_of_subset fun id member => by
    obtain ⟨key, listed, rfl⟩ := List.mem_map.mp member
    obtain ⟨id, found, bound⟩ := registered key listed
    rw [found]
    exact List.mem_range.mpr bound
  rw [List.length_map, List.length_range] at few
  exact few

/-- A vector that an index step takes is accepted by the metric, and has the dimension of the graph from
then on. -/
theorem Call.putIndexed_admits [LinearOrder D] {target : Key} {embedding : List F32}
    (valid : ∀ record, (Call.putIndexed target embedding).record = some record → record.Valid)
    (sound : index.Sound env.options.hnswParams) (room : index.hnsw.nodes.length < nodeIdBound)
    (run : (Call.putIndexed target embedding).indexStep env index = .ok () index') :
    env.ops.preprocessVector env.options.hnswParams.metric embedding ≠ none ∧
      index'.hnsw.dim = embedding.length := by
  obtain ⟨named, key_le, value_le, _⟩ := valid _ rfl
  have short : target.length < 2 ^ 32 := lt_of_le_of_lt key_le (by decide)
  have sized : embedding.length < 2 ^ 32 := by
    have bound : 4 * embedding.length ≤ Wal.MAX_VALUE_LEN := encodeVector_length embedding ▸ value_le
    simp only [Wal.MAX_VALUE_LEN] at bound
    omega
  rcases replaceKey_outcome env.ops sound room named short sized
      (Engine.dimensionError embedding.length) with
    ⟨processed, after, admitted, run', _, _, _, established⟩ | ⟨error, after, _, run', _⟩
  · obtain rfl := (Outcome.ok.inj (run'.symm.trans run)).2
    have accepted := admitted.graph.2.2
    rw [sound.metric] at accepted
    exact ⟨by rw [accepted]; exact Option.some_ne_none _, established.graph⟩
  · cases run'.symm.trans run

namespace Indexed

/-- A state without entries. -/
theorem opened (env : Env D) (exact : Prop) (next : Nat) :
    Indexed env exact (VectorIndex.new env.options.hnswParams) (Dir.empty.recovered [] next) [] where
  sound := new_sound _
  few := Nat.two_pow_pos 32
  vectors := by
    by_cases unset : env.options.hnswParams.dim = 0
    · exact ⟨1, Nat.one_pos, Or.inl unset, nofun⟩
    · exact ⟨_, Nat.pos_of_ne_zero unset, Or.inr rfl, nofun⟩
  covers := fun _ _ => rfl
  snapshots := nofun

/-- The vectors that count are at most as many as nodes. -/
theorem vectorKeys_le (indexed : Indexed env exact index lsm snapshots) :
    lsm.vectorKeys.length ≤ index.hnsw.nodes.length := by
  refine indexed.sound.keys_le lsm.vectorKeys_nodup fun key member => ?_
  obtain ⟨dim, rebuildable⟩ := indexed.vectors
  obtain ⟨entry, newest, isVector⟩ := Lsm.mem_vectorKeys.mp member
  have registers : lsm.vectors env key ≠ none := by
    rw [Lsm.vectors, newest, Option.bind_some]
    cases entry with
    | vector bytes => exact (rebuildable.takes key _ newest).2
    | put value => cases isVector
    | tombstone => cases isVector
  rw [indexed.covers key (Or.inr registers)]
  exact registers

/-- The vectors that a call leaves. -/
theorem vectors_after (call : Call) (settled : Settled (lsm.log call.record) records lsm' records')
    (key : Key) : lsm'.vectors env key =
      if call.key = some key then call.vector env else lsm.vectors env key := by
  rw [Lsm.vectors_eq, settled.value, call.value_log, call.registers_writes, ← Lsm.vectors_eq]

/-- What an index covers, it covers after a call, where no plain write is on a vector. -/
theorem covers_after (call : Call) (settled : Settled (lsm.log call.record) records lsm' records')
    (spared : exact → ∀ key value, call = .put key value → lsm.vectors env key = none)
    {view view' : Key → Option (List F32)} (covers : Covers exact view (lsm.vectors env))
    (stepped : ∀ key, view' key = if call.indexKey = some key then call.vector env else view key) :
    Covers exact view' (lsm'.vectors env) := by
  intro key wanted
  have after : lsm'.vectors env key = _ := vectors_after call settled key
  have shown := stepped key
  by_cases written : call.key = some key
  · rw [if_pos written] at after
    by_cases indexed : call.indexKey = some key
    · rw [if_pos indexed] at shown
      rw [shown, after]
    · -- a plain write: the index is left as it is
      rw [if_neg indexed] at shown
      have plain : ∃ value, call = .put key value := by
        cases call with
        | put target value => exact ⟨value, by rw [Option.some.inj written]⟩
        | putIndexed target embedding => exact absurd written indexed
        | delete target => exact absurd written indexed
        | flush => cases written
      obtain ⟨value, rfl⟩ := plain
      have clean : exact := wanted.resolve_right fun stored => stored after
      rw [shown, after, covers key (Or.inl clean)]
      exact spared clean key value rfl
  · have aside : call.indexKey ≠ some key := by
      cases call with
      | put target value => exact nofun
      | flush => exact nofun
      | putIndexed target embedding => exact written
      | delete target => exact written
    rw [if_neg written] at after
    rw [if_neg aside] at shown
    rw [after] at wanted
    rw [shown, after]
    exact covers key wanted

variable [LinearOrder D]

/-- **After a call the vectors that count can still be in one index.** -/
theorem vectors_rebuildable {call : Call} (indexed : Indexed env exact index lsm snapshots)
    (effect : call.Effect env index lsm records index' lsm' records') :
    ∃ dim, lsm'.Rebuildable env dim := by
  obtain ⟨dim, rebuildable⟩ := indexed.vectors
  have room : index.hnsw.nodes.length < nodeIdBound := by have := indexed.few; omega
  have value : ∀ key, lsm'.value key = call.writes lsm.value key := fun key => by
    rw [effect.settled.value, call.value_log]
  -- Only vectors have to be taken, and these are values.
  have takes : ∀ dim, (∀ key bytes, lsm'.value key = some (.vector bytes) → env.Takes dim (.vector bytes)) →
      ∀ key entry, lsm'.newest key = some entry → env.Takes dim entry := by
    intro dim vectors key entry found
    cases entry with
    | tombstone => exact trivial
    | put bytes => exact trivial
    | vector bytes => exact vectors key bytes (Lsm.value_eq_vector.mpr found)
  have before : ∀ key bytes, lsm.value key = some (.vector bytes) → env.Takes dim (.vector bytes) :=
    fun key bytes found => rebuildable.takes key _ (Lsm.value_eq_vector.mp found)
  by_cases writes : ∃ key embedding, call = .putIndexed key embedding
  · obtain ⟨target, embedding, rfl⟩ := writes
    have checked : Engine.checkEmbedding embedding index = .ok () index := effect.checked
    obtain ⟨nonempty, _⟩ := Engine.checkEmbedding_passed checked
    obtain ⟨sound, view⟩ := Call.indexStep_ensures _ effect.valid indexed.sound room _ _ effect.indexed
    obtain ⟨accepted, graph⟩ := Call.putIndexed_admits effect.valid indexed.sound room effect.indexed
    refine ⟨embedding.length, List.length_pos_of_ne_nil nonempty, graph ▸ sound.preset.imp_right Eq.symm,
      takes _ ?_⟩
    intro key bytes found
    rw [value] at found
    by_cases same : target = key
    · simp only [Call.writes, if_pos same, Option.some.injEq, Entry.vector.injEq] at found
      rw [← found]
      exact ⟨encodeVector_length embedding, by rw [Env.registers_encodeVector]; exact accepted⟩
    · -- an older vector is registered in the same graph
      simp only [Call.writes, if_neg same] at found
      have taken := before key bytes found
      obtain ⟨older, processed, _, sized, registered, processing⟩ := taken.decoded
      have stored : lsm.vectors env key = some processed := by
        rw [Lsm.vectors_eq, found, Option.bind_some, registered]
      have kept : index'.view key = index.view key :=
        (view key).trans (if_neg fun other => same (Option.some.inj other))
      have here : index'.view key = some processed := by
        rw [kept, indexed.covers key (Or.inr (by rw [stored]; exact Option.some_ne_none _)), stored]
      have length := sound.view_length here
      rw [graph, FloatOps.preprocess_length processing, sized] at length
      rw [← length]
      exact taken
  · refine ⟨dim, rebuildable.positive, rebuildable.preset, takes _ fun key bytes found => ?_⟩
    rw [value] at found
    cases call with
    | putIndexed key embedding => exact absurd ⟨key, embedding, rfl⟩ writes
    | flush => exact before key bytes found
    | put target written =>
      simp only [Call.writes] at found
      split at found
      · cases found
      · exact before key bytes found
    | delete target =>
      simp only [Call.writes] at found
      split at found
      · cases found
      · exact before key bytes found

/-- **A call keeps it**, where its plain write, if it is one, spares vectors. -/
theorem call {call : Call} (indexed : Indexed env exact index lsm snapshots)
    (effect : call.Effect env index lsm records index' lsm' records')
    (few : 2 * index'.hnsw.nodes.length < nodeIdBound) (small : lsm'.nextId < u64Bound)
    (ordered : lsm'.Ordered)
    (spared : exact → ∀ key value, call = .put key value → lsm.vectors env key = none) :
    Indexed env exact index' lsm' (snapshotsAfter env index' snapshots (lsm.marker lsm')) := by
  have room : index.hnsw.nodes.length < nodeIdBound := by have := indexed.few; omega
  obtain ⟨sound, view⟩ := call.indexStep_ensures effect.valid indexed.sound room _ _ effect.indexed
  have covers := covers_after call effect.settled spared indexed.covers view
  refine ⟨sound, few, vectors_rebuildable indexed effect, covers, fun item member => ?_⟩
  by_cases marked : lsm.nextId = lsm'.nextId
  · -- no table was written: the write is in the memtable
    rw [Lsm.marker, if_neg (not_not.mpr marked)] at member
    obtain ⟨snapshot, taken, few', before⟩ := indexed.snapshots item member
    refine ⟨snapshot, taken, few', ?_⟩
    have same : lsm' = lsm.log call.record :=
      effect.settled.same (by rw [Lsm.log_nextId]; exact marked.symm)
    intro key wanted
    have after : lsm'.vectors env key = _ := vectors_after call effect.settled key
    cases recorded : call.record with
    | none =>
      rw [recorded] at same
      subst same
      exact before key wanted
    | some record =>
      rw [recorded] at same
      have written : lsm'.vectors env key =
          if record.key = key then env.registers record.entry else lsm.vectors env key := by
        rw [same]
        show ((lsm.write record.key record.entry).newest key).bind env.registers = _
        rw [Lsm.newest_write]
        split <;> rfl
      rw [written] at wanted ⊢
      rw [same]
      show ((lsm.since item.1).write record.key record.entry).overlaid env snapshot.view key = _
      rw [Lsm.overlaid_write]
      by_cases here : record.key = key
      · rw [if_pos here, if_pos here]
      · rw [if_neg here] at wanted ⊢
        rw [if_neg here]
        exact before key wanted
  · -- a new snapshot: only the memtable is newer
    rw [Lsm.marker, if_pos marked] at member
    obtain rfl := List.mem_singleton.mp member
    refine ⟨index', ⟨sound, by omega, small, rfl⟩, few, fun key wanted => ?_⟩
    show (lsm'.since lsm'.nextId).overlaid env index'.view key = _
    rw [ordered.overlaid_nextId]
    cases newer : lsm'.memtable.find? key with
    | none => exact covers key wanted
    | some entry =>
      rw [Lsm.vectors, Lsm.newest_eq, newer]
      rfl

omit [LinearOrder D] in
/-- **Reopening keeps it.** -/
theorem reopened (storable : env.options.hnswParams.Storable)
    (indexed : Indexed env exact index lsm snapshots) {log : Bytes} {next : Nat}
    (recovered : Recovered env dim { lsm with nextId := next } (lsm.stored log snapshots).latest index')
    (few : 2 * index'.hnsw.nodes.length < nodeIdBound) :
    Indexed env exact index' { lsm with nextId := next } (lsm.stored log snapshots).latest.toList := by
  have latest : ∀ item, (lsm.stored log snapshots).latest = some item → item ∈ snapshots :=
    fun item found => Dir.latest_mem found
  refine ⟨recovered.sound, few, ?_, ?_, fun item member => ?_⟩
  · obtain ⟨dim, rebuildable⟩ := indexed.vectors
    exact ⟨dim, rebuildable.positive, rebuildable.preset, rebuildable.takes⟩
  · rcases recovered.view with same | ⟨item, snapshot, found, taken, same⟩
    · rw [same]
      exact Covers.refl _
    · obtain ⟨other, taken', _, covers⟩ := indexed.snapshots item (latest item found)
      have reloaded := taken'.reloaded_eq taken storable
      have view : snapshot.view = other.view := by
        rw [← view_reloaded snapshot, ← view_reloaded other, reloaded]
      rw [same, view]
      exact covers
  · exact indexed.snapshots item (latest item (Option.mem_toList.mp member))

omit [LinearOrder D] in
/-- **There is room** for the recovery of the index. -/
theorem roomy (indexed : Indexed env exact index lsm snapshots) (log : Bytes) (next : Nat) :
    Roomy env { lsm with nextId := next } (lsm.stored log snapshots).latest := by
  have keys : ({ lsm with nextId := next } : Lsm).vectorKeys.length ≤ index.hnsw.nodes.length :=
    indexed.vectorKeys_le
  have few := indexed.few
  refine ⟨by omega, fun item found => ?_⟩
  obtain ⟨snapshot, taken, few', _⟩ := indexed.snapshots item (Dir.latest_mem found)
  exact ⟨snapshot, taken, by omega⟩

end Indexed

/-! ### Runs -/

/-- Fewer than half as many nodes as there are ids. -/
def Engine.Few (engine : Engine) : Prop := 2 * engine.vectorIndex.hnsw.nodes.length < nodeIdBound

instance : DecidablePred Engine.Few := fun _ => inferInstanceAs (Decidable (_ < _))

variable [LinearOrder D]

/-- What holds of the engine in every state of the run with these events. -/
def Throughout (env : Env D) (events : List Event) (good : Engine → Prop) : Prop :=
  ∀ earlier state, earlier <+: events → Runs env earlier state → good state.1

omit [LinearOrder D] in
/-- No plain write is on a key whose newest entry is a vector. -/
def SparesVectors (events : List Event) : Prop :=
  ∀ earlier key value, earlier ++ [.call (.put key value)] <+: events →
    ∀ bytes, reference earlier key ≠ some (.vector bytes)

theorem Throughout.before {events : List Event} {event : Event} {good : Engine → Prop}
    (throughout : Throughout env (events ++ [event]) good) : Throughout env events good :=
  fun earlier state listed => throughout earlier state (listed.trans (List.prefix_append _ _))

theorem SparesVectors.before {events : List Event} {event : Event}
    (spares : SparesVectors (events ++ [event])) : SparesVectors events :=
  fun earlier key value listed => spares earlier key value (listed.trans (List.prefix_append _ _))

variable {world : World Fs}

/-- **Closing and reopening** recovers the index. -/
theorem reopen_recovers {engine : Engine} (storable : env.options.hnswParams.Storable) (calm : world.Calm)
    (running : Running env.hashes world.now engine.inner lsm records snapshots)
    (indexed : Indexed env exact engine.vectorIndex lsm snapshots) :
    Ensures (Engine.reopen env) (engine, world) fun _ after => ∃ next dim,
      Running env.hashes after.2.now after.1.inner { lsm with nextId := next } records
        (lsm.stored (logBytes env.hashes records) snapshots).latest.toList ∧ after.2.Calm ∧
      Recovered env dim { lsm with nextId := next }
        (lsm.stored (logBytes env.hashes records) snapshots).latest after.1.vectorIndex := by
  refine Ensures.bind ((close_ensures world running.holds.running).mono fun _ closed quiet => ?_)
  obtain ⟨engine', world'⟩ := closed
  have described : Describes env.hashes world'.now (lsm.stored (logBytes env.hashes records) snapshots) :=
    quiet.now ▸ running.described
  have log : LogHolds env.hashes (lsm.stored (logBytes env.hashes records) snapshots).log records
      (logBytes env.hashes records) := LogHolds.whole running.valid
  have calm' := quiet.calm calm
  obtain ⟨dim, rebuildable⟩ := indexed.vectors
  have vectors : ∀ next, ((lsm.stored (logBytes env.hashes records) snapshots).recovered records
      next).Rebuildable env dim := by
    intro next
    rw [running.recovered]
    exact ⟨rebuildable.positive, rebuildable.preset, rebuildable.takes⟩
  have opening := open_succeeds calm' storable described log vectors fun next => by
    rw [running.recovered]
    exact indexed.roomy _ next
  refine Ensures.bind (Ensures.zoom ?_)
  intro opened after run
  obtain ⟨next, _, memtable, holds, recovered⟩ := opening.ensures opened after run
  rw [running.recovered] at holds recovered
  have passes := (open_leads calm' described log).1 opened after run
  intro _ last ran
  cases ran
  exact ⟨next, dim, ⟨holds, running.valid, memtable⟩, passes.calm calm', recovered⟩

/-- **The index in every state of a run.** -/
theorem Runs.indexed {events : List Event} {state : Engine × World Fs}
    (storable : env.options.hnswParams.Storable) (runs : Runs env events state)
    (few : Throughout env events Engine.Few) (spared : exact → SparesVectors events) :
    ∃ lsm records snapshots, Refines env events state lsm records snapshots ∧
      Indexed env exact state.1.vectorIndex lsm snapshots := by
  induction runs with
  | @opened engine world run =>
    obtain ⟨same, next, running⟩ := open_empty run
    have log : LogHolds env.hashes Dir.empty.log [] (logBytes env.hashes []) := .absent
    have calm := World.fresh_calm Fs.empty
    refine ⟨_, [], [], ⟨((open_leads calm Describes.empty log).1 engine world run).calm calm, running,
      fun key => rfl⟩, ?_⟩
    rw [same]
    exact Indexed.opened env exact next
  | @step events before after event runs run ih =>
    obtain ⟨lsm, records, snapshots, refines, indexed⟩ := ih few.before fun clean => (spared clean).before
    have few' : after.1.Few := few _ after (List.prefix_refl _) (runs.step event run)
    obtain ⟨engine, world⟩ := before
    cases event with
    | call call =>
      obtain ⟨lsm', records', effect, running, passes⟩ :=
        call.ensures refines.calm refines.running _ _ run
      refine ⟨lsm', records', _, refines.call (passes.calm refines.calm) effect.settled running,
        indexed.call effect few' running.holds.small running.holds.ordered ?_⟩
      rintro clean key value rfl
      have aside := spared clean events key value (List.prefix_refl _)
      rw [Lsm.vectors_eq, refines.value]
      cases held : reference events key with
      | none => rfl
      | some entry =>
        cases entry with
        | vector bytes => exact absurd held (aside bytes)
        | put value => rfl
        | tombstone => rfl
    | reopen =>
      obtain ⟨next, dim, running, calm, recovered⟩ :=
        reopen_recovers storable refines.calm refines.running indexed _ _ run
      refine ⟨_, _, _, ⟨calm, running, fun key => ?_⟩, indexed.reopened storable recovered few'⟩
      rw [reference_reopen, ← refines.value]
      rfl

/-! ### Searches -/

namespace VectorIndex

/-- The same keys are registered, for the same nodes. -/
structure SameKeys (before after : VectorIndex) : Prop where
  keyToNode : after.keyToNode = before.keyToNode
  nodeToKey : after.nodeToKey = before.nodeToKey

omit [LinearOrder D] in
theorem onHnsw_keys {α : Type} (program : Prog Error HnswIndex α) (index : VectorIndex) :
    Ensures (IndexM.onHnsw program) index fun _ after => SameKeys index after := by
  intro value after run
  rw [IndexM.onHnsw_eq] at run
  split at run
  · cases run
    exact ⟨rfl, rfl⟩
  · cases run
  · cases run

omit [LinearOrder D] in
/-- Hits are returned under registered keys. -/
theorem SameKeys.withKeys_registered (same : SameKeys index index') (matched : index.Matched)
    {hits : List (NodeId × D)} {result : NearestResult D} (member : result ∈ Engine.withKeys index' hits) :
    index.keyToNode.find? result.key ≠ none := by
  obtain ⟨⟨id, distance⟩, _, named⟩ := List.mem_filterMap.mp member
  obtain ⟨key, found, rfl⟩ := Option.map_eq_some_iff.mp named
  rw [keyForNode, same.nodeToKey] at found
  rw [(matched.inverse key id).mpr found]
  exact Option.some_ne_none id

/-- **A search returns registered keys only.** -/
theorem nearest_registered (matched : index.Matched) (query : List F32) (k : Nat) :
    Ensures (Engine.nearest env query k) index fun results _ =>
      ∀ result ∈ results, index.keyToNode.find? result.key ≠ none := by
  refine Ensures.bind ((onHnsw_keys _ index).mono fun hits searched same => ?_)
  refine Ensures.bind_ok rfl (Ensures.pure fun result member => ?_)
  exact same.withKeys_registered matched member

/-- **So does a filtered search.** -/
theorem nearestFiltered_registered (matched : index.Matched) (query : List F32) (k : Nat)
    (predicate : Key → Bool) :
    Ensures (Engine.nearestFiltered env query k predicate) index fun results _ =>
      ∀ result ∈ results, index.keyToNode.find? result.key ≠ none := by
  refine Ensures.bind_ok rfl (Ensures.ite (fun _ => Ensures.pure nofun) fun _ =>
    Ensures.ite (fun _ => Ensures.pure nofun) fun _ => ?_)
  refine Ensures.loop (fun _ after => SameKeys index after) (fun factor before same => ?_) _ _ _ ⟨rfl, rfl⟩
  refine Ensures.bind ((onHnsw_keys _ before).mono fun hits searched same' => ?_)
  have kept : SameKeys index searched :=
    ⟨same'.keyToNode.trans same.keyToNode, same'.nodeToKey.trans same.nodeToKey⟩
  refine Ensures.ite (fun _ => Ensures.stop) fun _ => Ensures.bind_ok rfl (Ensures.pure ?_)
  split
  · rename_i done
    split at done
    · cases done
    · exact kept
  · rename_i done
    split at done
    · cases done
      intro result member
      exact kept.withKeys_registered matched (List.mem_filter.mp (List.mem_of_mem_take member)).1
    · cases done

end VectorIndex

/-! ### Mirroring -/

/-- **The index mirrors the stored vectors** in every state of a run whose plain writes are on keys that
hold no vector at that time, as long as the graph has fewer than 2^31 nodes: the registered keys are those
whose newest entry is a vector, each with a live node that holds what the metric makes of it; and a search
returns no other keys. -/
theorem history_mirrors {events : List Event} {engine : Engine} {world : World Fs}
    (storable : env.options.hnswParams.Storable) (runs : Runs env events (engine, world))
    (few : Throughout env events Engine.Few) (spares : SparesVectors events) :
    ∃ newest, engine.inner.Newest env.hashes newest ∧ engine.vectorIndex.Mirrors env newest ∧
      (∀ query k results after, Engine.nearest env query k engine.vectorIndex = .ok results after →
        ∀ result ∈ results, ∃ bytes, newest result.key = some (.vector bytes)) ∧
      ∀ query k predicate results after,
        Engine.nearestFiltered env query k predicate engine.vectorIndex = .ok results after →
        ∀ result ∈ results, ∃ bytes, newest result.key = some (.vector bytes) := by
  have clean : True → SparesVectors events := fun _ => spares
  obtain ⟨lsm, records, snapshots, refines, indexed⟩ := runs.indexed storable few clean
  have matched := indexed.sound.matched
  have view : ∀ key, engine.vectorIndex.view key = lsm.vectors env key :=
    fun key => indexed.covers key (Or.inl trivial)
  obtain ⟨dim, rebuildable⟩ := indexed.vectors
  have mirrors : engine.vectorIndex.Mirrors env lsm.newest :=
    (matched.mirrors_iff fun key bytes found => (rebuildable.takes key _ found).2).mpr view
  have vector : ∀ key, engine.vectorIndex.keyToNode.find? key ≠ none →
      ∃ bytes, lsm.newest key = some (.vector bytes) := by
    intro key registered
    have here := mirrors key
    split at here
    · rename_i bytes found
      exact ⟨bytes, found⟩
    · exact absurd here registered
  refine ⟨lsm.newest, refines.running.holds.newest, mirrors, ?_, ?_⟩
  · intro query k results after run result member
    exact vector _ (nearest_registered matched query k results after run result member)
  · intro query k predicate results after run result member
    exact vector _ (nearestFiltered_registered matched query k predicate results after run result member)

/-! ### Two histories -/

/-- A run's state is what its events compute. -/
theorem Runs.runAll_eq {events : List Event} {state : Engine × World Fs} (runs : Runs env events state) :
    runAll env events = some state := by
  induction runs with
  | opened run =>
    rw [runAll, run]
    rfl
  | @step events before after event _ run ih =>
    unfold runAll at ih ⊢
    split at ih
    · rw [List.foldlM_append, ih]
      show (do
        let next ← (event.run env before).left
        some next) = some after
      rw [run]
      rfl
    · cases ih

theorem Throughout.of_runAll {events : List Event} {good : Engine → Prop} [DecidablePred good]
    (all : ∀ earlier ∈ events.inits,
      (runAll env earlier).all (fun state => decide (good state.1)) = true) :
    Throughout env events good := by
  intro earlier state listed runs
  have here := all earlier ((List.mem_inits _ _).mpr listed)
  rw [runs.runAll_eq] at here
  exact of_decide_eq_true here

/-- Whether an event is a plain write of a key that has a vector after these. -/
def Event.hits (earlier : List Event) : Event → Bool
  | .call (.put key _) => ((reference earlier key).map Entry.isVector).getD false
  | _ => false

omit [LinearOrder D] in
theorem SparesVectors.of_hits {events : List Event}
    (spared : ∀ earlier ∈ events.inits,
      ((events[earlier.length]?).map (Event.hits earlier)).getD false = false) :
    SparesVectors events := by
  intro earlier key value listed bytes found
  have here := spared earlier ((List.mem_inits _ _).mpr ((List.prefix_append _ _).trans listed))
  obtain ⟨rest, rfl⟩ := listed
  simp [Event.hits, found, Entry.isVector] at here

/-- A vector that is flushed and replaced by another, a plain write of another key, and a reopening. -/
theorem history_mirrors_reopened :
    let env : Env Nat := Env.zeroOne ⟨1000, 2, 0, ⟨.euclideanSquared, 1, 2, 1, 1, 0, 0⟩⟩
    ∃ (engine : Engine) (newest : Key → Option Entry), engine.inner.Newest env.hashes newest ∧
      engine.vectorIndex.Mirrors env newest := by
  intro env
  obtain ⟨events, eventsDef⟩ : ∃ events : List Event, events = [.call (.putIndexed [7] [0]), .call .flush,
      .call (.putIndexed [7] [F32.one]), .call (.put [8] [2]), .reopen] := ⟨_, rfl⟩
  have run : (runAll env events).isSome = true := by
    rw [eventsDef]
    decide +kernel
  obtain ⟨⟨engine, world⟩, ran⟩ := Option.isSome_iff_exists.mp run
  have few : Throughout env events Engine.Few := by
    refine Throughout.of_runAll ?_
    rw [eventsDef]
    decide +kernel
  have spares : SparesVectors events := by
    refine SparesVectors.of_hits ?_
    rw [eventsDef]
    decide +kernel
  obtain ⟨newest, found, mirrors, _⟩ :=
    history_mirrors ⟨⟨by decide, by decide, by decide, by decide, by decide⟩, by decide⟩
      (Runs.of_runAll ran) few spares
  exact ⟨engine, newest, found, mirrors⟩

/-- A vector, and a plain write of its key: the key stays registered. -/
theorem history_mirrors_fails :
    let env : Env Nat := Env.zeroOne ⟨1000, 2, 0, ⟨.euclideanSquared, 1, 2, 1, 1, 0, 0⟩⟩
    ¬ ∀ events engine world, Runs env events (engine, world) → ∃ newest,
      engine.inner.Newest env.hashes newest ∧ engine.vectorIndex.Mirrors env newest := by
  intro env claimed
  have run : (runAll env [.call (.putIndexed [7] [0]), .call (.put [7] [2])]).map (fun state =>
      ((state.1.inner.levels.l0 ++ state.1.inner.levels.l1).length,
        state.1.inner.memtable.map.find? [7], state.1.vectorIndex.keyToNode.find? [7])) =
      some (0, some (.put [2]), some 0) := by decide +kernel
  obtain ⟨⟨engine, world⟩, ran, facts⟩ := Option.map_eq_some_iff.mp run
  simp only [Prod.mk.injEq] at facts
  obtain ⟨tables, written, registered⟩ := facts
  obtain ⟨newest, found, mirrors⟩ := claimed _ engine world (Runs.of_runAll ran)
  have here := mirrors [7]
  rw [found.memtable tables, written] at here
  exact nomatch here.symm.trans registered

end Sastran

/-
The index that opening a directory recovers.

With a snapshot the recovered index is the snapshot's, with the entries newer than its marker applied;
without one, or where the snapshot has another dimension, it registers the vectors of the LSM state
(`Recovered`). Where the vectors of that state have one dimension and are accepted by the metric,
recovery never fails (`recoverVectorIndex_succeeds`), and so opening the directory succeeds
(`open_succeeds`).
-/

import Sastran.Engine.Calls
import Sastran.Engine.Rebuild

namespace Sastran

open Device VectorIndex

variable {D : Type} {env : Env D} {world : World Fs} {lsm : Lsm} {dim : Nat}

/-! ### The vectors of an LSM state -/

namespace Lsm

/-- All entries, newest layer first. -/
def entries (lsm : Lsm) : List (Key × Entry) :=
  lsm.memtable.entries ++ (lsm.tables.map Prod.snd).flatMap SortedMap.entries

theorem lookupIn_entries (lsm : Lsm) (key : Key) :
    SortedMap.lookupIn key lsm.entries = lsm.newest key := by
  rw [entries, SortedMap.lookupIn_append, SortedMap.lookupIn_flatMap, List.map_map, newest_eq]
  rfl

/-- The part of the state that is not older than a marker. -/
def since (lsm : Lsm) (marker : Nat) : Lsm :=
  { lsm with
    l0 := lsm.l0.filter fun table => marker ≤ table.1
    l1 := lsm.l1.filter fun table => marker ≤ table.1 }

theorem since_tables (lsm : Lsm) (marker : Nat) :
    (lsm.since marker).tables = lsm.tables.filter fun table => marker ≤ table.1 := by
  rw [tables, tables, List.filter_append]
  rfl

/-- **Newer entries are newest**: ids are recency. -/
theorem newest_since (ordered : lsm.Ordered) {marker : Nat} {key : Key} {entry : Entry}
    (found : (lsm.since marker).newest key = some entry) : lsm.newest key = some entry := by
  rw [newest_eq] at found ⊢
  change (lsm.memtable.find? key).or _ = some entry at found
  cases held : lsm.memtable.find? key with
  | some newest =>
    rw [held] at found
    exact found
  | none =>
    rw [held, Option.none_or, since_tables] at found
    rw [Option.none_or]
    obtain ⟨table, member, here, highest⟩ :=
      (newestOf_descending (ordered.descending.filter _) key entry).mp found
    obtain ⟨member, recent⟩ := List.mem_filter.mp member
    refine (newestOf_descending ordered.descending key entry).mpr
      ⟨table, member, here, fun other member' present => ?_⟩
    by_cases recent' : marker ≤ other.1
    · exact highest other (List.mem_filter.mpr ⟨member', by simpa using recent'⟩) present
    · have above : marker ≤ table.1 := by simpa using recent
      omega

/-- The vectors that the newest entries register. -/
def vectors (env : Env D) (lsm : Lsm) (key : Key) : Option (List F32) :=
  (lsm.newest key).bind env.registers

theorem registers_value (env : Env D) (lsm : Lsm) (key : Key) :
    (lsm.value key).bind env.registers = (lsm.newest key).bind env.registers :=
  env.registers_live _

/-- The newest entries over a map of older ones. -/
def overlaid (env : Env D) (lsm : Lsm) (base : Key → Option (List F32)) (key : Key) : Option (List F32) :=
  match lsm.newest key with
  | some entry => env.registers entry
  | none => base key

theorem overlaid_none (env : Env D) (lsm : Lsm) : lsm.overlaid env (fun _ => none) = lsm.vectors env := by
  funext key
  rw [overlaid, vectors]
  cases lsm.newest key <;> rfl

/-- The keys whose newest entry is a vector. -/
def vectorKeys (lsm : Lsm) : List Key :=
  ((SortedMap.union lsm.layers).entries.filter fun item => item.2.isVector).map Prod.fst

theorem mem_vectorKeys {key : Key} :
    key ∈ lsm.vectorKeys ↔ ∃ entry, lsm.newest key = some entry ∧ entry.isVector = true := by
  have found : (SortedMap.union lsm.layers).find? key = lsm.newest key := SortedMap.find?_union _ key
  rw [vectorKeys, List.mem_map]
  constructor
  · rintro ⟨⟨key', entry⟩, member, rfl⟩
    obtain ⟨listed, isVector⟩ := List.mem_filter.mp member
    exact ⟨entry, found ▸ (SortedMap.mem_entries_iff _ _ _).mp listed, isVector⟩
  · rintro ⟨entry, newest, isVector⟩
    exact ⟨(key, entry), List.mem_filter.mpr
      ⟨(SortedMap.mem_entries_iff _ _ _).mpr (found.trans newest), isVector⟩, rfl⟩

theorem vectorKeys_nodup (lsm : Lsm) : lsm.vectorKeys.Nodup := by
  refine ((SortedMap.keys_ascending (SortedMap.union lsm.layers)).imp fun less => less.ne).sublist ?_
  exact List.filter_sublist.map _

/-- Distinct keys whose newest entries are vectors are at most so many. -/
theorem length_le_vectorKeys {keys : List Key} (distinct : keys.Nodup)
    (vectors : ∀ key ∈ keys, ∃ entry, lsm.newest key = some entry ∧ entry.isVector = true) :
    keys.length ≤ lsm.vectorKeys.length :=
  distinct.length_le_of_subset fun key member => mem_vectorKeys.mpr (vectors key member)

/-- The vectors that count can be in one index of this dimension. -/
structure Rebuildable (env : Env D) (dim : Nat) (lsm : Lsm) : Prop where
  positive : 0 < dim
  preset : env.options.hnswParams.dim = 0 ∨ env.options.hnswParams.dim = dim
  takes : ∀ key entry, lsm.newest key = some entry → env.Takes dim entry

theorem valid_entries (memtable : ValidMap lsm.memtable)
    (tables : ∀ table ∈ lsm.tables, ValidMap table.2) :
    ∀ entry ∈ lsm.entries, ValidEntry entry.1 entry.2 := by
  intro entry member
  rcases List.mem_append.mp member with member | member
  · exact memtable _ _ ((SortedMap.mem_entries_iff _ _ _).mp member)
  · obtain ⟨map, listed, inside⟩ := List.mem_flatMap.mp member
    obtain ⟨table, present, rfl⟩ := List.mem_map.mp listed
    exact tables table present _ _ ((SortedMap.mem_entries_iff _ _ _).mp inside)

/-- **A pass over the newer entries can be made**, if the vectors that count can be in one index. -/
theorem Rebuildable.passable (rebuildable : lsm.Rebuildable env dim) (ordered : lsm.Ordered)
    (memtable : ValidMap lsm.memtable) (tables : ∀ table ∈ lsm.tables, ValidMap table.2) {start : Nat}
    (room : start + lsm.vectorKeys.length < nodeIdBound) (marker : Nat) :
    Passable env dim start (lsm.since marker).entries where
  positive := rebuildable.positive
  takes := fun key entry found =>
    rebuildable.takes key entry (newest_since ordered (lookupIn_entries _ key ▸ found))
  valid := by
    refine valid_entries memtable fun table member => tables table ?_
    rw [since_tables] at member
    exact (List.mem_filter.mp member).1
  room := by
    intro keys distinct vectors
    refine lt_of_le_of_lt (Nat.add_le_add_left (length_le_vectorKeys distinct fun key member => ?_) _) room
    obtain ⟨entry, found, isVector⟩ := vectors key member
    exact ⟨entry, newest_since ordered (lookupIn_entries _ key ▸ found), isVector⟩

theorem since_zero (lsm : Lsm) : lsm.since 0 = lsm := by
  simp [since]

end Lsm

/-! ### Reading the tables that are newer than a snapshot -/

theorem Loaded.reads {hashes : Hashes} {entries : List SsTableEntry} {tables : List Table}
    (loaded : Loaded hashes entries tables) :
    List.Forall₂ (fun entry map => entry.reader.Reads hashes map) entries (tables.map Prod.snd) :=
  List.forall₂_map_right_iff.mpr (loaded.imp fun _ _ read => read.2)

theorem Loaded.since {hashes : Hashes} {entries : List SsTableEntry} {tables : List Table}
    (loaded : Loaded hashes entries tables) (marker : Nat) :
    Loaded hashes (entries.filter fun entry => entry.id ≥ marker)
      (tables.filter fun table => marker ≤ table.1) := by
  induction loaded with
  | nil => exact List.Forall₂.nil
  | @cons entry table entries tables read _ ih =>
    rw [List.filter_cons, List.filter_cons]
    by_cases recent : marker ≤ table.1
    · rw [if_pos (by simpa [read.1] using recent), if_pos (by simpa using recent)]
      exact List.Forall₂.cons read ih
    · rw [if_neg (by simpa [read.1] using recent), if_neg (by simpa using recent)]
      exact ih

variable {inner : EngineInner} {log : Bytes} {snapshots : List (Nat × Bytes)}

/-- The tables of an engine are sorted already. -/
theorem deltaTables_loaded (holds : Holds env.hashes world.now inner lsm log snapshots) (marker : Nat) :
    Loaded env.hashes (deltaTables inner.levels marker) (lsm.since marker).tables := by
  have loaded : Loaded env.hashes (inner.levels.l0 ++ inner.levels.l1) lsm.tables :=
    List.rel_append holds.l0 holds.l1
  have recent := loaded.since marker
  rw [← Lsm.since_tables] at recent
  have ids := recent.ids
  have descending : ((inner.levels.l0 ++ inner.levels.l1).filter fun entry => entry.id ≥ marker).Pairwise
      fun first second => second.id ≤ first.id := by
    have sorted : (((inner.levels.l0 ++ inner.levels.l1).filter fun entry => entry.id ≥ marker).map
        SsTableEntry.id).Pairwise fun first second => second ≤ first := by
      rw [ids, Lsm.since_tables]
      exact List.pairwise_map.mpr ((holds.ordered.descending.filter _).imp le_of_lt)
    exact List.pairwise_map.mp sorted
  rw [deltaTables, descending.insertionSort_eq]
  exact recent

theorem readFileFully_succeeds (calm : world.Calm) {name : FileName} {bytes : Bytes}
    (here : world.now.content name = some bytes) :
    Succeeds (readFileFully name) world fun result after => result = bytes ∧ Quiet world after := by
  have present : world.now.content name ≠ none := by rw [here]; exact Option.some_ne_none _
  refine Succeeds.bind (((Io.openRead_succeeds calm present).of_ensures (Io.openRead_ensures name)).mono
    fun file opened facts => ?_)
  obtain ⟨content, quiet⟩ := facts
  obtain rfl : bytes = file.bytes := Option.some.inj (here.symm.trans content)
  refine Succeeds.bind (((FileRead.len_succeeds (quiet.calm calm)).of_ensures FileRead.len_ensures).mono
    fun length measured facts => ?_)
  obtain ⟨rfl, quiet'⟩ := facts
  refine ((FileRead.readAt_succeeds (quiet'.calm (quiet.calm calm)) (by omega)).of_ensures
    (FileRead.readAt_ensures 0 _)).mono fun result after facts => ?_
  obtain ⟨rfl, _, quiet''⟩ := facts
  exact ⟨by simp [LittleEndian.slice], quiet.trans (quiet'.trans quiet'')⟩

/-! ### The recovered index -/

/-- A snapshot of a sound index. -/
structure SnapshotOf (env : Env D) (item : Nat × Bytes) (index : VectorIndex) : Prop where
  sound : index.Sound env.options.hnswParams
  room : index.hnsw.nodes.length < nodeIdBound
  marker : item.1 < u64Bound
  bytes : item.2 = snapshotBytes env index item.1

/-- **What recovery ends with**: the newest snapshot's index with the newer entries applied, or an index
of the vectors that count, if there is no snapshot or the newer entries do not fit it. -/
inductive Recovered (env : Env D) (dim : Nat) (lsm : Lsm) (latest : Option (Nat × Bytes))
    (index : VectorIndex) : Prop
  | rebuilt (unfit : ∀ item snapshot, latest = some item → SnapshotOf env item snapshot →
      ¬ snapshot.reloaded.Fits dim)
      (built : ∃ seen, Built env dim (VectorIndex.new env.options.hnswParams) lsm.entries ⟨index, seen⟩)
  | loaded {item : Nat × Bytes} {snapshot : VectorIndex} (found : latest = some item)
      (taken : SnapshotOf env item snapshot)
      (built : ∃ seen, Built env dim snapshot.reloaded (lsm.since item.1).entries ⟨index, seen⟩)

theorem SnapshotOf.decoded {item : Nat × Bytes} {index : VectorIndex}
    (taken : SnapshotOf env item index) (storable : env.options.hnswParams.Storable) :
    HnswIndex.decodeSnapshot env.hashes item.2 = .ok (index.hnsw.restored, index.keyToNode, item.1) := by
  rw [taken.bytes]
  exact taken.sound.decoded storable taken.room env.hashes taken.marker

/-- What is loaded from a snapshot does not depend on the index it was taken of. -/
theorem SnapshotOf.reloaded_eq {item : Nat × Bytes} {index other : VectorIndex}
    (taken : SnapshotOf env item index) (taken' : SnapshotOf env item other)
    (storable : env.options.hnswParams.Storable) : other.reloaded = index.reloaded := by
  have same := Except.ok.inj ((taken'.decoded storable).symm.trans (taken.decoded storable))
  rw [reloaded, reloaded, (Prod.mk.inj same).1, (Prod.mk.inj (Prod.mk.inj same).2).1]

/-- The ids suffice for the vectors that count and the nodes of the snapshot there is. -/
structure Roomy (env : Env D) (lsm : Lsm) (latest : Option (Nat × Bytes)) : Prop where
  rebuilt : lsm.vectorKeys.length < nodeIdBound
  loaded : ∀ item, latest = some item → ∃ snapshot, SnapshotOf env item snapshot ∧
    snapshot.hnsw.nodes.length + lsm.vectorKeys.length < nodeIdBound

variable [LinearOrder D]

/-- **Loading a snapshot** ends, with the newer entries applied if they fit it. -/
theorem loadSnapshot_ends (calm : world.Calm) (storable : env.options.hnswParams.Storable)
    {world' : World Fs} (holds : Holds env.hashes world'.now inner lsm log snapshots)
    (tables : ∀ table ∈ lsm.tables, ValidMap table.2) (rebuildable : lsm.Rebuildable env dim)
    {item : Nat × Bytes} {snapshot : VectorIndex} (taken : SnapshotOf env item snapshot)
    (room : snapshot.hnsw.nodes.length + lsm.vectorKeys.length < nodeIdBound)
    (here : world.now.content (snapshotFilename item.1) = some item.2) :
    Ends (fun _ => ¬ snapshot.reloaded.Fits dim)
      (loadSnapshotAndApplyDelta env inner (snapshotFilename item.1)) world fun index after =>
        (∃ seen, Built env dim snapshot.reloaded (lsm.since item.1).entries ⟨index, seen⟩) ∧
        Quiet world after := by
  refine Ends.bind ((readFileFully_succeeds calm here).ends.mono fun bytes read facts => ?_)
  obtain ⟨rfl, quiet⟩ := facts
  rw [taken.decoded storable]
  have passable : Passable env dim snapshot.reloaded.hnsw.nodes.length (inner.memtable.map.entries ++
      ((lsm.since item.1).tables.map Prod.snd).flatMap SortedMap.entries) := by
    rw [holds.memtable]
    exact rebuildable.passable holds.ordered holds.valid tables room item.1
  have applied := applyDelta_ends (quiet.calm calm)
    (taken.sound.reloaded storable taken.room) (deltaTables_loaded holds item.1).reads passable
  refine Ends.bind (Ends.pure (applied.mono fun index after facts => ?_))
  obtain ⟨built, quiet'⟩ := facts
  rw [holds.memtable] at built
  exact ⟨built, quiet.trans quiet'⟩

/-- **The rebuild succeeds** where the vectors that count can be in one index. -/
theorem rebuild_succeeds (calm : world.Calm)
    {fs : Fs} (holds : Holds env.hashes fs inner lsm log snapshots)
    (tables : ∀ table ∈ lsm.tables, ValidMap table.2) (rebuildable : lsm.Rebuildable env dim)
    (room : lsm.vectorKeys.length < nodeIdBound) :
    Succeeds (fullRebuildIndexFromLsm env inner) world fun index _ =>
      ∃ seen, Built env dim (VectorIndex.new env.options.hnswParams) lsm.entries ⟨index, seen⟩ := by
  have all := rebuildable.passable holds.ordered holds.valid tables
    ((Nat.zero_add _).symm ▸ room : 0 + lsm.vectorKeys.length < nodeIdBound) 0
  rw [Lsm.since_zero] at all
  have loaded : Loaded env.hashes (inner.levels.l0 ++ inner.levels.l1) lsm.tables :=
    List.rel_append holds.l0 holds.l1
  refine (fullRebuild_succeeds calm loaded.reads (by rw [holds.memtable]; exact all)
    ⟨nofun, rebuildable.preset⟩).mono fun index after facts => ?_
  have built := facts.1
  rw [holds.memtable] at built
  exact built

/-- **Recovery never fails** where the vectors that count can be in one index. -/
theorem recoverVectorIndex_succeeds (calm : world.Calm) (storable : env.options.hnswParams.Storable)
    (holds : Holds env.hashes world.now inner lsm log snapshots)
    (tables : ∀ table ∈ lsm.tables, ValidMap table.2) (rebuildable : lsm.Rebuildable env dim)
    (roomy : Roomy env lsm (lsm.stored log snapshots).latest) :
    Succeeds (recoverVectorIndex env inner) world fun index _ =>
      Recovered env dim lsm (lsm.stored log snapshots).latest index := by
  have rebuild : ∀ {world : World Fs}, world.Calm →
      Succeeds (fullRebuildIndexFromLsm env inner) world fun index _ =>
        ∃ seen, Built env dim (VectorIndex.new env.options.hnswParams) lsm.entries ⟨index, seen⟩ :=
    fun calm => rebuild_succeeds calm holds tables rebuildable roomy.rebuilt
  refine Succeeds.bind ((discoverLatestSnapshot_succeeds calm holds.described).mono
    fun path found facts => ?_)
  obtain ⟨rfl, described, _, passes⟩ := facts
  have calm' := passes.calm calm
  cases latest : (lsm.stored log snapshots).latest with
  | none => exact (rebuild calm').mono fun index after built => .rebuilt nofun built
  | some item =>
    obtain ⟨snapshot, taken, room⟩ := roomy.loaded item latest
    have here : found.now.content (snapshotFilename item.1) = some item.2 := by
      refine (described.snapshot item ?_).2
      rw [latest]
      exact List.mem_singleton_self item
    have ends := loadSnapshot_ends calm' storable holds tables rebuildable taken room here
    rcases ends.cases with ⟨index, after, run, built, _⟩ | ⟨error, after, run, unfit⟩
    · exact ⟨index, after, by rw [Option.map_some]; exact bind_ok (attempt_ok run) _, .loaded rfl taken built⟩
    · have calm'' : after.Calm :=
        ((loadSnapshot_respects inner (snapshotFilename item.1) found).2 error after run).calm calm'
      obtain ⟨index, last, run', built⟩ := rebuild calm''
      refine ⟨index, last, ?_, .rebuilt ?_ built⟩
      · rw [Option.map_some]
        exact (bind_ok (attempt_err run) _).trans run'
      · intro item' snapshot' same taken'
        obtain rfl := Option.some.inj same
        rw [taken.reloaded_eq taken' storable]
        exact unfit

omit [LinearOrder D] in
theorem Built.view_eq {base index : VectorIndex} {seen : List Key}
    (built : Built env dim base lsm.entries ⟨index, seen⟩) :
    index.view = lsm.overlaid env base.view := by
  funext key
  rw [Lsm.overlaid, ← Lsm.lookupIn_entries]
  exact built.view key

namespace Recovered

variable {latest : Option (Nat × Bytes)} {index : VectorIndex}

omit [LinearOrder D] in
theorem sound (recovered : Recovered env dim lsm latest index) :
    index.Sound env.options.hnswParams := by
  cases recovered with
  | rebuilt _ built => exact built.choose_spec.sound
  | loaded _ _ built => exact built.choose_spec.sound

omit [LinearOrder D] in
/-- **Which vectors are recovered.** -/
theorem view (recovered : Recovered env dim lsm latest index) :
    index.view = lsm.vectors env ∨ ∃ item snapshot, latest = some item ∧ SnapshotOf env item snapshot ∧
      index.view = (lsm.since item.1).overlaid env snapshot.view := by
  cases recovered with
  | rebuilt _ built =>
    obtain ⟨seen, built⟩ := built
    refine Or.inl ?_
    rw [built.view_eq, view_new, Lsm.overlaid_none]
  | @loaded item snapshot found taken built =>
    obtain ⟨seen, built⟩ := built
    exact Or.inr ⟨item, snapshot, found, taken, by rw [built.view_eq, view_reloaded]⟩

end Recovered

/-! ### Opening -/

/-- **Opening returns no error**, whatever snapshots there are, where a rebuild is possible. -/
theorem open_never_fails (calm : world.Calm) {dir : Dir}
    (described : Describes env.hashes world.now dir) {records : List Record} {bytes : Bytes}
    (log : LogHolds env.hashes dir.log records bytes)
    (rebuildable : ∀ next, (dir.recovered records next).Rebuildable env dim)
    (room : ∀ next, (dir.recovered records next).vectorKeys.length < nodeIdBound) :
    ∀ error after, Engine.open env world ≠ .err error after := by
  intro error after failed
  rw [open_eq] at failed
  obtain ⟨opened, middle, ran, next, _, rfl, _, holds, passes⟩ := openInner_succeeds calm described log
  have calm' := passes.calm calm
  obtain ⟨found, thinned, ran', rfl, _, _, passes'⟩ :=
    discoverLatestSnapshot_succeeds calm' holds.described
  have calm'' := passes'.calm calm'
  have rebuild : ∀ {world : World Fs}, world.Calm → ∃ index after,
      fullRebuildIndexFromLsm env opened.1 world = .ok index after := by
    intro world calm
    obtain ⟨index, after, run, _⟩ :=
      rebuild_succeeds calm holds holds.tables_valid (rebuildable next) (room next)
    exact ⟨index, after, run⟩
  have recovered : ∀ error after, recoverVectorIndex env opened.1 middle ≠ .err error after := by
    intro error after failed
    rw [recoverVectorIndex, bind_ok ran'] at failed
    cases latest : ((dir.recovered opened.2 next).stored bytes dir.snapshots).latest with
    | none =>
      obtain ⟨index, last, run⟩ := rebuild calm''
      rw [latest] at failed
      exact nomatch run.symm.trans failed
    | some item =>
      rw [latest, Option.map_some] at failed
      cases loaded : loadSnapshotAndApplyDelta env opened.1 (snapshotFilename item.1) thinned with
      | ok index last => exact nomatch (bind_ok (attempt_ok loaded) _).symm.trans failed
      | err error' last =>
        have quiet := (loadSnapshot_respects opened.1 (snapshotFilename item.1) thinned).2 error' last loaded
        obtain ⟨index, final, run⟩ := rebuild (quiet.calm calm'')
        exact nomatch run.symm.trans ((bind_ok (attempt_err loaded) _).symm.trans failed)
      | stuck => exact nomatch (bind_stuck (attempt_stuck loaded) _).symm.trans failed
  rw [bind_ok ran] at failed
  cases recovery : recoverVectorIndex env opened.1 middle with
  | ok index last => exact nomatch (bind_ok recovery _).symm.trans failed
  | err error' last => exact recovered error' last recovery
  | stuck => exact nomatch (bind_stuck recovery _).symm.trans failed

/-- **Opening succeeds** where the index is recovered. -/
theorem open_recovering (calm : world.Calm) {dir : Dir} (described : Describes env.hashes world.now dir)
    {records : List Record} {bytes : Bytes} (log : LogHolds env.hashes dir.log records bytes)
    {recovered : Nat → VectorIndex → Prop}
    (recovery : ∀ next (inner : EngineInner) (world : World Fs), world.Calm →
      Holds env.hashes world.now inner (dir.recovered records next) bytes dir.snapshots →
      Succeeds (recoverVectorIndex env inner) world fun index _ => recovered next index) :
    Succeeds (Engine.open env) world fun engine after => ∃ next, IsNext dir.ids next ∧
      engine.inner.memtable = Memtable.replay records ∧
      Holds env.hashes after.now engine.inner (dir.recovered records next) bytes dir.latest.toList ∧
      recovered next engine.vectorIndex := by
  rw [open_eq]
  refine Succeeds.bind ((openInner_succeeds calm described log).mono fun opened middle facts => ?_)
  obtain ⟨next, isNext, rfl, memtable, holds, passes⟩ := facts
  have calm' := passes.calm calm
  refine Succeeds.bind (((recovery next opened.1 middle calm' holds).and_ensures
    (recoverVectorIndex_leads opened.1 calm' holds.described).1).mono fun index after facts => ?_)
  obtain ⟨recovered, frame, thinned, _⟩ := facts
  refine Succeeds.pure ⟨next, isNext, memtable, ?_, recovered⟩
  exact holds.reframe thinned (.of_frame frame fun name isTmp isSnapshot =>
    absurd isTmp isSnapshot.not_tmp) (frame.dir _ wal_not_snapshot)

/-- **Opening succeeds** on a directory whose vectors can be in one index. -/
theorem open_succeeds (calm : world.Calm) (storable : env.options.hnswParams.Storable) {dir : Dir}
    (described : Describes env.hashes world.now dir) {records : List Record} {bytes : Bytes}
    (log : LogHolds env.hashes dir.log records bytes)
    (rebuildable : ∀ next, (dir.recovered records next).Rebuildable env dim)
    (roomy : ∀ next, Roomy env (dir.recovered records next) dir.latest) :
    Succeeds (Engine.open env) world fun engine after => ∃ next, IsNext dir.ids next ∧
      engine.inner.memtable = Memtable.replay records ∧
      Holds env.hashes after.now engine.inner (dir.recovered records next) bytes dir.latest.toList ∧
      Recovered env dim (dir.recovered records next) dir.latest engine.vectorIndex :=
  open_recovering calm described log fun next _ _ calm' holds =>
    recoverVectorIndex_succeeds calm' storable holds holds.tables_valid (rebuildable next) (roomy next)

end Sastran

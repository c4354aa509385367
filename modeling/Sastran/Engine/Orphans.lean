/-
Discovery over histories: which tables are live, and that ids are recency.

Liveness is read off the file names, so a compaction that was interrupted after its output got its name
has to leave its inputs recognizable as orphans, and no flush may ever look like one
(`orphans_precise`).
-/

import Sastran.Engine.Server

namespace Sastran

open Device SsTable

variable {D : Type} [LinearOrder D] {env : Env D}

/-- An LSM state in which a step may come to its compaction: after the write and its flush, or after a
flush that was asked for. -/
inductive Midway (env : Env D) : EngineInner → Fs → Prop
  | mutation {server : Server} {kind : RecordKind} {key value : Bytes} {before : Nat}
      {logged inner : EngineInner} {world world' : World Fs} (reached : Reached env (.up server))
      (log : Engine.logRecord env kind key value (server.engine.inner, World.fresh server.disk) =
        .ok before (logged, world))
      (flush : EngineInner.maybeAutoFlush env (logged, world) = .ok () (inner, world')) :
      Midway env inner world'.now
  | flush {server : Server} {inner : EngineInner} {world : World Fs}
      (reached : Reached env (.up server))
      (flush : EngineInner.flushInner env (server.engine.inner, World.fresh server.disk) =
        .ok () (inner, world)) : Midway env inner world.now

theorem Midway.running {inner : EngineInner} {fs : Fs} (midway : Midway env inner fs) :
    ∃ lsm records snapshots, Running env.hashes fs inner lsm records snapshots := by
  cases midway with
  | @mutation server kind key value before logged _ world world' reached log flush =>
    obtain ⟨lsm, records, snapshots, running⟩ := reached.running
    have running' : Running env.hashes (World.fresh server.disk).now server.engine.inner lsm records
      snapshots := running
    obtain ⟨_, _, running'', passes⟩ := logRecord_running running' kind key value _ _ log
    have calm := passes.calm (World.fresh_calm server.disk)
    obtain ⟨⟨lsm', records', _, running'''⟩, _⟩ := maybeAutoFlush_running calm running'' _ _ flush
    exact ⟨lsm', records', snapshots, running'''⟩
  | @flush server _ world reached flush =>
    obtain ⟨lsm, records, snapshots, running⟩ := reached.running
    have running' : Running env.hashes (World.fresh server.disk).now server.engine.inner lsm records
      snapshots := running
    obtain ⟨⟨records', _, running''⟩, _⟩ := flushInner_running (World.fresh_calm server.disk) running' _ _
      flush
    exact ⟨lsm.flush, records', snapshots, running''⟩

/-! ### Interrupted compactions -/

section Interrupted

variable {lsm : Lsm} {log : Bytes} {snapshots : List (Nat × Bytes)} {removed left : List Nat}

/-- Of a compaction with an output, the output alone is live. -/
theorem Lsm.remaining_live (ordered : lsm.Ordered) (fresh : lsm.nextId ∉ removed)
    (written : lsm.output = [(lsm.nextId, lsm.merged)]) :
    (lsm.remaining removed log snapshots).survivor = some (lsm.nextId, lsm.merged) ∧
      (lsm.remaining removed log snapshots).liveL0 = [] := by
  have distinct : DistinctIds (lsm.remaining removed log snapshots).l1 := by
    have newest : ∀ table ∈ lsm.l1, lsm.nextId ≠ table.1 := fun table member =>
      (ordered.bound table (List.mem_append_right _ member)).ne'
    have older : DistinctIds lsm.l1 :=
      (List.pairwise_append.mp ordered.descending).2.1.imp fun above => above.ne'
    rw [Lsm.remaining, written]
    have all : DistinctIds ((lsm.nextId, lsm.merged) :: lsm.l1) := List.pairwise_cons.mpr ⟨newest, older⟩
    show DistinctIds (List.filter (fun table => decide (table.1 ∉ removed))
      ((lsm.nextId, lsm.merged) :: lsm.l1))
    exact all.filter _
  have present : (lsm.nextId, lsm.merged) ∈ (lsm.remaining removed log snapshots).l1 := by
    rw [Lsm.remaining, written]
    exact List.mem_filter.mpr ⟨List.mem_append_left _ (List.mem_singleton_self _), decide_eq_true fresh⟩
  have survivor : (lsm.remaining removed log snapshots).survivor = some (lsm.nextId, lsm.merged) := by
    cases found : (lsm.remaining removed log snapshots).survivor with
    | none =>
      rw [Dir.survivor_eq_none] at found
      rw [found] at present
      cases present
    | some table =>
      rcases Dir.survivor_max distinct found present with same | above
      · rw [same]
      · have member := Dir.survivor_mem found
        rw [Lsm.remaining, written] at member
        rcases List.mem_append.mp (List.mem_filter.mp member).1 with isOutput | isInput
        · rw [List.mem_singleton.mp isOutput] at above
          exact absurd above (lt_irrefl _)
        · exact absurd (ordered.bound table (List.mem_append_right _ isInput)) (lt_asymm above)
  refine ⟨survivor, List.eq_nil_iff_forall_not_mem.mpr fun table member => ?_⟩
  obtain ⟨inL0, newer⟩ := Dir.mem_liveL0.mp member
  have below := ordered.bound table (List.mem_append_left _ (List.mem_filter.mp inL0).1)
  exact absurd (newer _ survivor) (lt_asymm below)

end Interrupted

/-- What discovery returns is in order: L0 descending, above L1, at most one L1 table, and the next id
above all. -/
structure InOrder (levels : LevelState) (next : Nat) : Prop where
  descending : levels.l0.Pairwise fun newer older => older.id < newer.id
  above : ∀ newer ∈ levels.l0, ∀ older ∈ levels.l1, older.id < newer.id
  single : levels.l1.length ≤ 1
  next : ∀ entry ∈ levels.l0 ++ levels.l1, entry.id < next

theorem InOrder.of_loaded {hashes : Hashes} {levels : LevelState} {lsm : Lsm}
    (ordered : lsm.Ordered) (l0 : Loaded hashes levels.l0 lsm.l0) (l1 : Loaded hashes levels.l1 lsm.l1) :
    InOrder levels lsm.nextId := by
  have ids : ∀ {entries : List SsTableEntry} {tables : List Table}, Loaded hashes entries tables →
      entries.map SsTableEntry.id = tables.map Prod.fst := by
    intro entries tables loaded
    refine List.forall₂_eq_eq_eq ▸ ?_
    rw [List.forall₂_map_left_iff, List.forall₂_map_right_iff]
    exact loaded.imp fun entry table read => read.1
  have listed : ∀ {entries : List SsTableEntry} {tables : List Table}, Loaded hashes entries tables →
      ∀ entry ∈ entries, ∃ table ∈ tables, table.1 = entry.id := by
    intro entries tables loaded entry member
    have inside : entry.id ∈ tables.map Prod.fst := ids loaded ▸ List.mem_map_of_mem member
    obtain ⟨table, present, same⟩ := List.mem_map.mp inside
    exact ⟨table, present, same⟩
  obtain ⟨inL0, _, across⟩ := List.pairwise_append.mp ordered.descending
  refine ⟨?_, fun newer member older member' => ?_, ?_, fun entry member => ?_⟩
  · have sorted : (levels.l0.map SsTableEntry.id).Pairwise fun newer older => older < newer := by
      rw [ids l0]
      exact List.pairwise_map.mpr inL0
    exact List.pairwise_map.mp sorted
  · obtain ⟨table, present, same⟩ := listed l0 newer member
    obtain ⟨table', present', same'⟩ := listed l1 older member'
    rw [← same, ← same']
    exact across table present table' present'
  · rw [l1.length_eq]
    exact ordered.single
  · rcases List.mem_append.mp member with member | member
    · obtain ⟨table, present, same⟩ := listed l0 entry member
      rw [← same]
      exact ordered.bound table (List.mem_append_left _ present)
    · obtain ⟨table, present, same⟩ := listed l1 entry member
      rw [← same]
      exact ordered.bound table (List.mem_append_right _ present)

/-- **Discovery in any history** returns, and what it returns is in order. -/
theorem discovery_in_order {disk : Fs} (reached : Reached env (.down disk)) :
    ∃ levels next after, discoverSstables env (World.fresh disk) = .ok (levels, next) after ∧
      InOrder levels next := by
  obtain ⟨dir, described, _⟩ := reached.sound
  obtain ⟨⟨levels, next⟩, after, run, l0, l1, isNext, _⟩ :=
    discoverSstables_succeeds (World.fresh_calm disk) described
  exact ⟨levels, next, after, run,
    InOrder.of_loaded (Dir.live_ordered (described.distinct 0) isNext SortedMap.empty) l0 l1⟩

/-- The name of a table of the engine, at its level. -/
def IsInputFile (inner : EngineInner) (name : FileName) : Prop :=
  name ∈ inner.levels.l0.map (fun entry => sstFilename 0 entry.id) ++
    inner.levels.l1.map fun entry => sstFilename 1 entry.id

/-- What discovery makes of an interrupted compaction whose output got its name. -/
structure Precise (env : Env D) (inner inner' : EngineInner) (crashed : Fs) (entry : SsTableEntry)
    (next : Nat) (after : Fs) : Prop where
  output : ∃ installed map, inner'.levels = ⟨[], [installed]⟩ ∧ installed.id = inner.nextSstId ∧
    entry.id = inner.nextSstId ∧ installed.reader.Reads env.hashes map ∧
    entry.reader.Reads env.hashes map
  removed : ∀ name, IsSst name → crashed.content name ≠ none → after.content name = none →
    IsInputFile inner name
  next : ∀ name, IsSst name → crashed.content name ≠ none →
    ∀ level id, parseSstFilename name = some (level, id) → id < next

variable {inner inner' : EngineInner} {lsm : Lsm} {records : List Record}
  {snapshots : List (Nat × Bytes)} {crashed : Fs}

omit [LinearOrder D] in
/-- The tables of the engine are the LSM state's. -/
theorem Running.input_file {fs : Fs} (running : Running env.hashes fs inner lsm records snapshots)
    {table : Table} {level : Nat} (member : level = 0 ∧ table ∈ lsm.l0 ∨ level = 1 ∧ table ∈ lsm.l1) :
    IsInputFile inner (sstFilename level table.1) := by
  rcases member with ⟨rfl, newer⟩ | ⟨rfl, older⟩
  · exact List.mem_append_left _ ((running.holds.l0.mem_names 0 _).mpr ⟨table, newer, rfl⟩)
  · exact List.mem_append_right _ ((running.holds.l1.mem_names 1 _).mpr ⟨table, older, rfl⟩)

omit [LinearOrder D] in
/-- The file of a table stands for a table of the directory. -/
theorem Describes.table_of_file {hashes : Hashes} {fs : Fs} {dir : Dir}
    (described : Describes hashes fs dir) {name : FileName} (sst : IsSst name)
    (present : fs.content name ≠ none) :
    ∃ level, ∃ table ∈ dir.level level, name = sstFilename level table.1 := by
  obtain ⟨level, id, rfl⟩ := sst
  cases described.known _ present with
  | log same => exact absurd same (sst_ne_wal level id)
  | table level' table member same => exact ⟨level', table, member, same⟩
  | snapshot item member same => exact absurd same (sst_ne_snapshot level id item.1)
  | tmp isTmp => exact absurd isTmp (sst_not_tmp level id)

omit [LinearOrder D] in
/-- Where the output has its name, there is an output. -/
theorem Running.output_written {fs : Fs}
    (running : Running env.hashes fs inner lsm records snapshots) {removed : List Nat} {log : Bytes}
    (described : Describes env.hashes crashed (lsm.remaining removed log snapshots))
    (named : crashed.content (sstFilename 1 inner.nextSstId) ≠ none) :
    lsm.output = [(lsm.nextId, lsm.merged)] := by
  obtain ⟨level, table, member, same⟩ := described.table_of_file ⟨1, _, rfl⟩ named
  have small := (described.table level table member).1
  rw [running.holds.next] at same
  obtain ⟨rfl, sameId⟩ := sstFilename_inj (by decide) (by have := Dir.level_small member; omega)
    running.holds.small (by omega) same
  unfold Lsm.output
  split
  · rename_i nothing
    have inside : table ∈ lsm.l1 := by
      have listed := (List.mem_filter.mp member).1
      rw [Lsm.output, if_pos nothing] at listed
      exact listed
    have below := running.holds.ordered.bound table (List.mem_append_right _ inside)
    exact absurd below (by rw [sameId]; exact lt_irrefl _)
  · rfl

/-- Discovery after the output got its name and some inputs were removed. -/
theorem discovery_of_remaining {fs : Fs}
    (running : Running env.hashes fs inner lsm records snapshots)
    (compacted : Loaded env.hashes inner'.levels.l1 lsm.output) (emptied : inner'.levels.l0 = [])
    {removed left : List Nat} (order : removed ++ left = lsm.inputs.map Prod.fst) {log : Bytes}
    (described : Describes env.hashes crashed (lsm.remaining removed log snapshots))
    (named : crashed.content (sstFilename 1 inner.nextSstId) ≠ none) :
    ∃ entry next after, discoverSstables env (World.fresh crashed) = .ok (⟨[], [entry]⟩, next) after ∧
      Precise env inner inner' crashed entry next after.now := by
  have written := running.output_written described named
  have fresh : lsm.nextId ∉ removed := by
    intro gone
    have listed : lsm.nextId ∈ lsm.inputs.map Prod.fst := order ▸ List.mem_append_left _ gone
    obtain ⟨input, isInput, same⟩ := List.mem_map.mp listed
    have below := running.holds.ordered.bound input (Lsm.mem_inputs.mp isInput)
    exact absurd below (by rw [same]; exact lt_irrefl _)
  obtain ⟨survivor, liveL0⟩ := Lsm.remaining_live running.holds.ordered fresh written
  obtain ⟨⟨⟨l0, l1⟩, next⟩, after, run, readL0, readL1, isNext, live, _⟩ :=
    discoverSstables_succeeds (World.fresh_calm crashed) described
  rw [liveL0] at readL0
  rw [Dir.liveL1, survivor, Option.toList_some] at readL1
  rw [written] at compacted
  obtain rfl : l0 = [] := List.forall₂_nil_right_iff.mp readL0
  obtain ⟨entry, rest, ⟨sameId, reads⟩, none, rfl⟩ := List.forall₂_cons_right_iff.mp readL1
  obtain rfl : rest = [] := List.forall₂_nil_right_iff.mp none
  obtain ⟨installed, more, ⟨sameId', reads'⟩, none', split⟩ := List.forall₂_cons_right_iff.mp compacted
  obtain rfl : more = [] := List.forall₂_nil_right_iff.mp none'
  refine ⟨entry, next, after, run, ⟨installed, lsm.merged, ?_, ?_, ?_, reads', reads⟩, ?_, ?_⟩
  · show LevelState.mk inner'.levels.l0 inner'.levels.l1 = _
    rw [emptied, split]
  · rw [sameId', running.holds.next]
  · rw [sameId, running.holds.next]
  · intro name sst present gone
    obtain ⟨level, table, member, rfl⟩ := described.table_of_file sst present
    -- A removed table is not the output, which is still there.
    have other : table ≠ (lsm.nextId, lsm.merged) ∨ level = 0 := by
      refine or_iff_not_imp_left.mpr fun same => not_ne_iff.mp fun upper => ?_
      obtain rfl := not_ne_iff.mp same
      have stays : (lsm.nextId, lsm.merged) ∈
          (lsm.remaining removed log snapshots).live.level level := by
        obtain rfl := ((Dir.level_cases member).resolve_left fun low => upper low.1).1
        exact Dir.mem_liveL1.mpr survivor
      obtain ⟨_, bytes, held, _⟩ := live.table level _ stays
      rw [gone] at held
      cases held
    refine running.input_file ?_
    rcases Dir.level_cases member with ⟨rfl, member⟩ | ⟨rfl, member⟩
    · exact Or.inl ⟨rfl, (List.mem_filter.mp member).1⟩
    · have listed := (List.mem_filter.mp member).1
      rw [written] at listed
      rcases List.mem_cons.mp listed with isOutput | isInput
      · exact absurd isOutput (other.resolve_right Nat.one_ne_zero)
      · exact Or.inr ⟨rfl, isInput⟩
  · intro name sst present level id parsed
    obtain ⟨level', table, member, rfl⟩ := described.table_of_file sst present
    have small := (described.table level' table member).1
    rw [parseSstFilename_sst (by have := Dir.level_small member; omega) (by omega)] at parsed
    cases parsed
    refine isNext.1 _ (List.mem_map_of_mem ?_)
    rcases Dir.level_cases member with ⟨_, member⟩ | ⟨_, member⟩
    · exact List.mem_append_left _ member
    · exact List.mem_append_right _ member

/-- **Orphan reconciliation is precise.** Wherever a compaction of any history is interrupted after its
output got its name, discovery returns the output alone, removes no table but inputs of the compaction,
and returns an id above every table found; and after every discovery in every history, file id order is
recency order. -/
theorem orphans_precise :
    (∀ {inner inner' : EngineInner} {fs crashed : Fs} {world : World Fs}, Midway env inner fs →
      EngineInner.compactL0L1 env (inner, World.fresh fs) = .ok () (inner', world) →
      crashed ∈ world.past → crashed.content (sstFilename 1 inner.nextSstId) ≠ none →
      ∃ entry next after, discoverSstables env (World.fresh crashed) = .ok (⟨[], [entry]⟩, next) after ∧
        Precise env inner inner' crashed entry next after.now) ∧
    ∀ {disk : Fs}, Reached env (.down disk) →
      ∃ levels next after, discoverSstables env (World.fresh disk) = .ok (levels, next) after ∧
        InOrder levels next := by
  refine ⟨fun {inner inner' fs crashed world} midway run point named => ?_, discovery_in_order⟩
  obtain ⟨lsm, records, snapshots, running⟩ := midway.running
  have running' : Running env.hashes (World.fresh fs).now inner lsm records snapshots := running
  obtain ⟨holds, _, passes⟩ := compactL0L1_ensures (World.fresh_calm fs) running'.holds
    running'.holds.tables_valid _ _ run
  obtain ⟨dir, crash, described⟩ := passes.of_fresh _ point
  cases crash with
  | merging =>
    -- Before the renaming no table has the output's id.
    obtain ⟨level, table, member, same⟩ := described.table_of_file ⟨1, _, rfl⟩ named
    have small := (described.table level table member).1
    rw [running.holds.next] at same
    obtain ⟨rfl, sameId⟩ := sstFilename_inj (by decide) (by have := Dir.level_small member; omega)
      running.holds.small (by omega) same
    have below := running.holds.ordered.bound table (List.mem_append_right _ member)
    exact absurd below (by rw [sameId]; exact lt_irrefl _)
  | removing removed left order =>
    exact discovery_of_remaining running holds.l1 (List.forall₂_nil_right_iff.mp holds.l0) order
      described named

/-- A put, a flush and a compaction that is interrupted when its output got its name. -/
theorem orphans_precise_flushed :
    ∃ inner fs crashed entry next after,
      Midway (Env.zeroOne ⟨1000, 4, 0, ⟨.euclideanSquared, 1, 2, 1, 1, 0, 0⟩⟩) inner fs ∧
      crashed.content (sstFilename 1 inner.nextSstId) ≠ none ∧
      discoverSstables (Env.zeroOne ⟨1000, 4, 0, ⟨.euclideanSquared, 1, 2, 1, 1, 0, 0⟩⟩)
        (World.fresh crashed) = .ok (⟨[], [entry]⟩, next) after := by
  have run : ((serve (Env.zeroOne ⟨1000, 4, 0, ⟨.euclideanSquared, 1, 2, 1, 1, 0, 0⟩⟩) (fun _ => true)
      Fs.empty [(0, some (.put [1] [1])), (0, none), (0, none)]).bind fun server =>
        (EngineInner.flushInner (Env.zeroOne ⟨1000, 4, 0, ⟨.euclideanSquared, 1, 2, 1, 1, 0, 0⟩⟩)
          (server.engine.inner, World.fresh server.disk)).left.bind fun flushed =>
        (EngineInner.compactL0L1 (Env.zeroOne ⟨1000, 4, 0, ⟨.euclideanSquared, 1, 2, 1, 1, 0, 0⟩⟩)
          (flushed.1, World.fresh flushed.2.now)).left.map fun compacted =>
        (compacted.2.past.find? fun crashed =>
          (crashed.content (sstFilename 1 flushed.1.nextSstId)).isSome).isSome) = some true := by
    decide +kernel
  obtain ⟨server, served, run⟩ := Option.bind_eq_some_iff.mp run
  obtain ⟨flushed, flush, run⟩ := Option.bind_eq_some_iff.mp run
  obtain ⟨compacted, compact, run⟩ := Option.map_eq_some_iff.mp run
  obtain ⟨crashed, found⟩ := Option.isSome_iff_exists.mp run
  obtain ⟨_, flush⟩ := Outcome.left_eq_some.mp flush
  obtain ⟨_, compact⟩ := Outcome.left_eq_some.mp compact
  have named : crashed.content (sstFilename 1 flushed.1.nextSstId) ≠ none := by
    have present := List.find?_some (p := fun fs : Fs =>
      (fs.content (sstFilename 1 flushed.1.nextSstId)).isSome) found
    exact Option.isSome_iff_ne_none.mp present
  have midway := Midway.flush (ReachedBy.of_serve .empty served fun _ _ => trivial) flush
  obtain ⟨entry, next, after, discovered, _⟩ :=
    orphans_precise.1 midway compact (List.mem_of_find?_eq_some found) named
  exact ⟨flushed.1, flushed.2.now, crashed, entry, next, after, midway, named, discovered⟩

end Sastran

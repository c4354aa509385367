/-
Writes behind a flush that failed.

A flush that fails may leave its table in the directory and not among the engine's (`Lsm.Astray`), and it may
leave the engine with a log that has no name any more, so that nothing finds what is appended to it.

* `Drifting` - such an engine. Writes, flushes and compactions keep it so (`Drifting.call`).
* `later_writes_stay` - what is written behind a failed flush is read after reopening, if the log the engine
  appends to has its name when the engine is closed, and nothing that was deleted comes back.
-/

import Sastran.Engine.Retry

namespace Sastran

open Device SsTable

variable {D : Type} {env : Env D} {world : World Fs} {inner : EngineInner} {lsm lsm' : Lsm}
  {stray : Option Table} {log : Option Bytes} {snapshots : List (Nat × Bytes)} {fs : Fs}

/-! ### A table that the engine does not know of -/

/-- The directory of an LSM state, with a table beside its own. -/
def Lsm.beside (lsm : Lsm) (stray : Option Table) (log : Option Bytes) (snapshots : List (Nat × Bytes)) : Dir :=
  ⟨stray.toList ++ lsm.l0, lsm.l1, log, snapshots⟩

/-- **The table of a failed flush**: the next flush replaces it and has all of its keys, or everything in L0 is
newer, and nothing in L1 is older. -/
inductive Lsm.Astray (lsm : Lsm) (table : Table) : Prop
  | ahead (next : table.1 = lsm.nextId)
      (held : ∀ key, table.2.find? key ≠ none → lsm.memtable.find? key ≠ none) : Lsm.Astray lsm table
  | behind (below : table.1 < lsm.nextId) (l0 : ∀ other ∈ lsm.l0, table.1 < other.1)
      (l1 : ∀ other ∈ lsm.l1, table.1 ≤ other.1) : Lsm.Astray lsm table

namespace Lsm.Astray

variable {table : Table}

theorem write (astray : lsm.Astray table) (key : Key) (entry : Entry) : (lsm.write key entry).Astray table := by
  cases astray with
  | behind below l0 l1 => exact .behind below l0 l1
  | ahead next held =>
    refine .ahead next fun other present => ?_
    show (lsm.memtable.insert key entry).find? other ≠ none
    rw [SortedMap.find?_insert]
    split
    · exact Option.some_ne_none _
    · exact held other present

/-- A flush replaces it, or goes on. -/
theorem flush (astray : lsm.Astray table) (full : lsm.memtable.entries.isEmpty = false)
    (other : table.1 ≠ lsm.nextId) : lsm.flush.Astray table := by
  rw [Lsm.flush_full full]
  cases astray with
  | ahead next _ => exact absurd next other
  | behind below l0 l1 =>
    refine .behind (Nat.lt_succ_of_lt below) (fun newer member => ?_) l1
    rcases List.mem_cons.mp member with rfl | member
    · exact below
    · exact l0 newer member

/-- Everything that a compaction leaves is newer, or is its output. -/
theorem compact (astray : lsm.Astray table) : lsm.compact.Astray table := by
  have le : table.1 ≤ lsm.nextId := by
    cases astray with
    | ahead next _ => exact next.le
    | behind below _ _ => exact below.le
  refine .behind (Nat.lt_succ_of_le le) (fun _ member => absurd member List.not_mem_nil) fun other member => ?_
  rw [Lsm.output_id member]
  exact le

end Lsm.Astray

/-- What the table has a value for is not forgotten in memory, or L1 is newer than the table. -/
def Lsm.Marks (lsm : Lsm) (table : Table) : Prop :=
  lsm.l1 ≠ [] ∨ ∀ key entry, table.2.find? key = some entry → entry.isLive = true → lsm.newest key ≠ none

namespace Lsm.Ordered

variable {hashes : Hashes} {table : Table} {records : List Record}

/-- Where the table is the newest one, the memtable is newer in all of its keys. -/
theorem beside_next (ordered : lsm.Ordered) (next : table.1 = lsm.nextId)
    (held : ∀ key, table.2.find? key ≠ none → lsm.memtable.find? key ≠ none)
    (memtable : (Memtable.replay records).map = lsm.memtable) (key : Key) :
    ((lsm.beside (some table) log snapshots).recovered records 0).value key = lsm.value key := by
  have pushed : (⟨lsm.memtable, table :: lsm.l0, lsm.l1, lsm.nextId + 1⟩ : Lsm).Ordered := by
    refine ⟨List.pairwise_cons.mpr ⟨next ▸ ordered.bound, ordered.descending⟩, ?_, ordered.single⟩
    intro other member
    rcases List.mem_cons.mp member with rfl | member
    · rw [next]
      exact Nat.lt_succ_self _
    · exact Nat.lt_succ_of_lt (ordered.bound other member)
  show ((⟨table :: lsm.l0, lsm.l1, log, snapshots⟩ : Dir).recovered records 0).value key = _
  rw [pushed.recovered, memtable, Lsm.value, Lsm.value, Lsm.newest_eq, Lsm.newest_eq]
  simp only [Lsm.tables, List.cons_append, List.map_cons, newestOf_cons]
  cases found : table.2.find? key with
  | none => rw [Option.none_or]
  | some entry =>
    have present : table.2.find? key ≠ none := by rw [found]; exact Option.some_ne_none _
    obtain ⟨newer, here⟩ := Option.ne_none_iff_exists'.mp (held key present)
    rw [here]
    rfl

/-- Where L1 is newer, the table is an orphan. -/
theorem beside_orphan (ordered : lsm.Ordered) (l0 : ∀ other ∈ lsm.l0, table.1 < other.1)
    (l1 : ∀ other ∈ lsm.l1, table.1 ≤ other.1) (upper : lsm.l1 ≠ [])
    (memtable : (Memtable.replay records).map = lsm.memtable) (key : Key) :
    ((lsm.beside (some table) log snapshots).recovered records 0).value key = lsm.value key := by
  have distinct : DistinctIds lsm.l1 :=
    (List.pairwise_append.mp ordered.descending).2.1.imp fun above => above.ne'
  have kept : (lsm.beside (some table) log snapshots).Sheds ⟨lsm.l0, lsm.l1, log, snapshots⟩ := by
    refine ⟨⟨fun other => decide (other.1 ≠ table.1), ?_, fun other live => decide_eq_true fun same => ?_⟩,
      ⟨fun _ => true, (List.filter_true _).symm, fun _ _ => rfl⟩, rfl, rfl⟩
    · show lsm.l0 = List.filter _ (table :: lsm.l0)
      rw [List.filter_cons_of_neg (by simp)]
      exact (List.filter_eq_self.mpr fun other member => decide_eq_true (l0 other member).ne').symm
    · have some : (lsm.beside (some table) log snapshots).survivor ≠ none := fun none =>
        upper (Dir.survivor_eq_none.mp none)
      obtain ⟨top, found⟩ := Option.ne_none_iff_exists'.mp some
      have above := (Dir.mem_liveL0.mp live).2 top found
      rw [same] at above
      exact absurd (l1 top (Dir.survivor_mem found)) (not_le.mpr above)
  obtain ⟨liveL0, liveL1⟩ := kept.live distinct
  have same : (⟨lsm.l0, lsm.l1, log, snapshots⟩ : Dir).recovered records 0 =
      ⟨(Memtable.replay records).map, lsm.l0, lsm.l1, 0⟩ := ordered.recovered log records 0
  rw [Dir.recovered, liveL0, liveL1] at same
  rw [Dir.recovered, same, memtable]
  rfl

/-- Where there is no L1, the table is the oldest one. -/
theorem beside_oldest (ordered : lsm.Ordered) (below : table.1 < lsm.nextId)
    (l0 : ∀ other ∈ lsm.l0, table.1 < other.1) (lower : lsm.l1 = [])
    (marked : ∀ key entry, table.2.find? key = some entry → entry.isLive = true → lsm.newest key ≠ none)
    (memtable : (Memtable.replay records).map = lsm.memtable) (key : Key) :
    ((⟨lsm.l0 ++ [table], [], log, snapshots⟩ : Dir).recovered records 0).value key = lsm.value key := by
  have last : (⟨lsm.memtable, lsm.l0 ++ [table], [], lsm.nextId⟩ : Lsm).Ordered := by
    refine ⟨?_, fun other member => ?_, Nat.zero_le _⟩
    · rw [Lsm.tables, List.append_nil]
      refine List.pairwise_append.mpr ⟨(List.pairwise_append.mp ordered.descending).1,
        List.pairwise_singleton _ _, fun newer member older single => ?_⟩
      rw [List.mem_singleton.mp single]
      exact l0 newer member
    · rw [Lsm.tables, List.append_nil] at member
      rcases List.mem_append.mp member with member | member
      · exact ordered.bound other (List.mem_append_left _ member)
      · rw [List.mem_singleton.mp member]
        exact below
  have newest : (⟨lsm.memtable, lsm.l0 ++ [table], [], 0⟩ : Lsm).newest key =
      (lsm.newest key).or (table.2.find? key) := by
    simp only [Lsm.newest, Lsm.layers, Lsm.tables, lower, List.append_nil, List.map_append, List.map_cons,
      List.map_nil, newestOf, List.findSome?_cons, List.findSome?_append, List.findSome?_nil]
    cases lsm.memtable.find? key <;> cases table.2.find? key <;> simp
  rw [last.recovered, memtable, Lsm.value, newest, Lsm.value]
  cases found : lsm.newest key with
  | some entry => rfl
  | none =>
    rw [Option.none_or, Option.filter_none, Option.filter_eq_none_iff]
    exact fun entry here live => marked key entry here live found

/-- **What is recovered beside such a table** are the values in memory, if it is marked. -/
theorem beside_value (ordered : lsm.Ordered) (astray : lsm.Astray table) (marks : lsm.Marks table)
    (described : Describes hashes fs (lsm.beside (some table) log snapshots))
    (memtable : (Memtable.replay records).map = lsm.memtable) :
    ∃ dir, Describes hashes fs dir ∧ dir.log = log ∧ dir.snapshots = snapshots ∧
      ∀ key, (dir.recovered records 0).value key = lsm.value key := by
  cases astray with
  | ahead next held => exact ⟨_, described, rfl, rfl, ordered.beside_next next held memtable⟩
  | behind below l0 l1 =>
    rcases marks with upper | marked
    · exact ⟨_, described, rfl, rfl, ordered.beside_orphan l0 l1 upper memtable⟩
    by_cases upper : lsm.l1 ≠ []
    · exact ⟨_, described, rfl, rfl, ordered.beside_orphan l0 l1 upper memtable⟩
    have lower : lsm.l1 = [] := not_not.mp upper
    have beside : lsm.beside (some table) log snapshots = ⟨table :: lsm.l0, [], log, snapshots⟩ := by
      rw [Lsm.beside, lower]
      rfl
    rw [beside] at described
    have turned : Describes hashes fs ⟨lsm.l0 ++ [table], [], log, snapshots⟩ := by
      have perm : ([table] ++ lsm.l0).Perm (lsm.l0 ++ [table]) := List.perm_append_comm
      refine described.reorder (fun level other => ?_) (fun level => ?_) rfl rfl
      · rcases level with _ | _ | level
        · exact perm.symm.mem_iff
        · exact Iff.rfl
        · exact Iff.rfl
      · rcases level with _ | _ | level
        · exact (perm.pairwise_iff fun apart => apart.symm).mp (described.distinct 0)
        · exact List.Pairwise.nil
        · exact List.Pairwise.nil
    exact ⟨_, turned, rfl, rfl, ordered.beside_oldest below l0 lower marked memtable⟩

/-- What is left beside a compaction's output. -/
theorem dropped_inputs (ordered : lsm.Ordered) :
    (⟨stray.toList ++ lsm.l0, lsm.output ++ lsm.l1, log, snapshots⟩ : Dir).dropIds
      (lsm.inputs.map Prod.fst) = lsm.compact.beside
        (stray.filter fun table => table.1 ∉ lsm.inputs.map Prod.fst) log snapshots := by
  have all : lsm.remaining (lsm.inputs.map Prod.fst) [] snapshots = lsm.compact.stored [] snapshots :=
    ordered.remaining_all
  obtain ⟨l0, l1, _⟩ := Dir.mk.inj all
  rw [Dir.dropIds, List.filter_append, ← Option.toList_filter, l0, l1]
  rfl

end Lsm.Ordered

/-! ### An engine whose flush has failed -/

/-- Where the engine appends its records: to the log that reopening replays, or to a file without a name. -/
inductive AppendsTo (hashes : Hashes) (fs : Fs) (inner : EngineInner) (log : Option Bytes) : Prop
  | linked {records : List Record} (linked : fs.dir.find? WAL_FILENAME = some inner.writer.file.ino)
      (whole : log = some (Wal.fileHeader ++ logBytes hashes records))
      (valid : ∀ record ∈ records, record.Valid) (memtable : inner.memtable = Memtable.replay records) :
      AppendsTo hashes fs inner log
  | nameless (nameless : fs.Nameless inner.writer.file.ino) : AppendsTo hashes fs inner log

/-- **An engine whose flush has failed**, with what it has made of itself since. -/
structure Drifting (hashes : Hashes) (fs : Fs) (inner : EngineInner) (lsm : Lsm) (stray : Option Table)
    (log : Option Bytes) (snapshots : List (Nat × Bytes)) : Prop extends InMemory hashes inner lsm where
  described : Describes hashes fs (lsm.beside stray log snapshots)
  appends : AppendsTo hashes fs inner log
  astray : ∀ table, stray = some table → lsm.Astray table
  unsnapped : ∀ id, fs.content (tmpName (snapshotFilename id)) = none

/-- Files that are neither the log nor renamed to it do not change where the engine appends. -/
theorem AppendsTo.frame {fs' : Fs} {touched : FileName → Prop} {inner' : EngineInner}
    (appends : AppendsTo env.hashes fs inner log) (frame : Fs.Frame touched fs fs')
    (away : ¬ touched WAL_FILENAME) (writer : inner'.writer = inner.writer)
    (memtable : inner'.memtable = inner.memtable) : AppendsTo env.hashes fs' inner' log := by
  cases appends with
  | linked linked whole valid replayed =>
    exact .linked ((frame.dir _ away).trans (writer ▸ linked)) whole valid (memtable.trans replayed)
  | nameless nameless => exact .nameless (writer ▸ frame.nameless _ nameless)

/-- A record that is appended to a file without a name is not seen. -/
theorem WalWriter.append_nameless {writer : WalWriter} (wf : world.now.Wf)
    (nameless : world.now.Nameless writer.file.ino) (kind : RecordKind) (key value : Bytes) :
    Ensures (writer.append env.hashes kind key value) world fun _ after => Record.Valid ⟨kind, key, value⟩ ∧
      Fs.Frame (fun _ => False) world.now after.now ∧ Passes (fun _ => True) world after := by
  unfold WalWriter.append
  cases encoded : Record.encode env.hashes kind key value with
  | error error => exact Ensures.bind Ensures.throw
  | ok scratch =>
    obtain ⟨valid, rfl⟩ := Record.encode_eq_ok_iff.mp encoded
    refine Ensures.bind (Ensures.pure ((FileAppend.append_ensures _).mono fun _ after facts => ?_))
    obtain ⟨same, _, passes⟩ := facts
    exact ⟨valid, same ▸ Fs.extend_lost wf nameless _, passes.mono fun _ _ => trivial⟩

theorem Lsm.write_full (lsm : Lsm) (key : Key) (entry : Entry) :
    (lsm.write key entry).memtable.entries.isEmpty = false := by
  cases empty : (lsm.write key entry).memtable.entries.isEmpty with
  | false => rfl
  | true =>
    have gone := SortedMap.find?_eq_none_of_entries_nil (List.isEmpty_iff.mp empty) key
    have here : (lsm.write key entry).memtable.find? key = some entry := SortedMap.find?_insert_self ..
    rw [gone] at here
    cases here

namespace Drifting

/-- **A write** is in memory, and in the log if that has its name. -/
theorem logRecord (drifting : Drifting env.hashes world.now inner lsm stray log snapshots) (kind : RecordKind)
    (key value : Bytes) :
    Ensures (Engine.logRecord env kind key value) (inner, world) fun result after =>
      let record : Record := ⟨kind, key, value⟩
      result = lsm.nextId ∧ record.Valid ∧
      (∃ log', Drifting env.hashes after.2.now after.1 (lsm.write key record.entry) stray log' snapshots) ∧
      Passes (fun _ => True) world after.2 := by
  have astray : ∀ entry table, stray = some table → (lsm.write key entry).Astray table :=
    fun entry table found => (drifting.astray table found).write key entry
  cases drifting.appends with
  | @linked records linked whole valid memtable =>
    have logged : world.now.content WAL_FILENAME = some (Wal.fileHeader ++ logBytes env.hashes records) :=
      drifting.described.log.trans whole
    refine (drifting.logRecord_ensures drifting.described.wf logged linked kind key value).mono
      fun result after facts => ?_
    obtain ⟨same, fits, inner', memory, content, linked', frame, passes⟩ := facts
    have whole' : after.2.now.content WAL_FILENAME =
        some (Wal.fileHeader ++ logBytes env.hashes (records ++ [⟨kind, key, value⟩])) := by
      rw [content, logBytes_append, logBytes_cons, logBytes_nil, List.append_nil]
    have valid' : ∀ record ∈ records ++ [⟨kind, key, value⟩], record.Valid := by
      intro record member
      rcases List.mem_append.mp member with member | member
      · exact valid record member
      · rw [List.mem_singleton.mp member]
        exact fits
    have memtable' : after.1.memtable = Memtable.replay (records ++ [⟨kind, key, value⟩]) := by
      rw [inner', Memtable.replay_append_one, memtable]
    exact ⟨same, fits, ⟨_, memory, drifting.described.setLog frame, .linked linked' whole' valid' memtable',
      astray _, Fs.Tidies.unsnapped (.setLog frame) drifting.unsnapped⟩, passes.mono fun _ _ => trivial⟩
  | nameless nameless =>
    refine (drifting.logRecord_leads kind key value (WalWriter.append_nameless drifting.described.wf nameless
      kind key value)).mono fun result after facts => ?_
    obtain ⟨same, fits, inner', memory, middle, ⟨frame, passes⟩, quiet⟩ := facts
    rw [← quiet.now] at frame
    refine ⟨same, fits, ⟨log, memory, drifting.described.tmp (frame.mono fun _ => False.elim), ?_, astray _,
      fun id => ?_⟩, passes.trans (quiet.passes.mono fun _ _ => trivial)⟩
    · exact .nameless (inner' ▸ frame.nameless _ nameless)
    · exact (frame.content _ not_false).trans (drifting.unsnapped id)

/-- **A flush** has its log again; it replaces the table if that has the name of the next one. -/
theorem flush (calm : world.Calm) (drifting : Drifting env.hashes world.now inner lsm stray log snapshots)
    (full : inner.memtable.isEmpty = false) :
    Ensures (EngineInner.flushInner env) (inner, world) fun _ after =>
      (∃ stray' log', Drifting env.hashes after.2.now after.1 lsm.flush stray' log' snapshots) ∧
      Passes (fun _ => True) world after.2 := by
  have filled : lsm.memtable.entries.isEmpty = false := by
    rw [← drifting.memtable]
    exact full
  refine (drifting.flush_ensures calm drifting.described full).mono fun _ after facts => ?_
  obtain ⟨memory, memtable, described, linked, tidies, _, _, _, passes⟩ := facts
  have rest : ((stray.toList ++ lsm.l0).filter fun table => table.1 ≠ lsm.nextId) =
      (stray.filter fun table => table.1 ≠ lsm.nextId).toList ++ lsm.l0 := by
    rw [List.filter_append, drifting.ordered.filter_next, Option.toList_filter]
  have turned : Describes env.hashes after.2.now (lsm.flush.beside
      (stray.filter fun table => table.1 ≠ lsm.nextId) (some Wal.fileHeader) snapshots) := by
    have perm : ((stray.filter fun table => table.1 ≠ lsm.nextId).toList ++ lsm.flush.l0).Perm
        ((lsm.nextId, lsm.memtable) :: (stray.toList ++ lsm.l0).filter fun table =>
          table.1 ≠ lsm.nextId) := by
      rw [rest, Lsm.flush_full filled]
      exact List.perm_middle
    have lower : lsm.flush.l1 = lsm.l1 := by rw [Lsm.flush_full filled]
    refine described.reorder (fun level other => ?_) (fun level => ?_) rfl rfl
    · rcases level with _ | _ | level
      · exact perm.mem_iff
      · exact iff_of_eq (congrArg (other ∈ ·) lower)
      · exact Iff.rfl
    · rcases level with _ | _ | level
      · exact (perm.pairwise_iff fun apart => apart.symm).mpr (described.distinct 0)
      · show DistinctIds lsm.flush.l1
        rw [lower]
        exact described.distinct 1
      · exact List.Pairwise.nil
  refine ⟨⟨_, _, memory, turned, .linked linked ?_ (fun _ member => absurd member List.not_mem_nil) memtable,
    fun table found => ?_, tidies.unsnapped drifting.unsnapped⟩, passes.mono fun _ _ => trivial⟩
  · rw [logBytes_nil, List.append_nil]
  · obtain ⟨found, other⟩ := Option.filter_eq_some_iff.mp found
    exact (drifting.astray table found).flush filled (of_decide_eq_true other)

theorem maybeAutoFlush (calm : world.Calm)
    (drifting : Drifting env.hashes world.now inner lsm stray log snapshots)
    (full : inner.memtable.isEmpty = false) :
    Ensures (EngineInner.maybeAutoFlush env) (inner, world) fun _ after =>
      (∃ lsm' stray' log', Drifting env.hashes after.2.now after.1 lsm' stray' log' snapshots ∧
        ∀ key, lsm'.value key = lsm.value key) ∧ Passes (fun _ => True) world after.2 := by
  refine Ensures.bind_ok rfl (Ensures.ite (fun _ => ?_) fun _ => ?_)
  · refine (drifting.flush calm full).mono fun _ after facts => ?_
    obtain ⟨⟨stray', log', drifting'⟩, passes⟩ := facts
    exact ⟨⟨_, stray', log', drifting', lsm.value_flush⟩, passes⟩
  · exact Ensures.pure ⟨⟨lsm, stray, log, drifting, fun _ => rfl⟩, Passes.refl _ world⟩

/-- **A compaction** removes the table with its inputs, if one of them has its id. -/
theorem maybeCompact (calm : world.Calm)
    (drifting : Drifting env.hashes world.now inner lsm stray log snapshots) :
    Ensures (EngineInner.maybeCompact env) (inner, world) fun _ after =>
      (∃ lsm' stray' log', Drifting env.hashes after.2.now after.1 lsm' stray' log' snapshots ∧
        ∀ key, lsm'.value key = lsm.value key) ∧ Passes (fun _ => True) world after.2 := by
  refine Ensures.bind_ok rfl (Ensures.ite (fun _ => ?_) fun _ => ?_)
  · exact Ensures.pure ⟨⟨lsm, stray, log, drifting, fun _ => rfl⟩, Passes.refl _ world⟩
  have valid : ∀ table ∈ lsm.tables, ValidMap table.2 := by
    intro table member
    rcases List.mem_append.mp member with member | member
    · obtain ⟨_, bytes, _, isTable⟩ := drifting.described.table 0 table (List.mem_append_right _ member)
      exact isTable.valid
    · obtain ⟨_, bytes, _, isTable⟩ := drifting.described.table 1 table member
      exact isTable.valid
  have small : ∀ id ∈ lsm.inputs.map Prod.fst, id + 1 < u64Bound := by
    intro id member
    obtain ⟨table, isInput, rfl⟩ := List.mem_map.mp member
    have below := drifting.ordered.bound table (Lsm.mem_inputs.mp isInput)
    have bound := drifting.small
    omega
  have removes : ∀ world' : World Fs, world'.Calm →
      Describes env.hashes world'.now ⟨stray.toList ++ lsm.l0, lsm.output ++ lsm.l1, log, snapshots⟩ →
      Succeeds (EngineInner.removeInputs (lsm.inputs.map Prod.fst)) world' fun _ after =>
        Describes env.hashes after.now (lsm.compact.beside
          (stray.filter fun table => table.1 ∉ lsm.inputs.map Prod.fst) log snapshots) ∧
        Fs.Frame IsSst world'.now after.now ∧ Passes (fun _ => True) world' after := by
    intro world' calm' described
    rw [← Dir.dropIds_nil ⟨_, _, log, snapshots⟩] at described
    refine (removeInputs_drops _ [] calm' small described).mono fun _ after facts => ?_
    rw [List.nil_append, drifting.ordered.dropped_inputs] at facts
    exact facts
  refine (drifting.compact_ensures calm drifting.described valid drifting.ordered.fresh_l1
    (fun _ _ => trivial) (fun _ _ => trivial) removes fun _ _ => trivial).mono fun _ after facts => ?_
  obtain ⟨memory, memtable, writer, described, tidies, frame, passes⟩ := facts
  refine ⟨⟨_, _, _, ⟨memory, described, drifting.appends.frame frame wal_outside writer memtable,
    fun table found => ?_, tidies.unsnapped drifting.unsnapped⟩, lsm.value_compact⟩, passes⟩
  exact (drifting.astray table (Option.filter_eq_some_iff.mp found).1).compact

/-- **A logged mutation** is a write; what it triggers changes no value. -/
theorem logMutation (calm : world.Calm)
    (drifting : Drifting env.hashes world.now inner lsm stray log snapshots) (kind : RecordKind)
    (key value : Bytes) :
    Ensures (Engine.logMutation env kind key value) (inner, world) fun marker after =>
      let record : Record := ⟨kind, key, value⟩
      record.Valid ∧
      (∃ lsm' stray' log', Drifting env.hashes after.2.now after.1 lsm' stray' log' snapshots ∧
        (∀ other, lsm'.value other = (lsm.write key record.entry).value other) ∧
        marker = lsm.marker lsm') ∧ Passes (fun _ => True) world after.2 := by
  refine Ensures.bind ((drifting.logRecord kind key value).mono fun before logged facts => ?_)
  obtain ⟨same, valid, ⟨log₁, written⟩, passes⟩ := facts
  obtain ⟨inner₁, world₁⟩ := logged
  have calm₁ := passes.calm calm
  have full : inner₁.memtable.isEmpty = false := by
    rw [Memtable.isEmpty, written.memtable]
    exact lsm.write_full key _
  refine Ensures.bind ((written.maybeAutoFlush calm₁ full).mono fun _ flushed facts => ?_)
  obtain ⟨⟨lsm₂, stray₂, log₂, drifting₂, value₂⟩, passes₂⟩ := facts
  obtain ⟨inner₂, world₂⟩ := flushed
  refine Ensures.bind ((drifting₂.maybeCompact (passes₂.calm calm₁)).mono fun _ compacted facts => ?_)
  obtain ⟨⟨lsm₃, stray₃, log₃, drifting₃, value₃⟩, passes₃⟩ := facts
  obtain ⟨inner₃, world₃⟩ := compacted
  refine (drifting₃.changedId_ensures same).mono fun marker after facts => ?_
  obtain ⟨rfl, rfl⟩ := facts
  exact ⟨valid, ⟨lsm₃, stray₃, log₃, drifting₃, fun other => (value₃ other).trans (value₂ other), rfl⟩,
    passes.trans (passes₂.trans passes₃)⟩

end Drifting

/-! ### Later calls -/

/-- A put or a deletion. -/
inductive Call.Plain : Call → Prop
  | put (key value : Bytes) : Plain (.put key value)
  | delete (key : Key) : Plain (.delete key)

variable [LinearOrder D]

/-- Puts and deletions that return, one after the other. -/
inductive Later (env : Env D) : List Call → Engine × Fs → Engine × Fs → Prop
  | nil (state : Engine × Fs) : Later env [] state state
  | cons {call : Call} {calls : List Call} {engine engine' : Engine} {fs : Fs} {world : World Fs}
      {last : Engine × Fs} (plain : call.Plain)
      (run : call.run env (engine, World.fresh fs) = .ok () (engine', world))
      (later : Later env calls (engine', world.now) last) : Later env (call :: calls) (engine, fs) last

/-- A sound index that a snapshot may be taken of. -/
structure VectorIndex.Takeable (env : Env D) (index : VectorIndex) : Prop where
  sound : index.Sound env.options.hnswParams
  few : 2 * index.hnsw.nodes.length < nodeIdBound

omit [LinearOrder D] in
theorem VectorIndex.Takeable.taken {index : VectorIndex} (takeable : index.Takeable env) {marker : Nat}
    (small : marker < u64Bound) : Taken env (marker, snapshotBytes env index marker) :=
  ⟨index, ⟨takeable.sound, by have := takeable.few; omega, small, rfl⟩, takeable.few⟩

/-- The index step of a put or of a deletion adds no nodes. -/
theorem Call.Plain.indexStep {call : Call} (plain : call.Plain) {index : VectorIndex}
    (takeable : index.Takeable env) :
    Ensures (call.indexStep env) index fun _ after => after.Takeable env := by
  cases plain with
  | put key value => exact Ensures.pure takeable
  | delete key =>
    have room : index.hnsw.nodes.length ≤ nodeIdBound := by have := takeable.few; omega
    refine (VectorIndex.dropKey_sound env.ops takeable.sound room key).ensures.mono fun _ after facts => ?_
    obtain ⟨sound, _, same, _⟩ := facts
    exact ⟨sound, same ▸ takeable.few⟩

/-- **A later call** leaves the engine drifting. -/
theorem Drifting.call {engine : Engine} {call : Call} (calm : world.Calm)
    (drifting : Drifting env.hashes world.now engine.inner lsm stray log snapshots) (plain : call.Plain) :
    Ensures (call.run env) (engine, world) fun _ after =>
      ∃ lsm' stray' log' snapshots', Drifting env.hashes after.2.now after.1.inner lsm' stray' log' snapshots' ∧
        (∀ key, lsm'.value key = call.writes lsm.value key) ∧
        (engine.vectorIndex.Takeable env → after.1.vectorIndex.Takeable env ∧
          ((∀ item ∈ snapshots, Taken env item) → ∀ item ∈ snapshots', Taken env item)) := by
  obtain ⟨record, recorded⟩ : ∃ record, call.record = some record := by
    cases plain with
    | put key value => exact ⟨_, rfl⟩
    | delete key => exact ⟨_, rfl⟩
  rw [call.run_eq env]
  refine Ensures.bind (Ensures.zoom ((call.check_ensures _).mono fun _ index same => ?_))
  subst same
  have steps : Ensures (call.lsmStep env) (engine.inner, world) fun marker after =>
      (∃ lsm' stray' log', Drifting env.hashes after.2.now after.1 lsm' stray' log' snapshots ∧
        (∀ key, lsm'.value key = call.writes lsm.value key) ∧ marker = lsm.marker lsm') ∧
      Passes (fun _ => True) world after.2 := by
    unfold Call.lsmStep
    simp only [recorded]
    refine (drifting.logMutation calm record.kind record.key record.value).mono fun marker after facts => ?_
    obtain ⟨_, ⟨lsm', stray', log', drifting', value, same⟩, passes⟩ := facts
    refine ⟨⟨lsm', stray', log', drifting', fun key => ?_, same⟩, passes⟩
    rw [value, ← call.value_log, recorded]
    rfl
  refine Ensures.bind (Ensures.zoom (steps.mono fun marker logged facts => ?_))
  obtain ⟨⟨lsm', stray', log', drifting', value, rfl⟩, passes⟩ := facts
  obtain ⟨inner', world'⟩ := logged
  refine Ensures.bind (Ensures.zoom ?_)
  intro _ index' indexed
  have small : ∀ id, lsm.marker lsm' = some id → id < u64Bound := Lsm.marker_small drifting'.small
  refine (writeSnapshotAfter_describes (passes.calm calm) drifting'.described drifting'.unsnapped small).mono
    fun _ after facts => ?_
  obtain ⟨same, described, tidies, frame, _⟩ := facts
  rw [same]
  refine ⟨lsm', stray', log', _, ⟨drifting'.toInMemory, described, drifting'.appends.frame frame wal_unsnapped
    rfl rfl, drifting'.astray, tidies.unsnapped drifting'.unsnapped⟩, value, fun takeable => ?_⟩
  have takeable' : index'.Takeable env := plain.indexStep takeable _ _ indexed
  refine ⟨takeable', fun taken item member => ?_⟩
  cases marked : lsm.marker lsm' with
  | none =>
    rw [marked] at member
    exact taken item member
  | some marker =>
    rw [marked] at member
    rw [List.mem_singleton.mp member]
    exact takeable'.taken (small marker marked)

/-- What the keys of a map have behind these calls. -/
def acknowledged (calls : List Call) (map : Key → Option Entry) : Key → Option Entry :=
  calls.foldl (fun map call => call.writes map) map

/-- **Later calls** leave the engine drifting, with their writes. -/
theorem Drifting.run {calls : List Call} {state last : Engine × Fs} (later : Later env calls state last)
    (drifting : Drifting env.hashes state.2 state.1.inner lsm stray log snapshots) :
    ∃ lsm' stray' log' snapshots', Drifting env.hashes last.2 last.1.inner lsm' stray' log' snapshots' ∧
      lsm'.value = acknowledged calls lsm.value ∧
      (state.1.vectorIndex.Takeable env → (∀ item ∈ snapshots, Taken env item) →
        ∀ item ∈ snapshots', Taken env item) := by
  induction later generalizing lsm stray log snapshots with
  | nil state => exact ⟨lsm, stray, log, snapshots, drifting, rfl, fun _ taken => taken⟩
  | @cons call calls engine engine' fs world last plain run later ih =>
    obtain ⟨lsm₁, stray₁, log₁, snapshots₁, drifting₁, value₁, index₁⟩ :=
      Drifting.call (World.fresh_calm fs) drifting plain _ _ run
    obtain ⟨lsm₂, stray₂, log₂, snapshots₂, drifting₂, value₂, index₂⟩ := ih drifting₁
    refine ⟨lsm₂, stray₂, log₂, snapshots₂, drifting₂, ?_, fun takeable taken => ?_⟩
    · rw [value₂, funext value₁]
      rfl
    · obtain ⟨takeable₁, taken₁⟩ := index₁ takeable
      exact index₂ takeable₁ (taken₁ taken)

/-! ### Reopening -/

/-- **Reopening succeeds** where the vectors can be in one index, and every key reads as the map says. -/
structure ReopensTo (env : Env D) (map : Key → Option Entry) (state : Engine × Fs) : Prop where
  reads : ∀ after, reopened env state = some after → ∀ key,
    answer env after key = some (.ok (Entry.visible (map key)))
  opens : env.Indexable map → (reopened env state).isSome = true

omit [LinearOrder D] in
/-- Only values count. -/
theorem Env.Indexable.of_value {map map' : Key → Option Entry} (indexable : env.Indexable map)
    (same : ∀ key, (map' key).filter Entry.isLive = (map key).filter Entry.isLive) : env.Indexable map' := by
  have vector : ∀ key bytes, map' key = some (.vector bytes) → map key = some (.vector bytes) := by
    intro key bytes found
    have live := same key
    rw [found] at live
    exact (Option.filter_eq_some_iff.mp live.symm).1
  obtain ⟨dim, positive, preset, takes⟩ := indexable.dimension
  refine ⟨⟨dim, positive, preset, fun key entry found => ?_⟩, fun keys distinct stored => ?_⟩
  · cases entry with
    | tombstone => exact trivial
    | put bytes => exact trivial
    | vector bytes => exact takes key _ (vector key bytes found)
  · refine indexable.few keys distinct fun key member => ?_
    obtain ⟨bytes, found⟩ := stored key member
    exact ⟨bytes, vector key bytes found⟩

/-- **A directory that keeps the values** is reopened to them. -/
theorem Keeps.reopens {map : Key → Option Entry} {dir : Dir} {records : List Record} {engine : Engine}
    (storable : env.options.hnswParams.Storable) (described : Describes env.hashes fs dir)
    (keeps : Keeps env.hashes lsm.value dir records) (headed : dir.log ≠ some [])
    (taken : ∀ item ∈ dir.snapshots, Taken env item) (running : engine.inner.closed = false)
    (same : ∀ key, (map key).filter Entry.isLive = lsm.value key) : ReopensTo env map (engine, fs) := by
  have calm := World.fresh_calm fs
  have log := keeps.log.resolve_right headed
  have value : ∀ next key, (dir.recovered records next).value key = lsm.value key :=
    fun next => keeps.value headed
  refine ⟨fun after run key => ?_, fun indexable => ?_⟩
  · obtain ⟨state, left, rfl⟩ := Option.map_eq_some_iff.mp run
    obtain ⟨_, ran⟩ := Outcome.left_eq_some.mp left
    have reads : Ensures (Engine.reopen env) (engine, World.fresh fs) fun _ after =>
        answer env (after.1, after.2.now) key = some (.ok (Entry.visible (map key))) := by
      refine Ensures.bind ((close_ensures _ running).mono fun _ closed quiet => ?_)
      refine Ensures.bind (Ensures.zoom ?_)
      intro opened last opens _ after ran
      cases ran
      obtain ⟨next, _, running'⟩ := open_ensures (quiet.calm calm) (quiet.now ▸ described) log opened last opens
      refine (running'.answer key).trans ?_
      rw [value, ← same, Entry.visible_filter]
    exact reads _ _ ran
  · have indexable' : env.Indexable lsm.newest := indexable.of_value fun key => (same key).symm
    have recoverable : ∀ next, Recoverable env lsm.value (dir.recovered records next) dir.latest := fun next =>
      (⟨fun _ => rfl, indexable'.rebuildable, indexable'.roomy fun item found =>
        taken item (Dir.latest_mem found)⟩ : Recoverable env lsm.value lsm dir.latest).of_value (value next)
    obtain ⟨dim, rebuildable⟩ := (recoverable 0).vectors
    have opens : Succeeds (Engine.reopen env) (engine, World.fresh fs) fun _ _ => True := by
      refine Succeeds.bind (((close_succeeds calm running).of_ensures (close_ensures _ running)).mono
        fun _ closed quiet => ?_)
      have opening := open_succeeds (quiet.calm calm) storable (quiet.now ▸ described) log
        (fun next => rebuildable.of_value fun _ => rfl) fun next => (recoverable next).roomy
      exact Succeeds.bind (Succeeds.zoom (opening.mono fun opened last _ => ⟨(), _, rfl, trivial⟩))
    obtain ⟨_, after, run, _⟩ := opens
    rw [reopened, Outcome.left_eq_some.mpr ⟨_, run⟩]
    rfl

/-- The engine appends to the file that is named `wal.log`. -/
def Linked (state : Engine × Fs) : Prop :=
  state.2.dir.find? WAL_FILENAME = some state.1.inner.writer.file.ino

instance instDecidableLinked (state : Engine × Fs) : Decidable (Linked state) :=
  inferInstanceAs (Decidable (_ = _))

omit [LinearOrder D] in
/-- **The directory of a drifting engine** keeps the values, if the log has its name and the table is
marked. -/
theorem Drifting.keeps {engine : Engine}
    (drifting : Drifting env.hashes fs engine.inner lsm stray log snapshots) (linked : Linked (engine, fs))
    (marked : ∀ table, stray = some table → lsm.Marks table) :
    ∃ dir records, Describes env.hashes fs dir ∧ Keeps env.hashes lsm.value dir records ∧ dir.log ≠ some [] ∧
      dir.snapshots = snapshots := by
  cases drifting.appends with
  | nameless nameless => exact absurd linked (nameless.2 WAL_FILENAME)
  | @linked records _ whole valid replayed =>
    have memtable : (Memtable.replay records).map = lsm.memtable := by
      rw [← replayed, drifting.memtable]
    obtain ⟨dir, described, sameLog, same, value⟩ : ∃ dir, Describes env.hashes fs dir ∧ dir.log = log ∧
        dir.snapshots = snapshots ∧ ∀ key, (dir.recovered records 0).value key = lsm.value key := by
      cases stray with
      | none =>
        refine ⟨_, drifting.described, rfl, rfl, fun key => ?_⟩
        show ((⟨lsm.l0, lsm.l1, log, snapshots⟩ : Dir).recovered records 0).value key = _
        rw [drifting.ordered.recovered, memtable]
        rfl
      | some table =>
        exact drifting.ordered.beside_value (drifting.astray table rfl) (marked table rfl) drifting.described
          memtable
    refine ⟨dir, records, described, ⟨Or.inl ?_, fun _ => value⟩, ?_, same⟩
    · rw [sameLog, whole]
      exact .whole valid
    · rw [sameLog, whole]
      exact fun headless => List.append_ne_nil_of_left_ne_nil (by decide) _ (Option.some.inj headless)

/-! ### Behind a failed flush -/

/-- What is registered needs no log. -/
theorem Lsm.value_registered (lsm : Lsm) (next : Nat) (key : Key) :
    (⟨SortedMap.empty, lsm.registered.l0, lsm.registered.l1, next⟩ : Lsm).value key = lsm.value key := by
  rw [Lsm.value, Lsm.value, Lsm.newest_eq, Lsm.newest_eq]
  simp only [Lsm.registered, Lsm.tables, List.cons_append, List.map_cons, newestOf_cons,
    SortedMap.find?_empty, Option.none_or]

omit [LinearOrder D] in
/-- A log that the engine does not know of has no records. -/
theorem NewLog.keeps {bytes : Option Bytes} (new : NewLog bytes) (ordered : lsm.Ordered)
    (snapshots : List (Nat × Bytes)) :
    Keeps env.hashes lsm.value ⟨lsm.registered.l0, lsm.registered.l1, bytes, snapshots⟩ [] := by
  refine ⟨?_, fun _ key => ?_⟩
  · rcases new with rfl | rfl | rfl
    · exact Or.inl .absent
    · exact Or.inr rfl
    · exact Or.inl .header
  · rw [ordered.registered.recovered]
    exact lsm.value_registered 0 key

omit [LinearOrder D] in
/-- **What a failed flush leaves** drifts, with the values from before; and where the log has lost its name, the
tables have all of them. -/
theorem FlushFailure.drifting {inner' : EngineInner} {fs' : Fs} {records : List Record}
    (failure : FlushFailure env.hashes lsm inner fs inner' fs')
    (running : Running env.hashes fs inner lsm records snapshots) (small : lsm.nextId + 1 < u64Bound)
    (index : VectorIndex) :
    ∃ lsm' stray log, Drifting env.hashes fs' inner' lsm' stray log snapshots ∧ lsm'.value = lsm.value ∧
      (Linked (⟨inner', index⟩, fs') ∨ ∃ dir, Describes env.hashes fs' dir ∧
        Keeps env.hashes lsm.value dir [] ∧ dir.log = fs'.content WAL_FILENAME ∧
        dir.snapshots = snapshots) := by
  have holds := running.holds
  have appends : AppendsTo env.hashes fs inner (some (Wal.fileHeader ++ logBytes env.hashes records)) :=
    .linked holds.linked rfl running.valid running.memtable
  -- the published table is not the log
  have away : ¬ (WAL_FILENAME = tmpName (sstFilename 0 lsm.nextId) ∨
      WAL_FILENAME = sstFilename 0 lsm.nextId) := by
    rintro (same | same)
    · exact wal_not_tmp (same ▸ tmp_of_sst 0 _)
    · exact sst_ne_wal _ _ same.symm
  cases failure with
  | @writing fs' frame =>
    have outside : Fs.Frame IsTmp fs fs' := frame.mono fun _ same => same ▸ tmp_of_sst 0 _
    refine ⟨lsm, none, _, ⟨holds.toInMemory, holds.described.tmp outside,
      appends.frame outside wal_not_tmp rfl rfl, nofun, fun id => ?_⟩, rfl,
      Or.inl ((outside.dir _ wal_not_tmp).trans holds.linked)⟩
    rw [frame.content _ fun same => sst_ne_snapshot 0 _ id (tmpName_inj same).symm]
    exact holds.unsnapped id
  | @published bytes fs' isTable pub =>
    have tidies : Fs.Tidies fs fs' := .without ⟨0, _, rfl⟩ pub.frame pub.gone
    refine ⟨lsm, some (lsm.nextId, lsm.memtable), _, ⟨holds.toInMemory, holds.published small isTable pub,
      appends.frame pub.frame away rfl rfl, fun table found => ?_, tidies.unsnapped holds.unsnapped⟩, rfl,
      Or.inl ((pub.frame.dir _ away).trans holds.linked)⟩
    cases found
    exact .ahead rfl fun _ present => present
  | @registered bytes reader fs₁ fs' isTable pub reads _ rotating =>
    have tidies : Fs.Tidies fs fs₁ := .without ⟨0, _, rfl⟩ pub.frame pub.gone
    have described := holds.published small isTable pub
    have memory := holds.toInMemory.registered reads small
    have linked : fs₁.dir.find? WAL_FILENAME = some inner.writer.file.ino :=
      (pub.frame.dir _ away).trans holds.linked
    have value : lsm.registered.value = lsm.value := by
      funext key
      rw [Lsm.value, lsm.newest_registered, Lsm.value]
    rcases rotating with rfl | lost
    · exact ⟨lsm.registered, none, _, ⟨memory, described, appends.frame pub.frame away rfl rfl, nofun,
        tidies.unsnapped holds.unsnapped⟩, value, Or.inl linked⟩
    · have tidies' := tidies.trans (.setLog lost.frame)
      have unlogged := described.setLog lost.frame
      exact ⟨lsm.registered, none, _, ⟨memory, unlogged, .nameless (lost.nameless _ linked), nofun,
        tidies'.unsnapped holds.unsnapped⟩, value,
        Or.inr ⟨_, unlogged, lost.content.keeps holds.ordered snapshots, rfl, rfl⟩⟩

/-- **Nothing is lost when the engine is closed**: the log it appends to is `wal.log`, or there were no calls
and no log without a header. And what a table in L0 has a value for that is not the engine's, it has not
forgotten, or it has a table in L1. -/
structure Unlost (env : Env D) (calls : List Call) (state : Engine × Fs) : Prop where
  log : Linked state ∨ (calls = [] ∧ state.2.content WAL_FILENAME ≠ some [])
  marked : state.1.inner.levels.l1 ≠ [] ∨ ∀ id bytes map newest,
    state.2.content (sstFilename 0 id) = some bytes → IsTable env.hashes bytes map →
    (∀ entry ∈ state.1.inner.levels.l0, entry.id ≠ id) → state.1.inner.Newest env.hashes newest →
    ∀ key entry, map.find? key = some entry → entry.isLive = true → newest key ≠ none

omit [LinearOrder D] in
theorem Unlost.marks {engine : Engine} {calls : List Call} (unlost : Unlost env calls (engine, fs))
    (drifting : Drifting env.hashes fs engine.inner lsm stray log snapshots) (table : Table)
    (found : stray = some table) : lsm.Marks table := by
  subst found
  rcases unlost.marked with upper | marked
  · refine Or.inl fun none => upper ?_
    have l1 := drifting.l1
    rw [none] at l1
    exact List.forall₂_nil_right_iff.mp l1
  · obtain ⟨_, bytes, here, isTable⟩ := drifting.described.table 0 table (List.mem_cons_self ..)
    refine Or.inr (marked table.1 bytes table.2 lsm.newest here isTable (fun entry member same => ?_)
      drifting.newest)
    have listed : table.1 ∈ lsm.l0.map Prod.fst := by
      rw [← drifting.l0.ids, ← same]
      exact List.mem_map_of_mem member
    obtain ⟨other, inside, same⟩ := List.mem_map.mp listed
    cases drifting.astray table rfl with
    | ahead next _ => exact absurd (drifting.ordered.bound other (List.mem_append_left _ inside)) (by omega)
    | behind _ above _ => exact absurd (above other inside) (by omega)

/-- Few bytes fill the memtable, and two tables are merged. -/
def Env.filling : Env Nat := Env.zeroOne ⟨24, 2, 0, ⟨.euclideanSquared, 1, 2, 1, 1, 0, 0⟩⟩

end Sastran

/-
What a directory stores: tables by level and id, a log, and snapshots.

`Describes` relates a file system to such a directory; temporary files are left out of it. One lemma
for each kind of change says which directory a file system describes afterwards (`pushTable`,
`dropTable`, `setLog`, `pushSnapshot`, `dropSnapshot`). `Dir.live` is what discovery makes of the
tables.
-/

import Sastran.Engine.Recovery
import Sastran.Store.Lsm

namespace Sastran

open SsTable

structure Dir where
  l0 : List Table
  l1 : List Table
  log : Option Bytes
  snapshots : List (Nat × Bytes)

namespace Dir

def empty : Dir := ⟨[], [], none, []⟩

/-- The tables of a level. -/
def level (dir : Dir) : Nat → List Table
  | 0 => dir.l0
  | 1 => dir.l1
  | _ => []

/-- Change the tables of a level. -/
def modifyLevel (dir : Dir) (change : List Table → List Table) : Nat → Dir
  | 0 => { dir with l0 := change dir.l0 }
  | 1 => { dir with l1 := change dir.l1 }
  | _ => dir

theorem level_modifyLevel (dir : Dir) (change : List Table → List Table) {target : Nat}
    (small : target < 2) (other : Nat) :
    (dir.modifyLevel change target).level other =
      if target = other then change (dir.level other) else dir.level other := by
  match target, small with
  | 0, _ => rcases other with _ | _ | other <;> simp [modifyLevel, level]
  | 1, _ => rcases other with _ | _ | other <;> simp [modifyLevel, level]

theorem modifyLevel_id (dir : Dir) (target : Nat) : dir.modifyLevel (fun tables => tables) target = dir := by
  rcases target with _ | _ | target <;> rfl

theorem modifyLevel_modifyLevel (dir : Dir) (first second : List Table → List Table) (target : Nat) :
    (dir.modifyLevel first target).modifyLevel second target =
      dir.modifyLevel (fun tables => second (first tables)) target := by
  rcases target with _ | _ | target <;> rfl

@[simp] theorem log_modifyLevel (dir : Dir) (change : List Table → List Table) (target : Nat) :
    (dir.modifyLevel change target).log = dir.log := by
  unfold modifyLevel
  split <;> rfl

@[simp] theorem snapshots_modifyLevel (dir : Dir) (change : List Table → List Table) (target : Nat) :
    (dir.modifyLevel change target).snapshots = dir.snapshots := by
  unfold modifyLevel
  split <;> rfl

@[simp] theorem level_log (dir : Dir) (log : Option Bytes) (target : Nat) :
    ({ dir with log := log } : Dir).level target = dir.level target := by
  rcases target with _ | _ | target <;> rfl

@[simp] theorem level_snapshots (dir : Dir) (snapshots : List (Nat × Bytes)) (target : Nat) :
    ({ dir with snapshots := snapshots } : Dir).level target = dir.level target := by
  rcases target with _ | _ | target <;> rfl

theorem level_small {dir : Dir} {level : Nat} {table : Table} (member : table ∈ dir.level level) :
    level < 2 := by
  rcases level with _ | _ | level
  · exact Nat.zero_lt_two
  · exact Nat.one_lt_two
  · cases member

/-- A table is of L0 or of L1. -/
theorem level_cases {dir : Dir} {level : Nat} {table : Table} (member : table ∈ dir.level level) :
    level = 0 ∧ table ∈ dir.l0 ∨ level = 1 ∧ table ∈ dir.l1 := by
  rcases level with _ | _ | level
  · exact Or.inl ⟨rfl, member⟩
  · exact Or.inr ⟨rfl, member⟩
  · cases member

end Dir

/-- A table or a snapshot that is being written. -/
def IsTmp (name : FileName) : Prop :=
  (∃ level id, name = tmpName (sstFilename level id)) ∨ ∃ id, name = tmpName (snapshotFilename id)

theorem IsTmp.extension {name : FileName} (tmp : IsTmp name) :
    extension name = some "tmp".toList := by
  rcases tmp with ⟨level, id, rfl⟩ | ⟨id, rfl⟩
  · exact extension_tmp (sstFilename_ne_nil level id)
  · exact extension_tmp (snapshotFilename_ne_nil id)

theorem IsTmp.not_snapshot {name : FileName} (tmp : IsTmp name) :
    parseSnapshotFilename name = none := by
  rcases tmp with ⟨level, id, rfl⟩ | ⟨id, rfl⟩
  · exact parseSnapshotFilename_tmp_sst level id
  · exact parseSnapshotFilename_tmp_snapshot id

theorem sst_not_tmp (level id : Nat) : ¬ IsTmp (sstFilename level id) :=
  fun tmp => absurd tmp.extension (by rw [extension_sst]; decide)

theorem wal_not_tmp : ¬ IsTmp WAL_FILENAME :=
  fun tmp => absurd tmp.extension (by rw [extension_wal]; decide)

theorem snapshot_not_tmp (id : Nat) : ¬ IsTmp (snapshotFilename id) :=
  fun tmp => absurd tmp.extension (by rw [extension_snapshot]; decide)

theorem sst_ne_wal (level id : Nat) : sstFilename level id ≠ WAL_FILENAME :=
  ne_of_extension (by rw [extension_sst, extension_wal]; decide)

theorem sst_ne_snapshot (level id id' : Nat) : sstFilename level id ≠ snapshotFilename id' :=
  ne_of_extension (by rw [extension_sst, extension_snapshot]; decide)

theorem snapshot_ne_wal (id : Nat) : snapshotFilename id ≠ WAL_FILENAME :=
  ne_of_extension (by rw [extension_snapshot, extension_wal]; decide)

/-- A name of the directory. -/
inductive Known (dir : Dir) (name : FileName) : Prop
  | log (same : name = WAL_FILENAME)
  | table (level : Nat) (table : Table) (member : table ∈ dir.level level)
      (same : name = sstFilename level table.1)
  | snapshot (item : Nat × Bytes) (member : item ∈ dir.snapshots)
      (same : name = snapshotFilename item.1)
  | tmp (isTmp : IsTmp name)

/-- **The file system stores the directory**, and nothing else but temporary files. -/
structure Describes (hashes : Hashes) (fs : Fs) (dir : Dir) : Prop where
  wf : fs.Wf
  distinct : ∀ level, DistinctIds (dir.level level)
  table : ∀ level, ∀ table ∈ dir.level level, table.1 + 1 < u64Bound ∧
    ∃ bytes, fs.content (sstFilename level table.1) = some bytes ∧ IsTable hashes bytes table.2
  log : fs.content WAL_FILENAME = dir.log
  distinctSnapshots : DistinctIds dir.snapshots
  snapshot : ∀ item ∈ dir.snapshots, item.1 < u64Bound ∧
    fs.content (snapshotFilename item.1) = some item.2
  known : ∀ name, fs.content name ≠ none → Known dir name

namespace Describes

variable {hashes : Hashes} {fs fs' : Fs} {dir : Dir}

theorem empty : Describes hashes Fs.empty Dir.empty where
  wf := Fs.empty_wf
  distinct := fun level => by rcases level with _ | _ | level <;> exact List.Pairwise.nil
  table := fun level table member => by rcases level with _ | _ | level <;> cases member
  log := rfl
  distinctSnapshots := List.Pairwise.nil
  snapshot := nofun
  known := fun name present => absurd (Fs.content_empty name) present

/-- Temporary files come and go. -/
theorem tmp (described : Describes hashes fs dir) (frame : Fs.Frame IsTmp fs fs') :
    Describes hashes fs' dir where
  wf := frame.wf
  distinct := described.distinct
  table := by
    intro level table member
    obtain ⟨small, bytes, held, isTable⟩ := described.table level table member
    exact ⟨small, bytes, by rw [frame.content _ (sst_not_tmp level table.1), held], isTable⟩
  log := by rw [frame.content _ wal_not_tmp, described.log]
  distinctSnapshots := described.distinctSnapshots
  snapshot := by
    intro item member
    obtain ⟨small, held⟩ := described.snapshot item member
    exact ⟨small, by rw [frame.content _ (snapshot_not_tmp item.1), held]⟩
  known := by
    intro name present
    by_cases isTmp : IsTmp name
    · exact Known.tmp isTmp
    · rw [frame.content _ isTmp] at present
      exact described.known name present

/-- **The log is replaced.** -/
theorem setLog (described : Describes hashes fs dir)
    (frame : Fs.Frame (· = WAL_FILENAME) fs fs') :
    Describes hashes fs' { dir with log := fs'.content WAL_FILENAME } where
  wf := frame.wf
  distinct := fun level => by rw [Dir.level_log]; exact described.distinct level
  table := by
    intro level table member
    rw [Dir.level_log] at member
    obtain ⟨small, bytes, held, isTable⟩ := described.table level table member
    exact ⟨small, bytes, by rw [frame.content _ (sst_ne_wal level table.1), held], isTable⟩
  log := rfl
  distinctSnapshots := described.distinctSnapshots
  snapshot := by
    intro item member
    obtain ⟨small, held⟩ := described.snapshot item member
    exact ⟨small, by rw [frame.content _ (snapshot_ne_wal item.1), held]⟩
  known := by
    intro name present
    by_cases here : name = WAL_FILENAME
    · exact Known.log here
    · rw [frame.content _ here] at present
      cases described.known name present with
      | log same => exact Known.log same
      | table level table member same =>
        exact Known.table level table (by rw [Dir.level_log]; exact member) same
      | snapshot item member same => exact Known.snapshot item member same
      | tmp isTmp => exact Known.tmp isTmp

/-- Names of tables are distinct. -/
theorem sst_inj {level level' id id' : Nat} (low : level < 2) (low' : level' < 2)
    (small : id + 1 < u64Bound) (small' : id' + 1 < u64Bound)
    (same : sstFilename level id = sstFilename level' id') : level = level' ∧ id = id' :=
  sstFilename_inj (by omega) (by omega) (by omega) (by omega) same

/-- **A table is added**, under an id its level does not have. -/
theorem pushTable (described : Describes hashes fs dir) {target id : Nat} (low : target < 2)
    (small : id + 1 < u64Bound) {map : SortedMap Key Entry} {bytes : Bytes}
    (frame : Fs.Outside (fun name => name = tmpName (sstFilename target id) ∨
      name = sstFilename target id) fs fs')
    (held : fs'.content (sstFilename target id) = some bytes) (isTable : IsTable hashes bytes map)
    (fresh : ∀ table ∈ dir.level target, table.1 ≠ id) :
    Describes hashes fs' (dir.modifyLevel ((id, map) :: ·) target) := by
  have away : ∀ {name}, ¬ IsTmp name → name ≠ sstFilename target id →
      fs'.content name = fs.content name := by
    intro name notTmp different
    refine frame.content name ?_
    rintro (rfl | same)
    · exact notTmp (Or.inl ⟨_, _, rfl⟩)
    · exact different same
  refine ⟨frame.wf, ?_, ?_, ?_, by rw [Dir.snapshots_modifyLevel]; exact described.distinctSnapshots,
    ?_, ?_⟩
  · intro level
    rw [Dir.level_modifyLevel dir _ low]
    split
    · rename_i same
      subst same
      exact List.pairwise_cons.mpr ⟨fun table member => (fresh table member).symm,
        described.distinct target⟩
    · exact described.distinct level
  · intro level table member
    rw [Dir.level_modifyLevel dir _ low] at member
    have old : table ∈ dir.level level → ¬ (target = level ∧ table.1 = id) →
        table.1 + 1 < u64Bound ∧
        ∃ bytes, fs'.content (sstFilename level table.1) = some bytes ∧
          IsTable hashes bytes table.2 := by
      intro member different
      obtain ⟨small', bytes', held', isTable'⟩ := described.table level table member
      refine ⟨small', bytes', ?_, isTable'⟩
      rw [away (sst_not_tmp _ _) fun same => ?_, held']
      obtain ⟨sameLevel, sameId⟩ := sst_inj (Dir.level_small member) low small' small same
      exact different ⟨sameLevel.symm, sameId⟩
    split at member
    · rename_i same
      subst same
      rcases List.mem_cons.mp member with rfl | member
      · exact ⟨small, bytes, held, isTable⟩
      · exact old member fun both => fresh table member both.2
    · rename_i different
      exact old member fun both => different both.1
  · rw [Dir.log_modifyLevel, away wal_not_tmp (sst_ne_wal _ _).symm, described.log]
  · intro item member
    rw [Dir.snapshots_modifyLevel] at member
    obtain ⟨small', held'⟩ := described.snapshot item member
    exact ⟨small', by rw [away (snapshot_not_tmp _) (sst_ne_snapshot _ _ _).symm, held']⟩
  · intro name present
    by_cases isTmp : IsTmp name
    · exact Known.tmp isTmp
    · by_cases here : name = sstFilename target id
      · exact Known.table target (id, map)
          (by rw [Dir.level_modifyLevel dir _ low, if_pos rfl]; exact List.mem_cons_self ..) here
      · rw [away isTmp here] at present
        cases described.known name present with
        | log same => exact Known.log same
        | table level table member same =>
          refine Known.table level table ?_ same
          rw [Dir.level_modifyLevel dir _ low]
          split
          · exact List.mem_cons_of_mem _ member
          · exact member
        | snapshot item member same =>
          exact Known.snapshot item (by rw [Dir.snapshots_modifyLevel]; exact member) same
        | tmp isTmp => exact Known.tmp isTmp

/-- **A table is removed**, if it was there. -/
theorem dropTable (described : Describes hashes fs dir) {target id : Nat} (low : target < 2)
    (small : id + 1 < u64Bound) (frame : Fs.Frame (· = sstFilename target id) fs fs')
    (gone : fs'.content (sstFilename target id) = none) :
    Describes hashes fs' (dir.modifyLevel (List.filter fun table => table.1 ≠ id) target) := by
  have kept : ∀ {level} {table : Table},
      table ∈ (dir.modifyLevel (List.filter fun table => table.1 ≠ id) target).level level ↔
        table ∈ dir.level level ∧ ¬ (target = level ∧ table.1 = id) := by
    intro level table
    rw [Dir.level_modifyLevel dir _ low]
    split
    · rename_i same
      subst same
      simp
    · rename_i different
      simp [different]
  refine ⟨frame.wf, ?_, ?_, ?_, by rw [Dir.snapshots_modifyLevel]; exact described.distinctSnapshots,
    ?_, ?_⟩
  · intro level
    rw [Dir.level_modifyLevel dir _ low]
    split
    · exact (described.distinct level).filter _
    · exact described.distinct level
  · intro level table member
    obtain ⟨member, different⟩ := kept.mp member
    obtain ⟨small', bytes, held, isTable⟩ := described.table level table member
    refine ⟨small', bytes, ?_, isTable⟩
    rw [frame.content _ fun same => ?_, held]
    obtain ⟨sameLevel, sameId⟩ := sst_inj (Dir.level_small member) low small' small same
    exact different ⟨sameLevel.symm, sameId⟩
  · rw [Dir.log_modifyLevel, frame.content _ (sst_ne_wal _ _).symm, described.log]
  · intro item member
    rw [Dir.snapshots_modifyLevel] at member
    obtain ⟨small', held⟩ := described.snapshot item member
    exact ⟨small', by rw [frame.content _ (sst_ne_snapshot _ _ _).symm, held]⟩
  · intro name present
    have different : name ≠ sstFilename target id := by
      rintro rfl
      exact present gone
    rw [frame.content _ different] at present
    cases described.known name present with
    | log same => exact Known.log same
    | table level table member same =>
      refine Known.table level table (kept.mpr ⟨member, ?_⟩) same
      rintro ⟨rfl, rfl⟩
      exact different same
    | snapshot item member same =>
      exact Known.snapshot item (by rw [Dir.snapshots_modifyLevel]; exact member) same
    | tmp isTmp => exact Known.tmp isTmp

/-- **A snapshot is added**; one of the same id is replaced. -/
theorem pushSnapshot (described : Describes hashes fs dir) {id : Nat} (small : id < u64Bound)
    {bytes : Bytes}
    (frame : Fs.Frame (fun name => name = tmpName (snapshotFilename id) ∨
      name = snapshotFilename id) fs fs')
    (held : fs'.content (snapshotFilename id) = some bytes) :
    Describes hashes fs' { dir with
      snapshots := (id, bytes) :: dir.snapshots.filter fun item => item.1 ≠ id } := by
  have away : ∀ {name}, ¬ IsTmp name → name ≠ snapshotFilename id →
      fs'.content name = fs.content name := by
    intro name notTmp different
    refine frame.content name ?_
    rintro (rfl | same)
    · exact notTmp (Or.inr ⟨_, rfl⟩)
    · exact different same
  refine ⟨frame.wf, fun level => by rw [Dir.level_snapshots]; exact described.distinct level, ?_, ?_,
    ?_, ?_, ?_⟩
  · intro level table member
    rw [Dir.level_snapshots] at member
    obtain ⟨small', bytes', held', isTable⟩ := described.table level table member
    exact ⟨small', bytes', by rw [away (sst_not_tmp _ _) (sst_ne_snapshot _ _ _), held'], isTable⟩
  · rw [away wal_not_tmp (snapshot_ne_wal _).symm, described.log]
  · refine List.pairwise_cons.mpr ⟨fun item member => ?_, described.distinctSnapshots.filter _⟩
    have different := (List.mem_filter.mp member).2
    simp only [ne_eq, decide_eq_true_eq] at different
    exact fun same => different same.symm
  · intro item member
    rcases List.mem_cons.mp member with rfl | member
    · exact ⟨small, held⟩
    · obtain ⟨member, different⟩ := List.mem_filter.mp member
      simp only [ne_eq, decide_eq_true_eq] at different
      obtain ⟨small', held'⟩ := described.snapshot item member
      refine ⟨small', ?_⟩
      rw [away (snapshot_not_tmp _) fun same => different (snapshotFilename_inj small' small same), held']
  · intro name present
    by_cases isTmp : IsTmp name
    · exact Known.tmp isTmp
    · by_cases here : name = snapshotFilename id
      · exact Known.snapshot (id, bytes) (List.mem_cons_self ..) here
      · rw [away isTmp here] at present
        cases described.known name present with
        | log same => exact Known.log same
        | table level table member same =>
          exact Known.table level table (by rw [Dir.level_snapshots]; exact member) same
        | snapshot item member same =>
          refine Known.snapshot item (List.mem_cons_of_mem _ (List.mem_filter.mpr ⟨member, ?_⟩)) same
          simp only [ne_eq, decide_eq_true_eq]
          rintro sameId
          exact here (same.trans (by rw [sameId]))
        | tmp isTmp => exact Known.tmp isTmp

/-- **A snapshot is removed.** -/
theorem dropSnapshot (described : Describes hashes fs dir) {id : Nat} (small : id < u64Bound)
    (frame : Fs.Frame (· = snapshotFilename id) fs fs')
    (gone : fs'.content (snapshotFilename id) = none) :
    Describes hashes fs' { dir with snapshots := dir.snapshots.filter fun item => item.1 ≠ id } := by
  refine ⟨frame.wf, fun level => by rw [Dir.level_snapshots]; exact described.distinct level, ?_, ?_,
    described.distinctSnapshots.filter _, ?_, ?_⟩
  · intro level table member
    rw [Dir.level_snapshots] at member
    obtain ⟨small', bytes, held, isTable⟩ := described.table level table member
    exact ⟨small', bytes, by rw [frame.content _ (sst_ne_snapshot _ _ _), held], isTable⟩
  · rw [frame.content _ (snapshot_ne_wal _).symm, described.log]
  · intro item member
    obtain ⟨member, different⟩ := List.mem_filter.mp member
    simp only [ne_eq, decide_eq_true_eq] at different
    obtain ⟨small', held⟩ := described.snapshot item member
    refine ⟨small', ?_⟩
    rw [frame.content _ fun same => different (snapshotFilename_inj small' small same), held]
  · intro name present
    have different : name ≠ snapshotFilename id := by
      rintro rfl
      exact present gone
    rw [frame.content _ different] at present
    cases described.known name present with
    | log same => exact Known.log same
    | table level table member same =>
      exact Known.table level table (by rw [Dir.level_snapshots]; exact member) same
    | snapshot item member same =>
      refine Known.snapshot item (List.mem_filter.mpr ⟨member, ?_⟩) same
      simp only [ne_eq, decide_eq_true_eq]
      rintro sameId
      exact different (same.trans (by rw [sameId]))
    | tmp isTmp => exact Known.tmp isTmp

/-- The order in which tables are listed does not matter. -/
theorem reorder (described : Describes hashes fs dir) {dir' : Dir}
    (same : ∀ level table, table ∈ dir'.level level ↔ table ∈ dir.level level)
    (distinct : ∀ level, DistinctIds (dir'.level level)) (log : dir'.log = dir.log)
    (snapshots : dir'.snapshots = dir.snapshots) : Describes hashes fs dir' where
  wf := described.wf
  distinct := distinct
  table := fun level table member => described.table level table ((same level table).mp member)
  log := described.log.trans log.symm
  distinctSnapshots := by rw [snapshots]; exact described.distinctSnapshots
  snapshot := by rw [snapshots]; exact described.snapshot
  known := by
    intro name present
    cases described.known name present with
    | log same => exact Known.log same
    | table level table member same' => exact Known.table level table ((same level table).mpr member) same'
    | snapshot item member same => exact Known.snapshot item (by rw [snapshots]; exact member) same
    | tmp isTmp => exact Known.tmp isTmp

end Describes

/-! ### What is live -/

/-- Reconciliation of L1, whatever the number of tables. -/
theorem splitL1_eq {α : Type} (l1 : List (Nat × α)) :
    splitL1 l1 = ((sortById l1).dropLast, (sortById l1).getLast?.toList) := by
  unfold splitL1
  split
  · rename_i many
    have length := length_sortById l1
    obtain ⟨last, whole⟩ : ∃ last, sortById l1 = (sortById l1).dropLast ++ [last] := by
      cases found : (sortById l1).getLast? with
      | none =>
        rw [List.getLast?_eq_none_iff.mp found, List.length_nil] at length
        omega
      | some last => exact ⟨last, (List.dropLast_append_getLast? last (by simpa using found)).symm⟩
    have shorter : (sortById l1).dropLast.length = l1.length - 1 := by
      rw [List.length_dropLast, length]
    rw [List.splitAt_eq, whole, ← shorter]
    simp
  · rename_i few
    match l1, few with
    | [], _ => rfl
    | [table], _ => rfl
    | _ :: _ :: _, few => exact absurd (by simp) few

/-- The L0 tables that are not orphans. -/
def newerThan {α β : Type} (survivor : Option (Nat × β)) (l0 : List (Nat × α)) : List (Nat × α) :=
  match survivor with
  | none => l0
  | some table => l0.filter fun other => table.1 < other.1

theorem splitL0_eq {α : Type} (survivor : Option (Nat × α)) (l0 : List (Nat × α)) :
    (splitL0 survivor.toList l0).2 = newerThan survivor l0 := by
  cases survivor with
  | none => rfl
  | some table =>
    simp only [splitL0, Option.toList_some, List.partition_eq_filter_filter, newerThan]
    refine List.filter_congr fun other _ => ?_
    show (!decide (other.1 ≤ table.1)) = decide (table.1 < other.1)
    rw [← decide_not]
    simp only [not_le]

namespace Dir

/-- The L1 table that survives discovery. -/
def survivor (dir : Dir) : Option Table := (sortById dir.l1).getLast?

/-- The live L1 tables. -/
def liveL1 (dir : Dir) : List Table := dir.survivor.toList

/-- The live L0 tables, newest first. -/
def liveL0 (dir : Dir) : List Table := (sortById (newerThan dir.survivor dir.l0)).reverse

/-- The ids in use. -/
def ids (dir : Dir) : List Nat := (dir.l0 ++ dir.l1).map Prod.fst

/-- The directory without orphans. -/
def live (dir : Dir) : Dir := ⟨dir.liveL0, dir.liveL1, dir.log, dir.snapshots⟩

theorem mem_liveL1 {dir : Dir} {table : Table} :
    table ∈ dir.liveL1 ↔ dir.survivor = some table := by
  rw [liveL1, Option.mem_toList]

theorem mem_liveL0 {dir : Dir} {table : Table} : table ∈ dir.liveL0 ↔
    table ∈ dir.l0 ∧ ∀ survivor, dir.survivor = some survivor → survivor.1 < table.1 := by
  rw [liveL0, List.mem_reverse, mem_sortById]
  cases dir.survivor with
  | none => simp [newerThan]
  | some survivor => simp [newerThan]

theorem survivor_mem {dir : Dir} {table : Table} (found : dir.survivor = some table) :
    table ∈ dir.l1 := mem_sortById.mp (List.mem_of_getLast? found)

/-- Every other L1 table is older than the surviving one. -/
theorem survivor_max {dir : Dir} (distinct : DistinctIds dir.l1) {table other : Table}
    (found : dir.survivor = some table) (member : other ∈ dir.l1) :
    other = table ∨ other.1 < table.1 :=
  last_max distinct found member

theorem survivor_eq_none {dir : Dir} : dir.survivor = none ↔ dir.l1 = [] := by
  rw [survivor, List.getLast?_eq_none_iff, ← List.length_eq_zero_iff, length_sortById,
    List.length_eq_zero_iff]

theorem liveL0_descending {dir : Dir} (distinct : DistinctIds dir.l0) :
    dir.liveL0.Pairwise fun newer older => older.1 < newer.1 := by
  rw [liveL0, List.pairwise_reverse]
  refine sortById_ascending ?_
  unfold newerThan
  split
  · exact distinct
  · exact distinct.filter _

/-- The next id of a described directory is a 64-bit one. -/
theorem next_small {hashes : Hashes} {fs : Fs} {dir : Dir} (described : Describes hashes fs dir)
    {next : Nat} (isNext : IsNext dir.ids next) : next < u64Bound := by
  obtain zero | ⟨id, member, reached⟩ := isNext.2
  · rw [zero]
    exact Nat.two_pow_pos 64
  · rw [reached]
    obtain ⟨table, inside, rfl⟩ := List.mem_map.mp member
    rcases List.mem_append.mp inside with inside | inside
    · exact (described.table 0 table inside).1
    · exact (described.table 1 table inside).1

/-- **The live tables are in order.** -/
theorem live_ordered {dir : Dir} (distinct : DistinctIds dir.l0) {next : Nat}
    (isNext : IsNext dir.ids next) (memtable : SortedMap Key Entry) :
    (Lsm.mk memtable dir.liveL0 dir.liveL1 next).Ordered := by
  refine ⟨List.pairwise_append.mpr ⟨liveL0_descending distinct, ?_, ?_⟩, ?_, ?_⟩
  · rw [liveL1]
    cases dir.survivor with
    | none => exact List.Pairwise.nil
    | some table => exact List.pairwise_singleton _ _
  · intro newer member older member'
    exact (mem_liveL0.mp member).2 older (mem_liveL1.mp member')
  · intro table member
    refine isNext.1 _ (List.mem_map_of_mem ?_)
    rcases List.mem_append.mp member with member | member
    · exact List.mem_append_left _ (mem_liveL0.mp member).1
    · exact List.mem_append_right _ (survivor_mem (mem_liveL1.mp member))
  · simp only [liveL1]
    cases dir.survivor <;> simp

/-- **In an ordered state nothing is an orphan.** -/
theorem live_of_ordered {lsm : Lsm} (ordered : lsm.Ordered) {dir : Dir} (l0 : dir.l0 = lsm.l0)
    (l1 : dir.l1 = lsm.l1) : dir.liveL0 = lsm.l0 ∧ dir.liveL1 = lsm.l1 := by
  obtain ⟨descending, _, across⟩ := List.pairwise_append.mp ordered.descending
  have survivor : dir.survivor = lsm.l1.head? := by
    rw [Dir.survivor, l1]
    match lsm.l1, ordered.single with
    | [], _ => rfl
    | [table], _ => rfl
    | _ :: _ :: _, few => exact absurd few (by simp)
  have liveL1 : dir.liveL1 = lsm.l1 := by
    rw [Dir.liveL1, survivor]
    match lsm.l1, ordered.single with
    | [], _ => rfl
    | [table], _ => rfl
    | _ :: _ :: _, few => exact absurd few (by simp)
  refine ⟨?_, liveL1⟩
  have all : newerThan dir.survivor dir.l0 = lsm.l0 := by
    rw [survivor, l0]
    unfold newerThan
    split
    · rfl
    · rename_i table found
      refine List.filter_eq_self.mpr fun other member => ?_
      exact decide_eq_true (across other member table (List.mem_of_head? found))
  rw [liveL0, all, sortById_descending descending, List.reverse_reverse]

/-- Some tables are gone, and none of them was live. -/
structure Sheds (dir dir' : Dir) : Prop where
  l0 : ∃ keep : Table → Bool, dir'.l0 = dir.l0.filter keep ∧ ∀ table ∈ dir.liveL0, keep table = true
  l1 : ∃ keep : Table → Bool, dir'.l1 = dir.l1.filter keep ∧ ∀ table ∈ dir.liveL1, keep table = true
  log : dir'.log = dir.log
  snapshots : dir'.snapshots = dir.snapshots

theorem Sheds.refl (dir : Dir) : dir.Sheds dir :=
  ⟨⟨fun _ => true, (List.filter_true _).symm, fun _ _ => rfl⟩,
    ⟨fun _ => true, (List.filter_true _).symm, fun _ _ => rfl⟩, rfl, rfl⟩

theorem Sheds.survivor {dir dir' : Dir} (sheds : dir.Sheds dir') (distinct : DistinctIds dir.l1) :
    dir'.survivor = dir.survivor := by
  obtain ⟨keep, kept, live⟩ := sheds.l1
  have inside : ∀ table ∈ dir'.l1, table ∈ dir.l1 := fun table member =>
    (List.mem_filter.mp (kept ▸ member)).1
  cases found : dir.survivor with
  | none =>
    rw [survivor_eq_none] at found ⊢
    rw [kept, found, List.filter_nil]
  | some table =>
    have here : table ∈ dir'.l1 := by
      rw [kept]
      exact List.mem_filter.mpr ⟨survivor_mem found, live table (mem_liveL1.mpr found)⟩
    exact last_of_subset distinct (kept ▸ distinct.filter keep) inside found here

/-- **What is live stays live**, and nothing else becomes live. -/
theorem Sheds.live {dir dir' : Dir} (sheds : dir.Sheds dir') (distinct : DistinctIds dir.l1) :
    dir'.liveL0 = dir.liveL0 ∧ dir'.liveL1 = dir.liveL1 := by
  have survivor := sheds.survivor distinct
  obtain ⟨keep, kept, live⟩ := sheds.l0
  refine ⟨?_, by rw [liveL1, liveL1, survivor]⟩
  rw [liveL0, liveL0, survivor, kept]
  have same : newerThan dir.survivor (dir.l0.filter keep) = newerThan dir.survivor dir.l0 := by
    have newer : ∀ table ∈ newerThan dir.survivor dir.l0, keep table = true := by
      intro table member
      refine live table ?_
      rw [liveL0, List.mem_reverse, mem_sortById]
      exact member
    cases found : dir.survivor with
    | none =>
      rw [found] at newer
      exact List.filter_eq_self.mpr newer
    | some top =>
      rw [found] at newer
      show (dir.l0.filter keep).filter (fun other => decide (top.1 < other.1)) =
        dir.l0.filter fun other => decide (top.1 < other.1)
      rw [List.filter_filter]
      refine List.filter_congr fun table member => ?_
      by_cases above : top.1 < table.1
      · simp [above, newer table (List.mem_filter.mpr ⟨member, by simpa using above⟩)]
      · simp [above]
  rw [same]

end Dir

end Sastran

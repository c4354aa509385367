/-
Discovery, proved: what `discoverSstables` makes of a directory.

On a faultless device it returns the live tables, newest first, with readers that read them, and the
least id above all tables; afterwards the directory holds the live tables only
(`discoverSstables_succeeds`). Where there are no orphans it changes nothing but temporary files.
-/

import Sastran.Store.Directory

namespace Sastran

open Device SsTable

/-- The readers read the tables, in order. -/
def Loaded (hashes : Hashes) (entries : List SsTableEntry) (tables : List Table) : Prop :=
  List.Forall₂ (fun entry table => entry.id = table.1 ∧ entry.reader.Reads hashes table.2) entries tables

theorem Loaded.reverse {hashes : Hashes} {entries : List SsTableEntry} {tables : List Table}
    (loaded : Loaded hashes entries tables) : Loaded hashes entries.reverse tables.reverse :=
  List.forall₂_reverse_iff.mpr loaded

theorem Loaded.ids {hashes : Hashes} {entries : List SsTableEntry} {tables : List Table}
    (loaded : Loaded hashes entries tables) : entries.map SsTableEntry.id = tables.map Prod.fst := by
  refine List.forall₂_eq_eq_eq ▸ ?_
  rw [List.forall₂_map_left_iff, List.forall₂_map_right_iff]
  exact loaded.imp fun entry table read => read.1

/-- The names of tables that are read. -/
theorem Loaded.mem_names {hashes : Hashes} {entries : List SsTableEntry} {tables : List Table}
    (loaded : Loaded hashes entries tables) (level : Nat) (name : FileName) :
    name ∈ entries.map (fun entry => sstFilename level entry.id) ↔
      ∃ table ∈ tables, name = sstFilename level table.1 := by
  have ids := loaded.ids
  have names : entries.map (fun entry => sstFilename level entry.id) =
      tables.map fun table => sstFilename level table.1 := by
    have mapped := congrArg (List.map (sstFilename level)) ids
    rwa [List.map_map, List.map_map] at mapped
  rw [names, List.mem_map]
  exact ⟨fun ⟨table, member, same⟩ => ⟨table, member, same.symm⟩,
    fun ⟨table, member, same⟩ => ⟨table, member, same.symm⟩⟩

variable {hashes : Hashes} {dir : Dir} {world : World Fs}

/-! ### Reading the names -/

/-- The table a name of a level stands for. -/
def tableAt (level : Nat) (name : FileName) : Option (Nat × FileName) :=
  if extension name ≠ some SST_EXT then none
  else
    match parseSstFilename name with
    | none => none
    | some (level', id) => if level' = level then some (id, name) else none

/-- The id of a table's name. -/
def idAt (name : FileName) : Option Nat :=
  if extension name ≠ some SST_EXT then none else (parseSstFilename name).map Prod.snd

theorem Found.add_eq (found : Found) (name : FileName) :
    found.add name =
      ⟨found.l0 ++ (tableAt 0 name).toList, found.l1 ++ (tableAt 1 name).toList,
        (idAt name).toList.foldl topId found.maxId⟩ := by
  unfold Found.add tableAt idAt
  split
  · simp
  · cases parseSstFilename name with
    | none => simp
    | some parsed =>
      obtain ⟨level, id⟩ := parsed
      rcases level with _ | _ | level <;> simp

/-- One name of the directory, where temporary files are passed over. -/
def visit (found : Found) (name : FileName) : Found :=
  if extension name = some "tmp".toList then found else found.add name

theorem visit_eq (found : Found) (name : FileName) :
    visit found name =
      ⟨found.l0 ++ (tableAt 0 name).toList, found.l1 ++ (tableAt 1 name).toList,
        (idAt name).toList.foldl topId found.maxId⟩ := by
  unfold visit
  split
  · rename_i tmp
    have other : extension name ≠ some SST_EXT := by rw [tmp]; decide
    simp [tableAt, idAt, other]
  · exact Found.add_eq found name

theorem foldl_visit (names : List FileName) (found : Found) :
    names.foldl visit found =
      ⟨found.l0 ++ names.filterMap (tableAt 0), found.l1 ++ names.filterMap (tableAt 1),
        (names.filterMap idAt).foldl topId found.maxId⟩ := by
  induction names generalizing found with
  | nil => simp
  | cons first rest ih =>
    rw [List.foldl_cons, ih, visit_eq, List.filterMap_cons, List.filterMap_cons, List.filterMap_cons]
    cases tableAt 0 first <;> cases tableAt 1 first <;> cases idAt first <;> simp

/-- Nothing appears. -/
def Fs.Shrinks (before after : Fs) : Prop := ∀ name, before.content name = none → after.content name = none

/-- **Looking at the names** finds the tables and removes temporary files. -/
theorem visitPaths_succeeds (calm : world.Calm) (wf : world.now.Wf) :
    ∀ (names : List FileName) (found : Found),
      (∀ name ∈ names, extension name = some "tmp".toList → IsTmp name) →
      Succeeds (Prog.foldM visitPath found names) world fun result after =>
        result = names.foldl visit found ∧ Fs.Frame IsTmp world.now after.now ∧
        Fs.Shrinks world.now after.now ∧
        (∀ name ∈ names, IsTmp name → after.now.content name = none) ∧
        Passes (Fs.Frame IsTmp world.now) world after := by
  intro names found tmps
  induction names generalizing found world with
  | nil => exact Succeeds.pure ⟨rfl, Fs.Frame.refl wf, fun _ => id, nofun, Passes.refl _ world⟩
  | cons first rest ih =>
    have tmps' := fun name member => tmps name (List.mem_cons_of_mem first member)
    rw [List.foldl_cons]
    have step : Succeeds (visitPath found first) world fun result after =>
        result = visit found first ∧ Fs.Frame IsTmp world.now after.now ∧
        Fs.Shrinks world.now after.now ∧ (IsTmp first → after.now.content first = none) ∧
        Passes (Fs.Frame IsTmp world.now) world after := by
      unfold visitPath visit
      split
      · rename_i tmp
        have isTmp := tmps first (List.mem_cons_self ..) tmp
        refine Succeeds.bind ((Io.ignore_removeFile_frame calm wf first).mono fun _ after holds => ?_)
        obtain ⟨frame, gone, passes⟩ := holds
        have frame' := frame.mono fun name (same : name = first) => (same ▸ isTmp : IsTmp name)
        refine Succeeds.pure ⟨rfl, frame', fun name absent => ?_, fun _ => gone,
          passes.mono fun device same => same ▸ frame'⟩
        by_cases same : name = first
        · rw [same, gone]
        · rw [frame.content name same, absent]
      · rename_i other
        exact Succeeds.pure ⟨rfl, Fs.Frame.refl wf, fun _ => id,
          fun tmp => absurd tmp.extension other, Passes.refl _ world⟩
    refine Succeeds.bind (step.mono fun result after holds => ?_)
    obtain ⟨rfl, frame, shrinks, gone, passes⟩ := holds
    refine (ih (passes.calm calm) frame.wf (visit found first) tmps').mono fun result last holds => ?_
    obtain ⟨same, frame', shrinks', gone', passes'⟩ := holds
    refine ⟨same, frame.trans frame', fun name absent => shrinks' name (shrinks name absent),
      fun name member tmp => ?_, passes.trans (passes'.mono fun device held => frame.trans held)⟩
    rcases List.mem_cons.mp member with rfl | member
    · exact shrinks' _ (gone tmp)
    · exact gone' name member tmp

/-! ### The tables the names stand for -/

namespace Describes

theorem tmp_of_extension (described : Describes hashes world.now dir) {name : FileName}
    (member : name ∈ world.now.dir.keys) (tmp : extension name = some "tmp".toList) : IsTmp name := by
  cases described.known name ((Fs.mem_keys_iff described.wf).mp member) with
  | log same => rw [same, extension_wal] at tmp; exact absurd tmp (by decide)
  | table level table _ same => rw [same, extension_sst] at tmp; exact absurd tmp (by decide)
  | snapshot item _ same => rw [same, extension_snapshot] at tmp; exact absurd tmp (by decide)
  | tmp isTmp => exact isTmp

theorem tableAt_iff (described : Describes hashes world.now dir) {level : Nat} (low : level < 2)
    {name : FileName} {item : Nat × FileName} (present : name ∈ world.now.dir.keys) :
    tableAt level name = some item ↔
      ∃ table ∈ dir.level level, name = sstFilename level table.1 ∧ item = (table.1, name) := by
  constructor
  · intro found
    unfold tableAt at found
    split at found
    · cases found
    · rename_i sst
      simp only [ne_eq, not_not] at sst
      cases described.known name ((Fs.mem_keys_iff described.wf).mp present) with
      | log same => rw [same, extension_wal] at sst; exact absurd sst (by decide)
      | snapshot item _ same => rw [same, extension_snapshot] at sst; exact absurd sst (by decide)
      | tmp isTmp => rw [isTmp.extension] at sst; exact absurd sst (by decide)
      | table level' table member same =>
        have small := (described.table level' table member).1
        have low' := Dir.level_small member
        rw [same, parseSstFilename_sst (by omega) (by omega)] at found
        simp only at found
        split at found
        · rename_i sameLevel
          subst sameLevel
          cases found
          exact ⟨table, member, same, by rw [same]⟩
        · cases found
  · rintro ⟨table, member, same, rfl⟩
    have small := (described.table level table member).1
    unfold tableAt
    rw [same, extension_sst, if_neg (not_not.mpr rfl), parseSstFilename_sst (by omega) (by omega)]
    simp

/-- The names of a level's tables, with their ids. -/
def names (level : Nat) (tables : List Table) : List (Nat × FileName) :=
  tables.map fun table => (table.1, sstFilename level table.1)

theorem mem_names {level : Nat} {tables : List Table} {item : Nat × FileName} :
    item ∈ names level tables ↔ ∃ table ∈ tables, item = (table.1, sstFilename level table.1) := by
  simp [names, eq_comm]

theorem mem_filterMap_tableAt (described : Describes hashes world.now dir) {level : Nat}
    (low : level < 2) (item : Nat × FileName) :
    item ∈ world.now.dir.keys.filterMap (tableAt level) ↔ item ∈ names level (dir.level level) := by
  rw [List.mem_filterMap, mem_names]
  constructor
  · rintro ⟨name, present, found⟩
    obtain ⟨table, member, same, rfl⟩ := (described.tableAt_iff low present).mp found
    exact ⟨table, member, by rw [same]⟩
  · rintro ⟨table, member, rfl⟩
    obtain ⟨_, bytes, held, _⟩ := described.table level table member
    have present : sstFilename level table.1 ∈ world.now.dir.keys :=
      (Fs.mem_keys_iff described.wf).mpr (by rw [held]; exact nofun)
    exact ⟨_, present, (described.tableAt_iff low present).mpr ⟨table, member, rfl, rfl⟩⟩

theorem distinct_filterMap (described : Describes hashes world.now dir) {level : Nat}
    (low : level < 2) : DistinctIds (world.now.dir.keys.filterMap (tableAt level)) := by
  have nodup : world.now.dir.keys.Pairwise (· ≠ ·) :=
    (SortedMap.keys_ascending _).imp fun below => below.ne
  refine List.pairwise_filterMap.mpr ((List.Pairwise.and_mem.mp nodup).imp ?_)
  rintro name name' ⟨present, present', different⟩ item found item' found'
  obtain ⟨table, _, same, rfl⟩ := (described.tableAt_iff low present).mp found
  obtain ⟨table', _, same', rfl⟩ := (described.tableAt_iff low present').mp found'
  simp only
  intro sameId
  exact different (by rw [same, same', sameId])

/-- The files found at a level, some of them left out, are the level's tables in ascending order. -/
theorem sortById_found (described : Describes hashes world.now dir) {level : Nat} (low : level < 2)
    (keep : Nat → Bool) :
    sortById ((world.now.dir.keys.filterMap (tableAt level)).filter fun item => keep item.1) =
      names level (sortById ((dir.level level).filter fun table => keep table.1)) := by
  have mapped := sortById_map ((dir.level level).filter fun table => keep table.1)
    fun table : Table => sstFilename level table.1
  rw [names, ← mapped]
  have distinct : DistinctIds (((dir.level level).filter fun table => keep table.1).map
      fun table : Table => (table.1, sstFilename level table.1)) :=
    ((described.distinct level).filter _).map fun table => sstFilename level table.1
  refine sortById_eq ((described.distinct_filterMap low).filter _) (sortById_ascending distinct) ?_
  intro item
  rw [mem_sortById, List.mem_filter, described.mem_filterMap_tableAt low, mem_names]
  constructor
  · rintro ⟨⟨table, member, rfl⟩, kept⟩
    exact List.mem_map.mpr ⟨table, List.mem_filter.mpr ⟨member, by simpa using kept⟩, rfl⟩
  · intro listed
    obtain ⟨table, inside, rfl⟩ := List.mem_map.mp listed
    obtain ⟨member, kept⟩ := List.mem_filter.mp inside
    exact ⟨⟨table, member, rfl⟩, kept⟩

theorem isNext_found (described : Describes hashes world.now dir) :
    IsNext dir.ids (nextOf ((world.now.dir.keys.filterMap idAt).foldl topId none)) := by
  have next := isNext_foldl (world.now.dir.keys.filterMap idAt)
  have same : ∀ id, id ∈ world.now.dir.keys.filterMap idAt ↔ id ∈ dir.ids := by
    intro id
    have of_table : ∀ {level table}, table ∈ dir.level level →
        extension (sstFilename level table.1) = some SST_EXT ∧
        parseSstFilename (sstFilename level table.1) = some (level, table.1) := by
      intro level table member
      have small := (described.table level table member).1
      have low := Dir.level_small member
      exact ⟨extension_sst _ _, parseSstFilename_sst (by omega) (by omega)⟩
    have level_ids : ∀ level, level < 2 → ∀ table ∈ dir.level level,
        table.1 ∈ world.now.dir.keys.filterMap idAt := by
      intro level low table member
      obtain ⟨_, bytes, held, _⟩ := described.table level table member
      obtain ⟨sst, parsed⟩ := of_table member
      refine List.mem_filterMap.mpr ⟨sstFilename level table.1,
        (Fs.mem_keys_iff described.wf).mpr (by rw [held]; exact nofun), ?_⟩
      simp [idAt, sst, parsed]
    simp only [Dir.ids, List.mem_map, List.mem_append]
    constructor
    · intro listed
      obtain ⟨name, present, found⟩ := List.mem_filterMap.mp listed
      unfold idAt at found
      split at found
      · cases found
      · rename_i sst
        simp only [ne_eq, not_not] at sst
        cases described.known name ((Fs.mem_keys_iff described.wf).mp present) with
        | log same => rw [same, extension_wal] at sst; exact absurd sst (by decide)
        | snapshot item _ same => rw [same, extension_snapshot] at sst; exact absurd sst (by decide)
        | tmp isTmp => rw [isTmp.extension] at sst; exact absurd sst (by decide)
        | table level table member same =>
          rw [same, (of_table member).2] at found
          cases found
          rcases level with _ | _ | level
          · exact ⟨table, Or.inl member, rfl⟩
          · exact ⟨table, Or.inr member, rfl⟩
          · cases member
    · rintro ⟨table, member | member, rfl⟩
      · exact level_ids 0 Nat.zero_lt_two table member
      · exact level_ids 1 Nat.one_lt_two table member
  obtain ⟨above, reached⟩ := next
  refine ⟨fun id member => above id ((same id).mpr member), reached.imp_right ?_⟩
  rintro ⟨id, member, equal⟩
  exact ⟨id, (same id).mp member, equal⟩

/-! ### Live tables and orphans -/

/-- The L1 files found, sorted, and the one that survives. -/
theorem survivor_found (described : Describes hashes world.now dir) :
    (sortById (world.now.dir.keys.filterMap (tableAt 1))).getLast? =
      dir.survivor.map fun table => (table.1, sstFilename 1 table.1) := by
  have sorted := described.sortById_found Nat.one_lt_two fun _ => true
  rw [List.filter_true, List.filter_true] at sorted
  rw [sorted, names, List.getLast?_map]
  rfl

theorem reconciled_l1 (described : Describes hashes world.now dir) (l0 : List (Nat × FileName)) :
    (reconcile l0 (world.now.dir.keys.filterMap (tableAt 1))).l1 = names 1 dir.liveL1 := by
  simp only [reconcile, splitL1_eq, described.survivor_found, Dir.liveL1]
  cases dir.survivor <;> rfl

theorem reconciled_l0 (described : Describes hashes world.now dir) :
    (reconcile (world.now.dir.keys.filterMap (tableAt 0))
      (world.now.dir.keys.filterMap (tableAt 1))).l0.reverse = names 0 dir.liveL0 := by
  simp only [reconcile, splitL1_eq, splitL0_eq, described.survivor_found, Dir.liveL0]
  rw [names, List.map_reverse]
  congr 1
  have found := described.sortById_found Nat.zero_lt_two
  cases dir.survivor with
  | none => simpa [newerThan, names, Dir.level] using found fun _ => true
  | some table => simpa [newerThan, names, Dir.level] using found fun id => decide (table.1 < id)

/-- The L1 files found that are not live. -/
theorem mem_orphanL1 (described : Describes hashes world.now dir) (l0 : List (Nat × FileName))
    (item : Nat × FileName) :
    item ∈ (reconcile l0 (world.now.dir.keys.filterMap (tableAt 1))).orphanL1 ↔
      ∃ table ∈ dir.l1, table ∉ dir.liveL1 ∧ item = (table.1, sstFilename 1 table.1) := by
  have sorted := described.sortById_found Nat.one_lt_two fun _ => true
  rw [List.filter_true, List.filter_true] at sorted
  have ascending := sortById_ascending (described.distinct 1)
  simp only [reconcile, splitL1_eq, sorted, names, ← List.map_dropLast, Dir.liveL1, Dir.survivor,
    List.mem_map]
  change (∃ table ∈ (sortById dir.l1).dropLast, _) ↔ _
  have whole : ∀ table, table ∈ (sortById dir.l1).dropLast ↔
      table ∈ dir.l1 ∧ table ∉ (sortById dir.l1).getLast?.toList := by
    intro table
    rw [show table ∈ dir.l1 ↔ table ∈ sortById dir.l1 from mem_sortById.symm]
    change (sortById dir.l1).Pairwise _ at ascending
    cases last : (sortById dir.l1).getLast? with
    | none => simp [List.getLast?_eq_none_iff.mp last]
    | some table' =>
      have split : sortById dir.l1 = (sortById dir.l1).dropLast ++ [table'] :=
        (List.dropLast_append_getLast? table' (by simpa using last)).symm
      rw [split] at ascending
      have below := (List.pairwise_append.mp ascending).2.2
      constructor
      · intro member
        refine ⟨List.dropLast_subset _ member, fun same => ?_⟩
        have less := below table member table' (List.mem_singleton_self _)
        simp only [Option.toList_some, List.mem_singleton] at same
        rw [same] at less
        exact Nat.lt_irrefl _ less
      · rintro ⟨member, other⟩
        rw [split] at member
        rcases List.mem_append.mp member with member | member
        · exact member
        · exact absurd (by simpa using member) other
  constructor
  · rintro ⟨table, member, rfl⟩
    exact ⟨table, ((whole table).mp member).1, ((whole table).mp member).2, rfl⟩
  · rintro ⟨table, member, orphan, rfl⟩
    exact ⟨table, (whole table).mpr ⟨member, orphan⟩, rfl⟩

/-- The L0 files found that are not live. -/
theorem mem_orphanL0 (described : Describes hashes world.now dir) (item : Nat × FileName) :
    item ∈ (reconcile (world.now.dir.keys.filterMap (tableAt 0))
        (world.now.dir.keys.filterMap (tableAt 1))).orphanL0 ↔
      ∃ table ∈ dir.l0, table ∉ dir.liveL0 ∧ item = (table.1, sstFilename 0 table.1) := by
  simp only [reconcile, splitL1_eq, described.survivor_found]
  cases found : dir.survivor with
  | none =>
    simp only [Option.map_none, Option.toList_none, splitL0, List.not_mem_nil, false_iff]
    rintro ⟨table, member, orphan, -⟩
    exact orphan (Dir.mem_liveL0.mpr ⟨member, by rw [found]; intro _ same; cases same⟩)
  | some survivor =>
    simp only [Option.map_some, Option.toList_some, splitL0, List.partition_eq_filter_filter,
      List.mem_filter, described.mem_filterMap_tableAt Nat.zero_lt_two, mem_names,
      decide_eq_true_eq]
    have orphan : ∀ table ∈ dir.l0, table ∉ dir.liveL0 ↔ table.1 ≤ survivor.1 := by
      intro table member
      rw [Dir.mem_liveL0, found]
      simp [member]
    constructor
    · rintro ⟨⟨table, member, rfl⟩, low⟩
      exact ⟨table, member, (orphan table member).mpr low, rfl⟩
    · rintro ⟨table, member, dropped, rfl⟩
      exact ⟨⟨table, member, rfl⟩, (orphan table member).mp dropped⟩

end Describes

/-! ### The programs -/

/-- There are no temporary files. -/
def Fs.Tidy (fs : Fs) : Prop := ∀ name, IsTmp name → fs.content name = none

/-- No temporary file has come. -/
def Fs.Tidies (before after : Fs) : Prop :=
  ∀ name, IsTmp name → before.content name = none → after.content name = none

namespace Fs.Tidies

variable {first middle last : Fs}

theorem refl (fs : Fs) : Fs.Tidies fs fs := fun _ _ => id

theorem trans (one : Fs.Tidies first middle) (two : Fs.Tidies middle last) : Fs.Tidies first last :=
  fun name tmp absent => two name tmp (one name tmp absent)

/-- The temporary files that are touched are gone. -/
theorem of_frame {touched : FileName → Prop} (frame : Fs.Frame touched first last)
    (gone : ∀ name, IsTmp name → touched name → last.content name = none) : Fs.Tidies first last := by
  intro name tmp absent
  by_cases inside : touched name
  · exact gone name tmp inside
  · rw [frame.content name inside, absent]

end Fs.Tidies

theorem Fs.Tidy.tidied {fs fs' : Fs} (tidy : fs.Tidy) (tidies : Fs.Tidies fs fs') : fs'.Tidy :=
  fun name tmp => tidies name tmp (tidy name tmp)

/-- Changing files that are not temporary leaves a tidy directory tidy. -/
theorem Fs.Tidy.frame {fs fs' : Fs} {touched : FileName → Prop} (tidy : fs.Tidy)
    (frame : Fs.Frame touched fs fs')
    (kept : ∀ name, IsTmp name → touched name → fs'.content name = none) : fs'.Tidy :=
  tidy.tidied (.of_frame frame kept)

/-- A name of a table. -/
def IsSst (name : FileName) : Prop := ∃ level id, name = sstFilename level id

theorem IsSst.not_tmp {name : FileName} (sst : IsSst name) : ¬ IsTmp name := by
  obtain ⟨level, id, rfl⟩ := sst
  exact sst_not_tmp level id

/-- **Orphans are removed** one after the other. -/
theorem removeOrphans_succeeds {level : Nat} (low : level < 2) :
    ∀ (orphans : List (Nat × FileName)) {world : World Fs} {dir : Dir}, world.Calm →
      Describes hashes world.now dir →
      (∀ item ∈ orphans, item.1 + 1 < u64Bound ∧ item.2 = sstFilename level item.1) →
      Succeeds (removeOrphans orphans) world fun _ after =>
        Describes hashes after.now (dir.modifyLevel
          (List.filter fun table => table.1 ∉ orphans.map Prod.fst) level) ∧
        Fs.Frame IsSst world.now after.now ∧
        Passes (fun fs => ∃ gone : List Nat, (∀ id ∈ gone, id ∈ orphans.map Prod.fst) ∧
          Describes hashes fs (dir.modifyLevel (List.filter fun table => table.1 ∉ gone) level))
          world after := by
  intro orphans
  induction orphans with
  | nil =>
    intro world dir calm described _
    refine Succeeds.pure ⟨?_, Fs.Frame.refl described.wf, Passes.refl _ world⟩
    have all : (List.filter fun table : Table => table.1 ∉ ([] : List (Nat × FileName)).map Prod.fst) =
        fun tables => tables := by
      funext tables
      simp
    rw [all, Dir.modifyLevel_id]
    exact described
  | cons first rest ih =>
    intro world dir calm described fit
    obtain ⟨small, name⟩ := fit first (List.mem_cons_self ..)
    refine Succeeds.bind ((Io.ignore_removeFile_frame calm described.wf first.2).mono
      fun _ after holds => ?_)
    obtain ⟨frame, gone, passes⟩ := holds
    rw [name] at frame gone
    have dropped := described.dropTable low small frame gone
    have again : ∀ ids : List Nat, (fun tables : List Table => (tables.filter fun table =>
        table.1 ≠ first.1).filter fun table => table.1 ∉ ids) =
        List.filter fun table => table.1 ∉ first.1 :: ids := by
      intro ids
      funext tables
      rw [List.filter_filter]
      refine List.filter_congr fun table _ => ?_
      rw [← Bool.decide_and]
      simp [and_comm]
    refine (ih (passes.calm calm) dropped fun item member =>
      fit item (List.mem_cons_of_mem _ member)).mono fun _ last holds => ?_
    obtain ⟨described', frame', passes'⟩ := holds
    rw [Dir.modifyLevel_modifyLevel, again] at described'
    refine ⟨described', (frame.mono fun _ same => ⟨level, first.1, same⟩).trans frame', ?_⟩
    refine (passes.mono fun fs same => ?_).trans (passes'.mono fun fs crash => ?_)
    · refine ⟨[first.1], fun id member => ?_, ?_⟩
      · rw [List.mem_singleton.mp member]
        exact List.mem_cons_self ..
      · subst same
        simpa using dropped
    · obtain ⟨ids, listed, crashed⟩ := crash
      rw [Dir.modifyLevel_modifyLevel, again] at crashed
      refine ⟨first.1 :: ids, fun id member => ?_, crashed⟩
      rcases List.mem_cons.mp member with rfl | member
      · exact List.mem_cons_self ..
      · exact List.mem_cons_of_mem _ (listed id member)

/-- Opening the files of tables. -/
theorem openTables_succeeds {D : Type} [LinearOrder D] {env : Env D} (calm : world.Calm)
    (level : Nat) : ∀ {tables : List Table},
      (∀ table ∈ tables, ∃ bytes, world.now.content (sstFilename level table.1) = some bytes ∧
        IsTable env.hashes bytes table.2) →
      Succeeds (openTables env (Describes.names level tables)) world fun entries after =>
        Loaded env.hashes entries tables ∧ Quiet world after := by
  intro tables
  induction tables generalizing world with
  | nil => exact fun _ => Succeeds.pure ⟨List.Forall₂.nil, Quiet.refl world⟩
  | cons first rest ih =>
    intro held
    obtain ⟨bytes, here, isTable⟩ := held first (List.mem_cons_self ..)
    refine Succeeds.bind (Succeeds.bind ((SsTableReader.open_succeeds calm here isTable).mono
      fun reader after holds => ?_))
    obtain ⟨reads, quiet⟩ := holds
    refine Succeeds.pure (Succeeds.bind ((ih (quiet.calm calm) fun table member => ?_).mono
      fun entries last holds => ?_))
    · rw [quiet.now]
      exact held table (List.mem_cons_of_mem _ member)
    · exact Succeeds.pure ⟨List.Forall₂.cons ⟨rfl, reads⟩ holds.1, quiet.trans holds.2⟩

/-- What is left once the orphans of both levels are dropped. -/
theorem Describes.dropOrphans {fs : Fs} {orphans0 orphans1 : List (Nat × FileName)}
    (described : Describes hashes fs
      ((dir.modifyLevel (List.filter fun table => table.1 ∉ orphans1.map Prod.fst) 1).modifyLevel
        (List.filter fun table => table.1 ∉ orphans0.map Prod.fst) 0))
    (distinct : ∀ level, DistinctIds (dir.level level))
    (dropped0 : ∀ table ∈ dir.l0, table ∉ dir.liveL0 ↔ table.1 ∈ orphans0.map Prod.fst)
    (dropped1 : ∀ table ∈ dir.l1, table ∉ dir.liveL1 ↔ table.1 ∈ orphans1.map Prod.fst) :
    Describes hashes fs dir.live := by
  have kept : ∀ {orphans : List (Nat × FileName)} {tables live : List Table},
      (∀ table ∈ live, table ∈ tables) →
      (∀ table ∈ tables, table ∉ live ↔ table.1 ∈ orphans.map Prod.fst) → ∀ table,
      table ∈ live ↔ table ∈ tables.filter fun table => table.1 ∉ orphans.map Prod.fst := by
    intro orphans tables live inside dropped table
    rw [List.mem_filter, decide_eq_true_eq]
    constructor
    · intro member
      exact ⟨inside table member, fun orphan =>
        (dropped table (inside table member)).mpr orphan member⟩
    · rintro ⟨member, stays⟩
      by_contra orphan
      exact stays ((dropped table member).mp orphan)
  refine described.reorder ?_ ?_ rfl rfl
  · intro level table
    rcases level with _ | _ | level
    · exact kept (fun table member => (Dir.mem_liveL0.mp member).1) dropped0 table
    · exact kept (fun table member => Dir.survivor_mem (Dir.mem_liveL1.mp member)) dropped1 table
    · exact Iff.rfl
  · intro level
    rcases level with _ | _ | level
    · exact (Dir.liveL0_descending (distinct 0)).imp fun above => above.ne'
    · show DistinctIds dir.liveL1
      rw [Dir.liveL1]
      cases dir.survivor with
      | none => exact List.Pairwise.nil
      | some table => exact List.pairwise_singleton _ _
    · exact List.Pairwise.nil

/-- Ids of the orphans of a level, from their names. -/
theorem orphan_ids {level : Nat} {tables live : List Table} {orphans : List (Nat × FileName)}
    (distinct : DistinctIds tables)
    (orphan : ∀ item, item ∈ orphans ↔
      ∃ table ∈ tables, table ∉ live ∧ item = (table.1, sstFilename level table.1)) :
    ∀ table ∈ tables, table ∉ live ↔ table.1 ∈ orphans.map Prod.fst := by
  intro table member
  rw [List.mem_map]
  constructor
  · intro dropped
    exact ⟨_, (orphan _).mpr ⟨table, member, dropped, rfl⟩, rfl⟩
  · rintro ⟨item, listed, sameId⟩
    obtain ⟨other, member', dropped, rfl⟩ := (orphan item).mp listed
    have same : other = table := by
      obtain ⟨id, map⟩ := table
      obtain ⟨id', map'⟩ := other
      simp only at sameId
      subst sameId
      rw [distinct.eq member member']
    exact same ▸ dropped

/-- A directory without some of its orphans. -/
theorem Dir.sheds_orphans {dir : Dir} {orphans0 orphans1 gone0 gone1 : List Nat}
    (inside0 : ∀ id ∈ gone0, id ∈ orphans0) (inside1 : ∀ id ∈ gone1, id ∈ orphans1)
    (dropped0 : ∀ table ∈ dir.l0, table ∉ dir.liveL0 ↔ table.1 ∈ orphans0)
    (dropped1 : ∀ table ∈ dir.l1, table ∉ dir.liveL1 ↔ table.1 ∈ orphans1) :
    dir.Sheds ((dir.modifyLevel (List.filter fun table => table.1 ∉ gone1) 1).modifyLevel
      (List.filter fun table => table.1 ∉ gone0) 0) := by
  refine ⟨⟨_, rfl, fun table live => ?_⟩, ⟨_, rfl, fun table live => ?_⟩, rfl, rfl⟩
  · have member := (Dir.mem_liveL0.mp live).1
    rw [decide_eq_true_eq]
    exact fun gone => (dropped0 table member).mpr (inside0 _ gone) live
  · have member := Dir.survivor_mem (Dir.mem_liveL1.mp live)
    rw [decide_eq_true_eq]
    exact fun gone => (dropped1 table member).mpr (inside1 _ gone) live

/-- **Discovery**: the live tables, newest first, and the next id; only they are left, and no temporary
files. On the way orphans disappear. -/
theorem discoverSstables_succeeds {D : Type} [LinearOrder D] {env : Env D} (calm : world.Calm)
    (described : Describes env.hashes world.now dir) :
    Succeeds (discoverSstables env) world fun result after =>
      Loaded env.hashes result.1.l0 dir.liveL0 ∧ Loaded env.hashes result.1.l1 dir.liveL1 ∧
      IsNext dir.ids result.2 ∧ Describes env.hashes after.now dir.live ∧ after.now.Tidy ∧
      Passes (fun fs => ∃ dir', dir.Sheds dir' ∧ Describes env.hashes fs dir') world after := by
  refine Succeeds.bind ((Succeeds.of_ensures (Io.listDir_succeeds calm) Io.listDir_ensures).mono
    fun paths listed holds => ?_)
  obtain ⟨rfl, quiet⟩ := holds
  have calm' := quiet.calm calm
  have described' : Describes env.hashes listed.now dir := quiet.now ▸ described
  refine Succeeds.bind ((visitPaths_succeeds calm' described'.wf _ ⟨[], [], none⟩ ?_).mono
    fun found visited holds => ?_)
  · exact fun name member => described.tmp_of_extension member
  obtain ⟨rfl, frame, shrinks, gone, passes⟩ := holds
  have calm'' := passes.calm calm'
  have described'' := described'.tmp frame
  have tidy : visited.now.Tidy := by
    intro name tmp
    by_cases present : name ∈ world.now.dir.keys
    · exact gone name present tmp
    · refine shrinks name ?_
      rw [quiet.now]
      rw [Fs.mem_keys_iff described.wf, not_not] at present
      exact present
  rw [foldl_visit]
  simp only [List.nil_append]
  set live := reconcile (world.now.dir.keys.filterMap (tableAt 0))
    (world.now.dir.keys.filterMap (tableAt 1)) with liveDef
  have orphan1 := described.mem_orphanL1 (world.now.dir.keys.filterMap (tableAt 0))
  have orphan0 := described.mem_orphanL0
  rw [← liveDef] at orphan0 orphan1
  -- The orphans of L1 go first.
  refine Succeeds.bind ((removeOrphans_succeeds Nat.one_lt_two live.orphanL1 calm'' described''
    fun item member => ?_).mono fun _ without1 holds => ?_)
  · obtain ⟨table, inside, _, rfl⟩ := (orphan1 item).mp member
    exact ⟨(described.table 1 table inside).1, rfl⟩
  obtain ⟨described₁, frame₁, passes₁⟩ := holds
  refine Succeeds.bind ((removeOrphans_succeeds Nat.zero_lt_two live.orphanL0 (passes₁.calm calm'')
    described₁ fun item member => ?_).mono fun _ without0 holds => ?_)
  · obtain ⟨table, inside, _, rfl⟩ := (orphan0 item).mp member
    exact ⟨(described.table 0 table inside).1, rfl⟩
  obtain ⟨described₀, frame₀, passes₀⟩ := holds
  have dropped0 := orphan_ids (described.distinct 0) orphan0
  have dropped1 := orphan_ids (described.distinct 1) orphan1
  have describedLive := described₀.dropOrphans described.distinct dropped0 dropped1
  have tidy' : without0.now.Tidy := tidy.frame (frame₁.trans frame₀) fun name tmp sst =>
    absurd tmp sst.not_tmp
  -- What is left is opened.
  have ascending : live.l0 = Describes.names 0 dir.liveL0.reverse := by
    rw [Describes.names, List.map_reverse, ← List.reverse_eq_iff]
    exact described.reconciled_l0
  have held : ∀ {level} (now : World Fs), now.now = without0.now → ∀ table ∈ dir.live.level level,
      ∃ bytes, now.now.content (sstFilename level table.1) = some bytes ∧
        IsTable env.hashes bytes table.2 := by
    intro level now same table member
    rw [same]
    exact (describedLive.table level table member).2
  rw [ascending, described.reconciled_l1]
  refine Succeeds.bind ((openTables_succeeds (passes₀.calm (passes₁.calm calm'')) 0
    fun table member => held without0 rfl table (List.mem_reverse.mp member)).mono
    fun l0 opened0 holds => ?_)
  obtain ⟨loaded0, quiet0⟩ := holds
  refine Succeeds.bind ((openTables_succeeds
    (quiet0.calm (passes₀.calm (passes₁.calm calm''))) 1
    fun table member => held opened0 quiet0.now table member).mono fun l1 opened1 holds => ?_)
  obtain ⟨loaded1, quiet1⟩ := holds
  have isNext := described.isNext_found
  have fits : nextOf ((world.now.dir.keys.filterMap idAt).foldl topId none) < u64Bound :=
    Dir.next_small described isNext
  rw [if_pos fits]
  have reversed := loaded0.reverse
  rw [List.reverse_reverse] at reversed
  have quiet' := quiet0.trans quiet1
  refine Succeeds.bind (Succeeds.pure (Succeeds.pure ⟨reversed, loaded1, isNext, ?_, ?_, ?_⟩))
  · rw [quiet'.now]
    exact describedLive
  · rw [quiet'.now]
    exact tidy'
  · have all0 : ∀ id ∈ live.orphanL0.map Prod.fst, id ∈ live.orphanL0.map Prod.fst := fun _ => id
    have all1 : ∀ id ∈ live.orphanL1.map Prod.fst, id ∈ live.orphanL1.map Prod.fst := fun _ => id
    refine (Passes.of_quiet quiet ⟨dir, Dir.Sheds.refl dir, described⟩).trans ((passes.mono
      fun fs frame => ⟨dir, Dir.Sheds.refl dir, described'.tmp frame⟩).trans ((passes₁.mono
      fun fs crash => ?_).trans ((passes₀.mono fun fs crash => ?_).trans
        (Passes.of_quiet quiet' ?_))))
    · obtain ⟨gone, inside, crashed⟩ := crash
      have none0 : ∀ id ∈ ([] : List Nat), id ∈ live.orphanL0.map Prod.fst := nofun
      have sheds := Dir.sheds_orphans none0 inside dropped0 dropped1
      have none : (List.filter fun table : Table => table.1 ∉ ([] : List Nat)) = fun tables => tables := by
        funext tables
        simp
      rw [none, Dir.modifyLevel_id] at sheds
      exact ⟨_, sheds, crashed⟩
    · obtain ⟨gone, inside, crashed⟩ := crash
      exact ⟨_, Dir.sheds_orphans inside all1 dropped0 dropped1, crashed⟩
    · exact ⟨_, Dir.sheds_orphans all0 all1 dropped0 dropped1, described₀⟩

end Sastran

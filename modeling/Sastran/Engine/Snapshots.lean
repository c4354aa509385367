/-
Snapshots on disk: which one is found, and what writing one leaves.

The newest snapshot is the one with the highest id. Finding it removes the others
(`discoverLatestSnapshot_succeeds`); writing one adds it in one step and removes the others
(`installSnapshot_ensures`, `cleanSnapshots_ensures`). On the way older snapshots disappear one by one
(`Dir.Thins`).
-/

import Sastran.Engine.Open

namespace Sastran

open Device SsTable

variable {hashes : Hashes} {fs : Fs} {dir : Dir} {world : World Fs}

/-- A name of a snapshot. -/
def IsSnapshot (name : FileName) : Prop := ∃ id, name = snapshotFilename id

theorem IsSnapshot.not_tmp {name : FileName} (snapshot : IsSnapshot name) : ¬ IsTmp name := by
  obtain ⟨id, rfl⟩ := snapshot
  exact snapshot_not_tmp id

namespace Dir

/-- The snapshot with the highest id. -/
def latest (dir : Dir) : Option (Nat × Bytes) := (sortById dir.snapshots).getLast?

theorem latest_mem {item : Nat × Bytes} (found : dir.latest = some item) : item ∈ dir.snapshots :=
  mem_sortById.mp (List.mem_of_getLast? found)

theorem latest_eq_none : dir.latest = none ↔ dir.snapshots = [] := by
  rw [latest, List.getLast?_eq_none_iff, ← List.length_eq_zero_iff, length_sortById,
    List.length_eq_zero_iff]

/-- The directory without the snapshots of these ids. -/
def without (dir : Dir) (gone : List Nat) : Dir :=
  { dir with snapshots := dir.snapshots.filter fun item => item.1 ∉ gone }

theorem without_nil (dir : Dir) : dir.without [] = dir := by
  simp [without]

theorem without_cons (dir : Dir) (id : Nat) (gone : List Nat) :
    ({ dir with snapshots := dir.snapshots.filter fun item => item.1 ≠ id } : Dir).without gone =
      dir.without (id :: gone) := by
  unfold without
  rw [List.filter_filter]
  congr 1
  refine List.filter_congr fun item _ => ?_
  rw [← Bool.decide_and]
  simp [and_comm]

/-- Some snapshots are gone, and one to keep is still there. -/
structure Thins (keep : Option (Nat × Bytes)) (dir dir' : Dir) : Prop where
  rest : dir' = { dir with snapshots := dir'.snapshots }
  inside : ∀ item ∈ dir'.snapshots, item ∈ dir.snapshots
  kept : ∀ item, keep = some item → item ∈ dir'.snapshots

theorem Thins.without {keep : Option (Nat × Bytes)} {gone : List Nat}
    (present : ∀ item, keep = some item → item ∈ dir.snapshots)
    (spared : ∀ item, keep = some item → item.1 ∉ gone) : Thins keep dir (dir.without gone) :=
  ⟨rfl, fun _ member => (List.mem_filter.mp member).1, fun item kept =>
    List.mem_filter.mpr ⟨present item kept, decide_eq_true (spared item kept)⟩⟩

theorem Thins.refl {keep : Option (Nat × Bytes)}
    (present : ∀ item, keep = some item → item ∈ dir.snapshots) : Thins keep dir dir :=
  ⟨rfl, fun _ => id, present⟩

end Dir

/-- The order in which snapshots are listed does not matter. -/
theorem Describes.reorderSnapshots (described : Describes hashes fs dir)
    (snapshots : List (Nat × Bytes)) (same : ∀ item, item ∈ snapshots ↔ item ∈ dir.snapshots)
    (distinct : DistinctIds snapshots) : Describes hashes fs { dir with snapshots := snapshots } where
  wf := described.wf
  distinct := fun level => by rw [Dir.level_snapshots]; exact described.distinct level
  table := fun level table member => by
    rw [Dir.level_snapshots] at member
    exact described.table level table member
  log := described.log
  distinctSnapshots := distinct
  snapshot := fun item member => described.snapshot item ((same item).mp member)
  known := by
    intro name present
    cases described.known name present with
    | log same => exact Known.log same
    | table level table member same' =>
      exact Known.table level table (by rw [Dir.level_snapshots]; exact member) same'
    | snapshot item member same' => exact Known.snapshot item ((same item).mpr member) same'
    | tmp isTmp => exact Known.tmp isTmp

/-! ### Removing snapshots -/

/-- **Snapshots are removed** one after the other, by programs that each remove one or none. -/
theorem removeEach_succeeds {β : Type} (body : β → IoM Unit) (target : β → Option Nat) :
    ∀ (items : List β) {world : World Fs} {dir : Dir},
      (∀ item ∈ items, ∀ id, target item = some id →
        id < u64Bound ∧ body item = ignore (Io.removeFile (snapshotFilename id))) →
      (∀ item ∈ items, target item = none → body item = pure ()) →
      world.Calm → Describes hashes world.now dir →
      Succeeds (Prog.forEach body items) world fun _ after =>
        Describes hashes after.now (dir.without (items.filterMap target)) ∧
        Fs.Frame IsSnapshot world.now after.now ∧
        Passes (fun fs => ∃ gone : List Nat, (∀ id ∈ gone, id ∈ items.filterMap target) ∧
          Describes hashes fs (dir.without gone)) world after := by
  intro items
  induction items with
  | nil =>
    intro world dir _ _ _ described
    refine Succeeds.pure ⟨?_, Fs.Frame.refl described.wf, Passes.refl _ world⟩
    rw [List.filterMap_nil, Dir.without_nil]
    exact described
  | cons first rest ih =>
    intro world dir removes skips calm described
    have removes' := fun item member => removes item (List.mem_cons_of_mem first member)
    have skips' := fun item member => skips item (List.mem_cons_of_mem first member)
    cases isTarget : target first with
    | none =>
      rw [List.filterMap_cons_none isTarget]
      show Succeeds (body first >>= fun _ => Prog.forEach body rest) world _
      rw [skips first (List.mem_cons_self ..) isTarget]
      exact Succeeds.bind (Succeeds.pure (ih removes' skips' calm described))
    | some id =>
      rw [List.filterMap_cons_some isTarget]
      obtain ⟨small, same⟩ := removes first (List.mem_cons_self ..) id isTarget
      show Succeeds (body first >>= fun _ => Prog.forEach body rest) world _
      rw [same]
      refine Succeeds.bind ((Io.ignore_removeFile_frame calm described.wf _).mono fun _ after holds => ?_)
      obtain ⟨frame, gone, passes⟩ := holds
      have dropped := described.dropSnapshot small frame gone
      refine (ih removes' skips' (passes.calm calm) dropped).mono fun _ last holds => ?_
      obtain ⟨described', frame', passes'⟩ := holds
      rw [Dir.without_cons] at described'
      refine ⟨described', (frame.mono fun _ same => ⟨id, same⟩).trans frame', ?_⟩
      refine (passes.mono fun fs same => ?_).trans (passes'.mono fun fs crash => ?_)
      · refine ⟨[id], fun other member => ?_, ?_⟩
        · rw [List.mem_singleton.mp member]
          exact List.mem_cons_self ..
        · rw [← Dir.without_cons, Dir.without_nil, same]
          exact dropped
      · obtain ⟨ids, listed, crashed⟩ := crash
        rw [Dir.without_cons] at crashed
        refine ⟨id :: ids, fun other member => ?_, crashed⟩
        rcases List.mem_cons.mp member with rfl | member
        · exact List.mem_cons_self ..
        · exact List.mem_cons_of_mem _ (listed other member)

/-! ### Finding the newest snapshot -/

/-- The names of snapshots, with their ids. -/
theorem sortById_snapshots (described : Describes hashes world.now dir) :
    sortById (world.now.dir.keys.filterMap fun path =>
        (parseSnapshotFilename path).map fun id => (id, path)) =
      (sortById dir.snapshots).map fun item => (item.1, snapshotFilename item.1) := by
  have named : ∀ {name : FileName}, name ∈ world.now.dir.keys → ∀ item : Nat × FileName,
      ((parseSnapshotFilename name).map fun id => (id, name)) = some item ↔
        ∃ snapshot ∈ dir.snapshots, name = snapshotFilename snapshot.1 ∧ item = (snapshot.1, name) := by
    intro name present item
    constructor
    · intro found
      obtain ⟨id, parsed, rfl⟩ := Option.map_eq_some_iff.mp found
      cases described.known name ((Fs.mem_keys_iff described.wf).mp present) with
      | log same => rw [same, parseSnapshotFilename_wal] at parsed; cases parsed
      | table level table member same =>
        rw [same, parseSnapshotFilename_sst] at parsed
        cases parsed
      | snapshot snapshot member same =>
        rw [same, parseSnapshotFilename_snapshot (described.snapshot snapshot member).1] at parsed
        cases parsed
        exact ⟨snapshot, member, same, rfl⟩
      | tmp isTmp => rw [isTmp.not_snapshot] at parsed; cases parsed
    · rintro ⟨snapshot, member, rfl, rfl⟩
      rw [parseSnapshotFilename_snapshot (described.snapshot snapshot member).1]
      rfl
  have mapped := sortById_map dir.snapshots fun item => snapshotFilename item.1
  rw [← mapped]
  have distinct : DistinctIds (dir.snapshots.map fun item => (item.1, snapshotFilename item.1)) :=
    described.distinctSnapshots.map fun item => snapshotFilename item.1
  refine sortById_eq ?_ (sortById_ascending distinct) fun item => ?_
  · have nodup : world.now.dir.keys.Pairwise (· ≠ ·) :=
      (SortedMap.keys_ascending _).imp fun below => below.ne
    refine List.pairwise_filterMap.mpr ((List.Pairwise.and_mem.mp nodup).imp ?_)
    rintro name name' ⟨present, present', different⟩ item found item' found' sameId
    obtain ⟨snapshot, _, same, rfl⟩ := (named present item).mp found
    obtain ⟨snapshot', _, same', rfl⟩ := (named present' item').mp found'
    simp only at sameId
    exact different (by rw [same, same', sameId])
  · rw [mem_sortById, List.mem_filterMap, List.mem_map]
    constructor
    · rintro ⟨name, present, found⟩
      obtain ⟨snapshot, member, same, rfl⟩ := (named present item).mp found
      exact ⟨snapshot, member, by rw [same]⟩
    · rintro ⟨snapshot, member, rfl⟩
      have present : snapshotFilename snapshot.1 ∈ world.now.dir.keys :=
        (Fs.mem_keys_iff described.wf).mpr
          (by rw [(described.snapshot snapshot member).2]; exact Option.some_ne_none _)
      exact ⟨_, present, (named present _).mpr ⟨snapshot, member, rfl, rfl⟩⟩

/-- **The newest snapshot is found**, and the others are removed. -/
theorem discoverLatestSnapshot_succeeds (calm : world.Calm) (described : Describes hashes world.now dir) :
    Succeeds discoverLatestSnapshot world fun result after =>
      result = dir.latest.map (fun item => snapshotFilename item.1) ∧
      Describes hashes after.now { dir with snapshots := dir.latest.toList } ∧
      Fs.Frame IsSnapshot world.now after.now ∧
      Passes (fun fs => ∃ dir', dir.Thins dir.latest dir' ∧ Describes hashes fs dir') world after := by
  refine Succeeds.bind ((Succeeds.of_ensures (Io.listDir_succeeds calm) Io.listDir_ensures).mono
    fun paths listed holds => ?_)
  obtain ⟨rfl, quiet⟩ := holds
  have here : Dir.Thins dir.latest dir dir := Dir.Thins.refl fun item => Dir.latest_mem
  rw [sortById_snapshots described]
  simp only [List.getLast?_map]
  rw [← Dir.latest]
  cases found : dir.latest with
  | none =>
    have empty := Dir.latest_eq_none.mp found
    refine Succeeds.pure ⟨rfl, ?_, ?_, Passes.of_quiet quiet ⟨dir, found ▸ here, described⟩⟩
    · rw [quiet.now, Option.toList_none, ← empty]
      exact described
    · rw [quiet.now]
      exact Fs.Frame.refl described.wf
  | some latest =>
    rw [Option.map_some]
    have ascending := sortById_ascending described.distinctSnapshots
    have whole : sortById dir.snapshots = (sortById dir.snapshots).dropLast ++ [latest] :=
      (List.dropLast_append_getLast? latest (by simpa [Dir.latest] using found)).symm
    obtain ⟨_, _, below⟩ := List.pairwise_append.mp (whole ▸ ascending)
    set older := (sortById dir.snapshots).dropLast with olderDef
    have ids : ((sortById dir.snapshots).map fun item =>
        (item.1, snapshotFilename item.1)).dropLast.filterMap (fun orphan => some orphan.1) =
        older.map Prod.fst := by
      rw [← List.map_dropLast, ← olderDef, List.filterMap_map, ← List.filterMap_eq_map]
      rfl
    have spared : ∀ item, some latest = some item → item.1 ∉ older.map Prod.fst := by
      intro item same listed
      obtain ⟨other, member, sameId⟩ := List.mem_map.mp listed
      obtain rfl := Option.some.inj same
      exact absurd (below other member latest (List.mem_singleton_self _)) (by rw [sameId]; exact lt_irrefl _)
    refine Succeeds.bind ((removeEach_succeeds (fun orphan : Nat × FileName =>
      ignore (Io.removeFile orphan.2)) (fun orphan => some orphan.1) _ ?_ nofun (quiet.calm calm)
      (quiet.now ▸ described : Describes hashes listed.now dir)).mono fun _ after holds => ?_)
    · intro item member id same
      obtain rfl := Option.some.inj same
      obtain ⟨snapshot, inside, rfl⟩ := List.mem_map.mp (List.dropLast_subset _ member)
      exact ⟨(described.snapshot snapshot (mem_sortById.mp inside)).1, rfl⟩
    · obtain ⟨described', frame, passes⟩ := holds
      rw [ids] at described' passes
      refine Succeeds.pure ⟨rfl, ?_, quiet.now ▸ frame, ?_⟩
      · refine described'.reorderSnapshots [latest] (fun item => ?_)
          (List.pairwise_singleton _ _)
        rw [List.mem_singleton, Dir.without, List.mem_filter, decide_eq_true_eq, ← mem_sortById, whole,
          List.mem_append, List.mem_singleton]
        constructor
        · rintro rfl
          exact ⟨Or.inr rfl, spared _ rfl⟩
        · rintro ⟨member | same, kept⟩
          · exact absurd (List.mem_map_of_mem member) kept
          · exact same
      · refine (Passes.of_quiet quiet ⟨dir, found ▸ here, described⟩).trans (passes.mono fun fs crash => ?_)
        obtain ⟨gone, listed, crashed⟩ := crash
        refine ⟨_, Dir.Thins.without (fun item same => ?_) fun item same inGone => ?_, crashed⟩
        · exact Dir.latest_mem (found.trans same)
        · exact spared item same (listed _ inGone)

/-! ### Writing a snapshot -/

/-- The directory with a snapshot; one of the same id is replaced. -/
def Dir.push (dir : Dir) (snapshot : Nat × Bytes) : Dir :=
  { dir with snapshots := snapshot :: dir.snapshots.filter fun item => item.1 ≠ snapshot.1 }

/-- **A snapshot appears in one step.** -/
theorem installSnapshot_ensures (described : Describes hashes world.now dir) {id : Nat}
    (unsnapped : world.now.content (tmpName (snapshotFilename id)) = none) (small : id < u64Bound)
    (bytes : Bytes) :
    Ensures (Engine.installSnapshot id bytes) world fun _ after =>
      Describes hashes after.now (dir.push (id, bytes)) ∧ Fs.Tidies world.now after.now ∧
      Fs.Frame (fun name => IsTmp name ∨ IsSnapshot name) world.now after.now ∧
      Passes (fun fs => Describes hashes fs dir ∨ Describes hashes fs (dir.push (id, bytes)))
        world after := by
  have tmp : IsTmp (tmpName (snapshotFilename id)) := Or.inr ⟨id, rfl⟩
  have onlyTmp : ∀ name, name = tmpName (snapshotFilename id) → IsTmp name := fun _ same => same ▸ tmp
  refine Ensures.bind ((Io.openAppend_frame described.wf _).mono fun writer created holds => ?_)
  obtain ⟨frame, here, linked, passes⟩ := holds
  rw [unsnapped, Option.getD_none] at here
  refine Ensures.bind ((FileAppend.append_frame frame.wf linked here bytes).mono fun _ appended holds => ?_)
  obtain ⟨frame', held, _, _, passes'⟩ := holds
  refine Ensures.bind (FileAppend.sync_ensures.mono fun _ synced quiet => ?_)
  have frame'' : Fs.Frame (· = tmpName (snapshotFilename id)) world.now synced.now := by
    rw [quiet.now]
    exact frame.trans frame'
  refine Ensures.bind ((Io.rename_frame frame''.wf (tmpName_ne _)).mono fun _ renamed holds => ?_)
  obtain ⟨moved, target, gone, passes''⟩ := holds
  have whole := (frame''.mono fun _ => Or.inl).trans moved
  have held' : renamed.now.content (snapshotFilename id) = some bytes := by
    rw [target, quiet.now, held, List.nil_append]
  have pushed := described.pushSnapshot small whole held'
  refine Io.syncDir_ensures.mono fun _ after quiet' => ?_
  refine ⟨quiet'.now ▸ pushed, ?_, ?_, ?_⟩
  · rw [quiet'.now]
    refine .of_frame whole fun name isTmp touched => ?_
    rcases touched with rfl | rfl
    · exact gone
    · exact absurd isTmp (snapshot_not_tmp id)
  · rw [quiet'.now]
    refine whole.mono fun name touched => ?_
    rcases touched with same | same
    · exact Or.inl (onlyTmp name same)
    · exact Or.inr ⟨id, same⟩
  · have before : ∀ fs, Fs.Frame (· = tmpName (snapshotFilename id)) world.now fs →
        Describes hashes fs dir ∨ Describes hashes fs (dir.push (id, bytes)) := fun fs framed =>
      Or.inl (described.tmp (framed.mono onlyTmp))
    refine (passes.mono fun fs same => before fs (same ▸ frame)).trans
      ((passes'.mono fun fs same => before fs (same ▸ frame.trans frame')).trans
        ((Passes.of_quiet quiet (before _ (frame.trans frame'))).trans
          ((passes''.mono fun fs same => ?_).trans (Passes.of_quiet quiet' (Or.inr pushed)))))
    exact Or.inr (same ▸ pushed)

/-- The id of a listed snapshot that is not the one just written. -/
def otherSnapshot (id : Nat) (path : FileName) : Option Nat :=
  if path = snapshotFilename id then none
  else (parseSnapshotFilename path).filter fun otherId => otherId ≠ id

theorem removeOlder_none {id : Nat} {path : FileName} (none : otherSnapshot id path = none) :
    Engine.removeOlder id path = pure () := by
  unfold otherSnapshot at none
  unfold Engine.removeOlder
  by_cases this : path = snapshotFilename id
  · rw [if_pos this]
  · rw [if_neg this] at none ⊢
    cases parsed : parseSnapshotFilename path with
    | none => rfl
    | some otherId =>
      rw [parsed] at none
      have same : otherId = id := by simpa using none
      show (if otherId ≠ id then _ else _) = _
      rw [if_neg (not_not.mpr same)]

/-- **The snapshots of other ids are removed.** -/
theorem cleanSnapshots_ensures (calm : world.Calm) (described : Describes hashes world.now dir)
    {id : Nat} (small : id < u64Bound) :
    Ensures (Engine.cleanSnapshots id) world fun _ after =>
      Describes hashes after.now { dir with snapshots := dir.snapshots.filter fun item => item.1 = id } ∧
      Fs.Frame IsSnapshot world.now after.now ∧
      Passes (fun fs => ∃ gone, id ∉ gone ∧ Describes hashes fs (dir.without gone)) world after := by
  have listing : Succeeds (Prog.attempt Io.listDir) world fun result after =>
      result = .ok world.now.dir.keys ∧ Quiet world after := by
    obtain ⟨names, after, run, rfl, quiet⟩ :=
      Succeeds.of_ensures (Io.listDir_succeeds calm) Io.listDir_ensures
    exact ⟨_, after, attempt_ok run, rfl, quiet⟩
  refine Ensures.bind (listing.ensures.mono fun result listed holds => ?_)
  obtain ⟨rfl, quiet⟩ := holds
  have described' : Describes hashes listed.now dir := quiet.now ▸ described
  have others : ∀ path ∈ world.now.dir.keys, ∀ other, otherSnapshot id path = some other →
      other < u64Bound ∧ other ≠ id ∧
        Engine.removeOlder id path = ignore (Io.removeFile (snapshotFilename other)) := by
    intro path listed other found
    unfold otherSnapshot at found
    split at found
    · cases found
    · rename_i different
      obtain ⟨parsed, notThis⟩ := Option.filter_eq_some_iff.mp found
      have notThis : other ≠ id := by simpa using notThis
      cases described.known path ((Fs.mem_keys_iff described.wf).mp listed) with
      | log same => rw [same, parseSnapshotFilename_wal] at parsed; cases parsed
      | table level table member same =>
        rw [same, parseSnapshotFilename_sst] at parsed
        cases parsed
      | tmp isTmp => rw [isTmp.not_snapshot] at parsed; cases parsed
      | snapshot item member same =>
        have fits := (described.snapshot item member).1
        rw [same, parseSnapshotFilename_snapshot fits] at parsed
        cases parsed
        refine ⟨fits, notThis, ?_⟩
        unfold Engine.removeOlder
        rw [if_neg different, same, parseSnapshotFilename_snapshot fits]
        show (if item.1 ≠ id then _ else _) = _
        rw [if_pos notThis]
  refine ((removeEach_succeeds (Engine.removeOlder id) (otherSnapshot id) _
    (fun path member other found => ?_) (fun path _ none => removeOlder_none none) (quiet.calm calm)
    described').ensures).mono fun _ after holds => ?_
  · obtain ⟨fits, _, same⟩ := others path member other found
    exact ⟨fits, same⟩
  obtain ⟨cleaned, frame, passes⟩ := holds
  have spared : id ∉ world.now.dir.keys.filterMap (otherSnapshot id) := by
    intro listed
    obtain ⟨path, member, found⟩ := List.mem_filterMap.mp listed
    exact (others path member _ found).2.1 rfl
  refine ⟨?_, quiet.now ▸ frame, ?_⟩
  · refine cleaned.reorderSnapshots _ (fun item => ?_) (described.distinctSnapshots.filter _)
    rw [Dir.without, List.mem_filter, List.mem_filter, decide_eq_true_eq, decide_eq_true_eq]
    refine and_congr_right fun member => ?_
    constructor
    · intro isThis
      exact isThis ▸ spared
    · intro kept
      by_contra notThis
      have fits := (described.snapshot item member).1
      refine kept (List.mem_filterMap.mpr ⟨snapshotFilename item.1, (Fs.mem_keys_iff described.wf).mpr ?_,
        ?_⟩)
      · rw [(described.snapshot item member).2]
        exact Option.some_ne_none _
      · unfold otherSnapshot
        rw [if_neg fun same => notThis (snapshotFilename_inj fits small same),
          parseSnapshotFilename_snapshot fits, Option.filter_some, if_pos (by simpa using notThis)]
  · refine (Passes.of_quiet quiet ⟨[], List.not_mem_nil, by rw [Dir.without_nil]; exact described⟩).trans
      (passes.mono fun fs crash => ?_)
    obtain ⟨gone, listed, crashed⟩ := crash
    exact ⟨gone, fun inGone => spared (listed _ inGone), crashed⟩

end Sastran

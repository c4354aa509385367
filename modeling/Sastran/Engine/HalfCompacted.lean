/-
Crashes in the middle of a compaction.

The output gets its name in one step, and from then on it alone is live. A compaction that leaves nothing
but deletions has no output: its inputs just disappear, L1 first and then L0 from the newest to the
oldest, so that an older write may outlive the deletion on top of it (`Lsm.Resurrects`).

* `compaction_crash_atomic` - crashes are harmless exactly if there is an output, or no L0 table holds a
  live entry of a key that is not in the memtable.
-/

import Sastran.Engine.Interrupted

namespace Sastran

open Device SsTable

variable {D : Type} [LinearOrder D] {env : Env D} {world : World Fs} {lsm : Lsm}
  {records : List Record} {snapshots : List (Nat × Bytes)} {map : Key → Option Entry} {log : Bytes}
  {inner inner' : EngineInner} {fs : Fs}

/-! ### Crash points -/

/-- An L0 table holds a live entry of a key that is not in the memtable, and nothing is left to merge. -/
def Lsm.Resurrects (lsm : Lsm) : Prop :=
  lsm.output = [] ∧ ∃ table ∈ lsm.l0, ∃ key entry, table.2.find? key = some entry ∧
    entry.isLive = true ∧ lsm.memtable.find? key = none

omit [LinearOrder D] in
/-- Without an output every entry in the tables is hidden by a deletion. -/
theorem Lsm.newest_dead (dead : lsm.output = []) (key : Key) :
    (newestOf (lsm.tables.map fun table => table.2.find?) key).filter Entry.isLive = none := by
  rw [← Lsm.find?_merged, ← Lsm.newest_output, dead]
  rfl

omit [LinearOrder D] in
theorem Lsm.remaining_ordered (ordered : lsm.Ordered) (removed : List Nat) :
    (⟨lsm.memtable, lsm.l0.filter fun table => table.1 ∉ removed,
      lsm.l1.filter fun table => table.1 ∉ removed, lsm.nextId⟩ : Lsm).Ordered := by
  have sub : (⟨lsm.memtable, lsm.l0.filter fun table => table.1 ∉ removed,
      lsm.l1.filter fun table => table.1 ∉ removed, lsm.nextId⟩ : Lsm).tables.Sublist lsm.tables :=
    List.filter_sublist.append List.filter_sublist
  exact ⟨ordered.descending.sublist sub, fun table member => ordered.bound table (sub.subset member),
    (List.length_filter_le _ _).trans ordered.single⟩

omit [LinearOrder D] in
/-- Once an input is removed, L1 is. -/
theorem Lsm.Ordered.l1_removed (ordered : lsm.Ordered) {removed left : List Nat}
    (order : removed ++ left = lsm.inputs.map Prod.fst) (some : removed ≠ []) :
    (lsm.l1.filter fun table => table.1 ∉ removed) = [] := by
  match upper : lsm.l1, ordered.single with
  | [], _ => rfl
  | [table], _ =>
    rw [Lsm.inputs, upper] at order
    cases removed with
    | nil => exact absurd rfl some
    | cons first removed =>
      obtain ⟨same, _⟩ := List.cons.inj order
      simp [same]
  | _ :: _ :: _, few => exact absurd few (by simp)

omit [LinearOrder D] in
/-- **What is left of the inputs keeps the values**, where nothing is resurrected. -/
theorem Lsm.value_left (ordered : lsm.Ordered) (harmless : ¬ lsm.Resurrects) (dead : lsm.output = [])
    {removed left : List Nat} (order : removed ++ left = lsm.inputs.map Prod.fst) (next : Nat) (key : Key) :
    (⟨lsm.memtable, lsm.l0.filter fun table => table.1 ∉ removed,
      lsm.l1.filter fun table => table.1 ∉ removed, next⟩ : Lsm).value key = lsm.value key := by
  have hidden := Lsm.newest_dead dead key
  rw [Lsm.value, Lsm.value, Lsm.newest_eq, Lsm.newest_eq]
  cases held : lsm.memtable.find? key with
  | some entry => rfl
  | none =>
    rw [Option.none_or, Option.none_or, hidden]
    cases removed with
    | nil =>
      have all : ∀ tables : List Table, (tables.filter fun table => table.1 ∉ ([] : List Nat)) = tables :=
        fun tables => by simp
      rw [Lsm.tables, all, all]
      exact hidden
    | cons first removed =>
      have upper := ordered.l1_removed order (List.cons_ne_nil _ _)
      have sorted := (Lsm.remaining_ordered ordered (first :: removed)).descending
      rw [Lsm.tables, upper, List.append_nil] at sorted ⊢
      rw [Option.filter_eq_none_iff]
      intro entry newest live
      obtain ⟨table, member, found, _⟩ := (Lsm.newestOf_descending sorted key entry).mp newest
      exact harmless ⟨dead, table, (List.mem_filter.mp member).1, key, entry, found, live, held⟩

omit [LinearOrder D] in
/-- What an unfinished compaction without an output is recovered to. -/
theorem Lsm.Ordered.recovered_left (ordered : lsm.Ordered) (dead : lsm.output = [])
    (memtable : (Memtable.replay records).map = lsm.memtable) (removed : List Nat) (next : Nat) :
    (lsm.remaining removed log snapshots).recovered records next =
      ⟨lsm.memtable, lsm.l0.filter fun table => table.1 ∉ removed,
        lsm.l1.filter fun table => table.1 ∉ removed, next⟩ := by
  rw [Lsm.remaining, dead, List.nil_append, ← memtable]
  exact (Lsm.remaining_ordered ordered removed).recovered _ records next

omit [LinearOrder D] in
/-- **A compaction passes through directories that keep the values**, if it has an output or resurrects
nothing. -/
theorem CompactCrash.keeps {dir : Dir}
    (running : Running env.hashes fs inner lsm records snapshots) (harmless : ¬ lsm.Resurrects)
    (crash : CompactCrash lsm (logBytes env.hashes records) snapshots dir) :
    dir.snapshots = snapshots ∧ Keeps env.hashes lsm.value dir records := by
  have ordered := running.holds.ordered
  have memtable : (Memtable.replay records).map = lsm.memtable := by
    rw [← running.memtable, running.holds.memtable]
  have whole : LogHolds env.hashes (some (Wal.fileHeader ++ logBytes env.hashes records)) records
      (logBytes env.hashes records) := .whole running.valid
  cases crash with
  | merging =>
    refine ⟨rfl, Or.inl whole, fun _ key => ?_⟩
    rw [running.recovered]
    rfl
  | removing removed left order =>
    refine ⟨rfl, Or.inl whole, fun _ key => ?_⟩
    have fresh : lsm.nextId ∉ removed := by
      intro gone
      have listed : lsm.nextId ∈ lsm.inputs.map Prod.fst := order ▸ List.mem_append_left _ gone
      obtain ⟨input, isInput, same⟩ := List.mem_map.mp listed
      exact absurd (ordered.bound input (Lsm.mem_inputs.mp isInput)) (by rw [same]; exact lt_irrefl _)
    by_cases dead : lsm.output = []
    · -- no output: older tables are left
      rw [ordered.recovered_left dead memtable]
      exact lsm.value_left ordered harmless dead order 0 key
    · have written : lsm.output = [(lsm.nextId, lsm.merged)] := by
        unfold Lsm.output at dead ⊢
        split
        · exact absurd (if_pos ‹_›) dead
        · rfl
      have live : (lsm.remaining removed (logBytes env.hashes records) snapshots).survivor =
          some (lsm.nextId, lsm.merged) ∧ _ := Lsm.remaining_live ordered fresh written
      rw [Dir.recovered, Dir.liveL1, live.1, live.2, memtable, ← lsm.value_compact, Lsm.compact, written]
      rfl

/-- Some key's newest entry in the tables is no deletion, or every live entry in L0 is of a key that is
in the memtable. -/
def Undisturbed (memtable : Memtable) (l0 l1 : List (SortedMap Key Entry)) : Prop :=
  (∃ key entry, newestOf ((l0 ++ l1).map SortedMap.find?) key = some entry ∧ entry.isLive = true) ∨
    ∀ table ∈ l0, ∀ key entry, table.find? key = some entry → entry.isLive = true →
      memtable.map.find? key ≠ none

omit [LinearOrder D] in
/-- There is an output exactly if some newest entry in the tables is live. -/
theorem Lsm.output_ne_nil (lsm : Lsm) : lsm.output ≠ [] ↔ ∃ key entry,
    newestOf (lsm.tables.map fun table => table.2.find?) key = some entry ∧ entry.isLive = true := by
  constructor
  · intro written
    by_contra nothing
    refine written (if_pos (List.isEmpty_iff.mpr (List.eq_nil_iff_forall_not_mem.mpr fun item member => ?_)))
    have found := (SortedMap.mem_entries_iff _ _ _).mp member
    rw [Lsm.find?_merged, Option.filter_eq_some_iff] at found
    exact nothing ⟨item.1, item.2, found⟩
  · rintro ⟨key, entry, newest, live⟩ dead
    have hidden := Lsm.newest_dead dead key
    rw [newest, Option.filter_some, live] at hidden
    cases hidden

omit [LinearOrder D] in
theorem Lsm.resurrects_iff (lsm : Lsm) {memtable : Memtable} (same : memtable.map = lsm.memtable) :
    ¬ lsm.Resurrects ↔ Undisturbed memtable (lsm.l0.map Prod.snd) (lsm.l1.map Prod.snd) := by
  have tables : (lsm.l0.map Prod.snd ++ lsm.l1.map Prod.snd).map SortedMap.find? =
      lsm.tables.map fun table => table.2.find? := by
    rw [← List.map_append, List.map_map]
    rfl
  rw [Undisturbed, tables, ← Lsm.output_ne_nil, same, Lsm.Resurrects, not_and_or]
  refine or_congr Iff.rfl ⟨fun none table member key entry found live absent => ?_, fun all => ?_⟩
  · obtain ⟨item, listed, rfl⟩ := List.mem_map.mp member
    exact none ⟨item, listed, key, entry, found, live, absent⟩
  · rintro ⟨item, listed, key, entry, found, live, absent⟩
    exact all item.2 (List.mem_map_of_mem listed) key entry found live absent

/-- Whether a key has a value once the directory is opened. -/
def holdsValue (env : Env D) (key : Key) (fs : Fs) : Bool :=
  match Engine.open env (World.fresh fs) with
  | .ok engine after =>
    match Engine.get env key (engine, after) with
    | .ok (some _) _ => true
    | _ => false
  | _ => false

theorem Recovers.reads {newest : Key → Option Entry} {crashed : Fs} (recovers : Recovers env newest crashed)
    (key : Key) : holdsValue env key crashed = (Entry.visible (newest key)).isSome := by
  obtain ⟨engine, after, opened, reads⟩ := recovers
  obtain ⟨_, read⟩ := reads key
  unfold holdsValue
  rw [opened]
  simp only [read]
  cases Entry.visible (newest key) <;> rfl

end Sastran

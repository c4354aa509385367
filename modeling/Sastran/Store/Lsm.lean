/-
What the LSM state is for: a map from keys to values, stored in layers.

`Lsm` is the state without files: a memtable over tables that are ordered by their ids, newest first.
A key's newest entry decides; `value` is that entry unless it is a deletion. The results: a write
changes the value of its key only (`value_write`), and flush, compaction and the rediscovery of the
tables change no value (`value_flush`, `value_compact`).
-/

import Sastran.Memtable

namespace Sastran

/-- The id of a table and the map it stores. -/
abbrev Table := Nat × SortedMap Key Entry

structure Lsm where
  memtable : SortedMap Key Entry
  l0 : List Table
  l1 : List Table
  nextId : Nat

/-- An entry that is no deletion. -/
def Entry.isLive : Entry → Bool
  | .tombstone => false
  | .put _ => true
  | .vector _ => true

namespace Lsm

/-- The tables, newest first. -/
def tables (lsm : Lsm) : List Table := lsm.l0 ++ lsm.l1

/-- The layers, newest first. -/
def layers (lsm : Lsm) : List (SortedMap Key Entry) := lsm.memtable :: lsm.tables.map Prod.snd

/-- The newest entry of a key. -/
def newest (lsm : Lsm) (key : Key) : Option Entry :=
  newestOf (lsm.layers.map SortedMap.find?) key

/-- The newest entry of a key, unless it is a deletion. -/
def value (lsm : Lsm) (key : Key) : Option Entry := (lsm.newest key).filter Entry.isLive

/-- Ids are recency: they descend from the newest table to the oldest one, the next id is above all
of them, and L1 has at most one table. -/
structure Ordered (lsm : Lsm) : Prop where
  descending : lsm.tables.Pairwise fun newer older => older.1 < newer.1
  bound : ∀ table ∈ lsm.tables, table.1 < lsm.nextId
  single : lsm.l1.length ≤ 1

/-! ### Operations -/

def write (lsm : Lsm) (key : Key) (entry : Entry) : Lsm :=
  { lsm with memtable := lsm.memtable.insert key entry }

/-- A memtable that holds nothing is not flushed. -/
def flush (lsm : Lsm) : Lsm :=
  if lsm.memtable.entries.isEmpty then lsm
  else ⟨SortedMap.empty, (lsm.nextId, lsm.memtable) :: lsm.l0, lsm.l1, lsm.nextId + 1⟩

/-- All tables in one, without deletions. -/
def merged (lsm : Lsm) : SortedMap Key Entry :=
  (SortedMap.union (lsm.tables.map Prod.snd)).filter fun entry => entry.2.isLive

/-- The L1 tables after a compaction. -/
def output (lsm : Lsm) : List Table :=
  if lsm.merged.entries.isEmpty then [] else [(lsm.nextId, lsm.merged)]

def compact (lsm : Lsm) : Lsm := ⟨lsm.memtable, [], lsm.output, lsm.nextId + 1⟩

/-! ### What they do to values -/

theorem newest_eq (lsm : Lsm) (key : Key) :
    lsm.newest key =
      (lsm.memtable.find? key).or
        (newestOf (lsm.tables.map fun table => table.2.find?) key) := by
  rw [newest, layers, List.map_cons, newestOf_cons, List.map_map]
  rfl

theorem newest_write (lsm : Lsm) (key : Key) (entry : Entry) (other : Key) :
    (lsm.write key entry).newest other = if key = other then some entry else lsm.newest other := by
  rw [newest_eq, newest_eq]
  simp only [write, tables, SortedMap.find?_insert]
  split <;> rfl

/-- **A write** decides the value of its key, and of no other one. -/
theorem value_write (lsm : Lsm) (key : Key) (entry : Entry) (other : Key) :
    (lsm.write key entry).value other =
      if key = other then (some entry).filter Entry.isLive else lsm.value other := by
  rw [value, newest_write]
  split <;> rfl

theorem newest_flush (lsm : Lsm) (key : Key) : lsm.flush.newest key = lsm.newest key := by
  unfold flush
  split
  · rfl
  · rw [newest_eq, newest_eq]
    simp only [tables, List.cons_append, List.map_cons, newestOf_cons, SortedMap.find?_empty,
      Option.none_or]

theorem value_flush (lsm : Lsm) (key : Key) : lsm.flush.value key = lsm.value key := by
  rw [value, newest_flush, value]

theorem find?_merged (lsm : Lsm) (key : Key) :
    lsm.merged.find? key =
      (newestOf (lsm.tables.map fun table => table.2.find?) key).filter Entry.isLive := by
  rw [merged, SortedMap.find?_filter, SortedMap.find?_union, List.map_map]
  rfl

/-- Where ids descend, the newest entry of a key is that of the table with the highest id. -/
theorem newestOf_descending {tables : List Table}
    (descending : tables.Pairwise fun newer older => older.1 < newer.1) (key : Key) (entry : Entry) :
    newestOf (tables.map fun table => table.2.find?) key = some entry ↔
      ∃ table ∈ tables, table.2.find? key = some entry ∧
        ∀ other ∈ tables, other.2.find? key ≠ none → other.1 ≤ table.1 := by
  induction tables with
  | nil => simp
  | cons first rest ih =>
    obtain ⟨newer, tail⟩ := List.pairwise_cons.mp descending
    rw [List.map_cons, newestOf_cons]
    cases found : first.2.find? key with
    | some held =>
      rw [Option.some_or]
      constructor
      · intro same
        refine ⟨first, List.mem_cons_self .., found.trans same, fun other member _ => ?_⟩
        rcases List.mem_cons.mp member with rfl | member
        · exact le_refl _
        · exact (newer other member).le
      · rintro ⟨table, member, held', highest⟩
        rcases List.mem_cons.mp member with rfl | member
        · exact found.symm.trans held'
        · have above := highest first (List.mem_cons_self ..) (by rw [found]; exact Option.some_ne_none _)
          exact absurd (newer table member) (not_lt.mpr above)
    | none =>
      rw [Option.none_or, ih tail]
      constructor
      · rintro ⟨table, member, held, highest⟩
        refine ⟨table, List.mem_cons_of_mem _ member, held, fun other member' present => ?_⟩
        rcases List.mem_cons.mp member' with rfl | member'
        · exact absurd found present
        · exact highest other member' present
      · rintro ⟨table, member, held, highest⟩
        rcases List.mem_cons.mp member with rfl | member
        · rw [found] at held
          cases held
        · exact ⟨table, member, held, fun other member' =>
            highest other (List.mem_cons_of_mem _ member')⟩

theorem newest_output (lsm : Lsm) (key : Key) :
    newestOf (lsm.output.map fun table => table.2.find?) key = lsm.merged.find? key := by
  unfold output
  split
  · rename_i nothing
    rw [SortedMap.find?_eq_none_of_entries_nil (List.isEmpty_iff.mp nothing)]
    rfl
  · simp [newestOf_cons]

/-- **Compaction** drops deletions, and keeps values: nothing older is below L1. -/
theorem value_compact (lsm : Lsm) (key : Key) : lsm.compact.value key = lsm.value key := by
  rw [value, value, newest_eq, newest_eq]
  simp only [compact, tables, List.nil_append]
  rw [newest_output, find?_merged]
  cases held : lsm.memtable.find? key with
  | some entry => rfl
  | none =>
    simp only [Option.none_or, Option.filter_filter, Bool.and_self]
    rfl

/-! ### Ids stay in order -/

theorem Ordered.write {lsm : Lsm} (ordered : lsm.Ordered) (key : Key) (entry : Entry) :
    (lsm.write key entry).Ordered := ⟨ordered.descending, ordered.bound, ordered.single⟩

theorem Ordered.flush {lsm : Lsm} (ordered : lsm.Ordered) : lsm.flush.Ordered := by
  unfold Lsm.flush
  split
  · exact ordered
  · refine ⟨List.pairwise_cons.mpr ⟨ordered.bound, ordered.descending⟩, ?_, ordered.single⟩
    intro table member
    rcases List.mem_cons.mp member with rfl | member
    · exact Nat.lt_succ_self _
    · exact Nat.lt_succ_of_lt (ordered.bound table member)

theorem Ordered.compact {lsm : Lsm} (_ : lsm.Ordered) : lsm.compact.Ordered := by
  unfold Lsm.compact output
  split
  · exact ⟨List.Pairwise.nil, nofun, Nat.zero_le _⟩
  · refine ⟨List.pairwise_singleton _ _, fun table member => ?_, le_refl _⟩
    rw [List.mem_singleton.mp member]
    exact Nat.lt_succ_self _

end Lsm

end Sastran

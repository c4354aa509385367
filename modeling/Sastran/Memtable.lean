/-
The in-memory write buffer: a sorted map from keys to entries, with a running size estimate.

A deletion is an entry too (`Entry.tombstone`), since it masks older versions below. The three
mutations are one (`Memtable.upsert`) at three entries, and so is replaying a log record
(`Record.entry`).

* `memtable_refines` - what mutations leave: the last entry of each key, and the exact size of all.
-/

import Mathlib.Data.List.Induction
import Sastran.Wal.Record

namespace Sastran

inductive Entry where
  | put (value : Bytes)
  | vector (bytes : Bytes)
  | tombstone
  deriving DecidableEq, Repr

def Entry.payload : Entry → Bytes
  | .put value => value
  | .vector bytes => bytes
  | .tombstone => []

def Entry.payloadSize (entry : Entry) : Nat := entry.payload.length

/-- What a lookup tells: a value, a deletion (older versions do not count), or nothing. -/
inductive Lookup where
  | found (value : Bytes)
  | deleted
  | missing
  deriving DecidableEq, Repr

def Entry.lookup : Entry → Lookup
  | .put value => .found value
  | .vector bytes => .found bytes
  | .tombstone => .deleted

/-- The lookup of what a map holds under a key. -/
def Lookup.of : Option Entry → Lookup
  | some entry => entry.lookup
  | none => .missing

/-- The value a reader sees where a key's newest entry is the given one. -/
def Entry.visible : Option Entry → Option Bytes
  | some (.put value) => some value
  | some (.vector bytes) => some bytes
  | some .tombstone => none
  | none => none

structure Memtable where
  map : SortedMap Key Entry
  approximateSize : Nat

namespace Memtable

def new : Memtable := ⟨SortedMap.empty, 0⟩

/-- Insert or overwrite; the key's bytes are counted once. -/
def upsert (memtable : Memtable) (key : Key) (entry : Entry) : Memtable :=
  match memtable.map.find? key with
  | none =>
    ⟨memtable.map.insert key entry, memtable.approximateSize + (key.length + entry.payloadSize)⟩
  | some old =>
    ⟨memtable.map.insert key entry,
      memtable.approximateSize - old.payloadSize + entry.payloadSize⟩

def put (memtable : Memtable) (key : Key) (value : Bytes) : Memtable :=
  memtable.upsert key (.put value)

def putVector (memtable : Memtable) (key : Key) (bytes : Bytes) : Memtable :=
  memtable.upsert key (.vector bytes)

def delete (memtable : Memtable) (key : Key) : Memtable := memtable.upsert key .tombstone

def get (memtable : Memtable) (key : Key) : Lookup := Lookup.of (memtable.map.find? key)

def len (memtable : Memtable) : Nat := memtable.map.entries.length

def isEmpty (memtable : Memtable) : Bool := memtable.map.entries.isEmpty

/-- The entries in ascending key order. -/
def iter (memtable : Memtable) : List (Key × Entry) := memtable.map.entries

@[simp] theorem upsert_map (memtable : Memtable) (key : Key) (entry : Entry) :
    (memtable.upsert key entry).map = memtable.map.insert key entry := by
  unfold upsert
  split <;> rfl

end Memtable

/-! ### Replaying records -/

/-- The entry a record leaves under its key. -/
def Record.entry (record : Record) : Entry :=
  match record.kind with
  | .put => .put record.value
  | .vector => .vector record.value
  | .delete => .tombstone

/-- Replay of one record. -/
def Memtable.apply (memtable : Memtable) (record : Record) : Memtable :=
  match record.kind with
  | .put => memtable.put record.key record.value
  | .vector => memtable.putVector record.key record.value
  | .delete => memtable.delete record.key

/-- The memtable a list of records leaves. -/
def Memtable.replay (records : List Record) : Memtable := records.foldl Memtable.apply Memtable.new

theorem Memtable.apply_eq (memtable : Memtable) (record : Record) :
    memtable.apply record = memtable.upsert record.key record.entry := by
  unfold Memtable.apply Record.entry
  split <;> rfl

@[simp] theorem Memtable.replay_nil : Memtable.replay [] = Memtable.new := rfl

@[simp] theorem Memtable.replay_append_one (records : List Record) (record : Record) :
    Memtable.replay (records ++ [record]) = (Memtable.replay records).apply record := by
  rw [Memtable.replay, List.foldl_append]
  rfl

/-! ### A map with its size -/

/-- `upsert` in the machine's arithmetic: the sum for a new key may overflow, and the difference for an
old one is saturated at both ends. -/
def Memtable.upsertSized (memtable : Memtable) (key : Key) (entry : Entry) : Option Memtable :=
  match memtable.map.find? key with
  | none =>
    let size := memtable.approximateSize + (key.length + entry.payloadSize)
    if size < u64Bound then some ⟨memtable.map.insert key entry, size⟩ else none
  | some old =>
    some ⟨memtable.map.insert key entry,
      min (memtable.approximateSize - old.payloadSize + entry.payloadSize) (u64Bound - 1)⟩

def Memtable.replaySized (records : List Record) : Option Memtable :=
  records.foldlM (fun memtable record => memtable.upsertSized record.key record.entry) Memtable.new

/-- The entry of the last record of a key. -/
def lastEntry (records : List Record) (key : Key) : Option Entry :=
  (records.reverse.find? fun record => record.key = key).map Record.entry

/-- The bytes an entry takes with its key. -/
def entrySize (entry : Key × Entry) : Nat := entry.1.length + entry.2.payloadSize

/-- The bytes of all records. -/
def recordedSize (records : List Record) : Nat :=
  (records.map fun record => entrySize (record.key, record.entry)).sum

theorem lastEntry_append_one (records : List Record) (record : Record) (key : Key) :
    lastEntry (records ++ [record]) key =
      if record.key = key then some record.entry else lastEntry records key := by
  rw [lastEntry, List.reverse_append, List.reverse_singleton, List.singleton_append, List.find?_cons]
  by_cases same : record.key = key
  · rw [if_pos same]
    simp [same]
  · rw [if_neg same]
    simp [same, lastEntry]

theorem Memtable.find?_replay (records : List Record) (key : Key) :
    (Memtable.replay records).map.find? key = lastEntry records key := by
  induction records using List.reverseRecOn with
  | nil => rfl
  | append_singleton records record ih =>
    rw [Memtable.replay_append_one, Memtable.apply_eq, Memtable.upsert_map, SortedMap.find?_insert,
      lastEntry_append_one, ih]
    congr

/-- The payload that an overwrite takes off is counted. -/
theorem payloadSize_le_total {map : SortedMap Key Entry} {key : Key} {old : Entry}
    (found : map.find? key = some old) : old.payloadSize ≤ map.total entrySize := by
  have erased := map.total_insert entrySize key .tombstone
  rw [found] at erased
  simp only [Option.elim_some, entrySize, Entry.payloadSize, Entry.payload, List.length_nil] at erased ⊢
  omega

theorem Memtable.upsert_size {memtable : Memtable}
    (sized : memtable.approximateSize = memtable.map.total entrySize) (key : Key) (entry : Entry) :
    (memtable.upsert key entry).approximateSize = (memtable.upsert key entry).map.total entrySize := by
  have inserted := memtable.map.total_insert entrySize key entry
  rw [Memtable.upsert_map]
  unfold Memtable.upsert
  cases found : memtable.map.find? key with
  | none =>
    rw [found] at inserted
    simp only [Option.elim_none, entrySize] at inserted ⊢
    omega
  | some old =>
    have counted := payloadSize_le_total found
    rw [found] at inserted
    simp only [Option.elim_some, entrySize] at inserted counted ⊢
    omega

theorem Memtable.replay_size (records : List Record) :
    (Memtable.replay records).approximateSize = (Memtable.replay records).map.total entrySize := by
  induction records using List.reverseRecOn with
  | nil => rfl
  | append_singleton records record ih =>
    rw [Memtable.replay_append_one, Memtable.apply_eq]
    exact Memtable.upsert_size ih record.key record.entry

/-- No more is held than was recorded. -/
theorem Memtable.replay_size_le (records : List Record) :
    (Memtable.replay records).approximateSize ≤ recordedSize records := by
  induction records using List.reverseRecOn with
  | nil => exact Nat.zero_le _
  | append_singleton records record ih =>
    have inserted := (Memtable.replay records).map.total_insert entrySize record.key record.entry
    have sum : recordedSize (records ++ [record]) =
        recordedSize records + entrySize (record.key, record.entry) := by
      simp [recordedSize]
    have before := Memtable.replay_size records
    rw [Memtable.replay_size, Memtable.replay_append_one, Memtable.apply_eq, Memtable.upsert_map, sum]
    omega

/-- The machine's arithmetic agrees while the recorded bytes can be counted. -/
theorem Memtable.replaySized_eq {records : List Record} (small : recordedSize records < u64Bound - 1) :
    Memtable.replaySized records = some (Memtable.replay records) := by
  induction records using List.reverseRecOn with
  | nil => rfl
  | append_singleton records record ih =>
    have after := Memtable.replay_size_le (records ++ [record])
    have less : recordedSize records < u64Bound - 1 := by
      refine lt_of_le_of_lt ?_ small
      simp [recordedSize]
    rw [Memtable.replay_append_one, Memtable.apply_eq] at after ⊢
    rw [Memtable.replaySized, List.foldlM_append] at *
    rw [show records.foldlM _ Memtable.new = some (Memtable.replay records) from ih less]
    rw [Option.bind_eq_bind, Option.bind_some, List.foldlM_cons]
    simp only [List.foldlM_nil, bind_pure]
    unfold Memtable.upsertSized Memtable.upsert at *
    cases found : (Memtable.replay records).map.find? record.key with
    | none =>
      rw [found] at after
      simp only at after ⊢
      rw [if_pos (by omega)]
    | some old =>
      rw [found] at after
      simp only at after ⊢
      rw [min_eq_left (by omega)]

/-- **The memtable is a map with its size.** -/
theorem memtable_refines (records : List Record) (small : recordedSize records < u64Bound - 1) :
    ∃ memtable, Memtable.replaySized records = some memtable ∧
      memtable = records.foldl Memtable.apply Memtable.new ∧
      (∀ key, memtable.get key = Lookup.of (lastEntry records key)) ∧
      memtable.iter.Pairwise (fun first second => first.1 < second.1) ∧
      (∀ key entry, (key, entry) ∈ memtable.iter ↔ lastEntry records key = some entry) ∧
      memtable.approximateSize = (memtable.iter.map entrySize).sum ∧
      ∀ front record rest, records = front ++ record :: rest → ∀ old,
        (Memtable.replay front).map.find? record.key = some old →
        old.payloadSize ≤ (Memtable.replay front).approximateSize := by
  refine ⟨_, Memtable.replaySized_eq small, rfl, fun key => ?_, (Memtable.replay records).map.ascending,
    fun key entry => ?_, Memtable.replay_size records, fun front record _ _ old found => ?_⟩
  · rw [Memtable.get, Memtable.find?_replay]
  · rw [← Memtable.find?_replay]
    exact (Memtable.replay records).map.mem_entries_iff key entry
  · rw [Memtable.replay_size]
    exact payloadSize_le_total found

theorem memtable_refines_overwritten :
    ∃ memtable, Memtable.replaySized [⟨.put, [7], [1, 2]⟩, ⟨.vector, [7], [0, 0, 0, 0]⟩, ⟨.delete, [8], []⟩] =
        some memtable ∧ memtable.approximateSize = (memtable.iter.map entrySize).sum := by
  obtain ⟨memtable, run, _, _, _, _, size, _⟩ := memtable_refines
    [⟨.put, [7], [1, 2]⟩, ⟨.vector, [7], [0, 0, 0, 0]⟩, ⟨.delete, [8], []⟩] (by decide)
  exact ⟨memtable, run, size⟩

/-! ### Entries that fit the formats -/

/-- A key and an entry as the log accepts them. -/
structure ValidEntry (key : Key) (entry : Entry) : Prop where
  key_ne_nil : key ≠ []
  key_le : key.length ≤ Wal.MAX_KEY_LEN
  payload_le : entry.payloadSize ≤ Wal.MAX_VALUE_LEN

/-- Every entry of the map is one the log accepts. -/
def ValidMap (map : SortedMap Key Entry) : Prop := ∀ key entry, map.find? key = some entry →
  ValidEntry key entry

theorem Record.Valid.entry {record : Record} (valid : record.Valid) :
    ValidEntry record.key record.entry := by
  refine ⟨valid.key_ne_nil, valid.key_le, ?_⟩
  unfold Record.entry Entry.payloadSize Entry.payload
  split
  · rename_i same
    split at same <;> cases same
    exact valid.value_le
  · rename_i same
    split at same <;> cases same
    exact valid.value_le
  · exact Nat.zero_le _

theorem ValidMap.empty : ValidMap SortedMap.empty := fun _ _ found => by cases found

theorem ValidMap.insert {map : SortedMap Key Entry} (valid : ValidMap map) {key : Key}
    {entry : Entry} (fits : ValidEntry key entry) : ValidMap (map.insert key entry) := by
  intro other held found
  rw [SortedMap.find?_insert] at found
  split at found
  · rename_i same
    cases found
    exact same ▸ fits
  · exact valid other held found

theorem Memtable.replay_valid {records : List Record} (valid : ∀ record ∈ records, record.Valid) :
    ValidMap (Memtable.replay records).map := by
  induction records using List.reverseRecOn with
  | nil => exact ValidMap.empty
  | append_singleton records record ih =>
    rw [Memtable.replay_append_one, Memtable.apply_eq, Memtable.upsert_map]
    refine ValidMap.insert (ih fun other member => valid other (by simp [member])) ?_
    exact (valid record (by simp)).entry

end Sastran

/-
The layout of a table file.

A table is a sequence of data blocks, an optional Bloom filter, an index with one entry for each
block, and a footer of fixed size. Blocks hold encoded entries in ascending key order, and block and
index end with a checksum. `tableBytes` is the layout as a whole; `IsTable` relates a file to the map
it stores, which is all that writer and reader need to agree on.
-/

import Sastran.Io
import Sastran.Memtable
import Sastran.SsTable.Bloom

namespace Sastran

open LittleEndian

namespace SsTable

def FOOTER_MAGIC : Bytes := ascii "SASTSST2"

def FOOTER_LEN : Nat := 8 * 4 + 8

def DATA_BLOCK_TARGET_SIZE : Nat := 4 * 1024

def KIND_PUT : UInt8 := 0x01

def KIND_DELETE : UInt8 := 0x02

def KIND_VECTOR : UInt8 := 0x03

/-- The kind byte of an entry. -/
def kindByte : Entry → UInt8
  | .put _ => KIND_PUT
  | .vector _ => KIND_VECTOR
  | .tombstone => KIND_DELETE

def encodedEntrySize (key : Key) (entry : Entry) : Nat := 4 + 4 + 1 + key.length + entry.payloadSize

def encodeEntry (key : Key) (entry : Entry) : Bytes :=
  leBytes 4 key.length ++ (leBytes 4 entry.payload.length ++
    (kindByte entry :: (key ++ entry.payload)))

structure IndexEntry where
  firstKey : Key
  offset : Nat
  length : Nat
  deriving DecidableEq, Repr

def encodeIndexEntry (entry : IndexEntry) : Bytes :=
  leBytes 4 entry.firstKey.length ++
    (entry.firstKey ++ (leBytes 8 entry.offset ++ leBytes 4 entry.length))

/-- Bytes with their checksum behind them. -/
def checked (hashes : Hashes) (bytes : Bytes) : Bytes :=
  bytes ++ leBytes 4 (hashes.crc32 bytes).toNat

/-! ### The layout -/

/-- A data block: entries in ascending key order. -/
abbrev Block := List (Key × Entry)

section Layout

variable (hashes : Hashes)

def blockBody (block : Block) : Bytes := block.flatMap fun entry => encodeEntry entry.1 entry.2

def blockBytes (block : Block) : Bytes := checked hashes (blockBody block)

def firstKey (block : Block) : Key := (block.head?.map Prod.fst).getD []

/-- The data blocks, one behind the other. -/
def dataBytes (blocks : List Block) : Bytes := blocks.flatMap (blockBytes hashes)

/-- The index of blocks that start at `offset`. -/
def indexOf : List Block → Nat → List IndexEntry
  | [], _ => []
  | block :: blocks, offset =>
    ⟨firstKey block, offset, (blockBytes hashes block).length⟩ ::
      indexOf blocks (offset + (blockBytes hashes block).length)

def indexBytes (index : List IndexEntry) : Bytes := checked hashes (index.flatMap encodeIndexEntry)

def bloomBytes (bloom : Option BloomFilter) : Bytes :=
  match bloom with
  | some filter => filter.encode hashes
  | none => []

def footer (indexOffset indexLength bloomOffset bloomLength : Nat) : Bytes :=
  leBytes 8 indexOffset ++ (leBytes 8 indexLength ++ (leBytes 8 bloomOffset ++
    (leBytes 8 bloomLength ++ FOOTER_MAGIC)))

/-- The offset and the length the footer records for the filter. -/
def bloomBounds (bloom : Option BloomFilter) (offset : Nat) : Nat × Nat :=
  match bloom with
  | some filter => (offset, (filter.encode hashes).length)
  | none => (0, 0)

/-- A whole table file. -/
def tableBytes (blocks : List Block) (bloom : Option BloomFilter) : Bytes :=
  let data := dataBytes hashes blocks
  let filter := bloomBytes hashes bloom
  let index := indexBytes hashes (indexOf hashes blocks 0)
  let bounds := bloomBounds hashes bloom data.length
  data ++ (filter ++ (index ++
    footer (data.length + filter.length) index.length bounds.1 bounds.2))

/-- The filter of a table reports every key of the table. -/
def Reports (bloom : Option BloomFilter) (entries : List (Key × Entry)) : Prop :=
  ∀ filter, bloom = some filter →
    filter.Wf ∧ ∀ entry ∈ entries, filter.contains hashes entry.1 = some true

/-- The file stores the map. -/
structure IsTable (bytes : Bytes) (map : SortedMap Key Entry) : Prop where
  valid : ValidMap map
  fits : bytes.length ≤ maxFileLen
  layout : ∃ blocks bloom, blocks.flatten = map.entries ∧ (∀ block ∈ blocks, block ≠ []) ∧
    (∀ block ∈ blocks, (blockBytes hashes block).length < 2 ^ 32) ∧
    Reports hashes bloom map.entries ∧ bytes = tableBytes hashes blocks bloom

end Layout

/-! ### Sizes and concatenations -/

section Sizes

variable {hashes : Hashes}

theorem encodeEntry_length (key : Key) (entry : Entry) :
    (encodeEntry key entry).length = encodedEntrySize key entry := by
  simp only [encodeEntry, List.length_append, List.length_cons, leBytes_length, encodedEntrySize,
    Entry.payloadSize]
  omega

theorem checked_length (hashes : Hashes) (bytes : Bytes) :
    (checked hashes bytes).length = bytes.length + 4 := by
  rw [checked, List.length_append, leBytes_length]

@[simp] theorem blockBody_nil : blockBody [] = [] := rfl

@[simp] theorem blockBody_cons (key : Key) (entry : Entry) (block : Block) :
    blockBody ((key, entry) :: block) = encodeEntry key entry ++ blockBody block :=
  List.flatMap_cons

@[simp] theorem blockBody_append (first second : Block) :
    blockBody (first ++ second) = blockBody first ++ blockBody second :=
  List.flatMap_append

theorem blockBody_eq_nil {block : Block} : blockBody block = [] ↔ block = [] := by
  cases block with
  | nil => simp
  | cons entry block =>
    have filled : encodeEntry entry.1 entry.2 ≠ [] := by
      intro empty
      have length := encodeEntry_length entry.1 entry.2
      rw [empty, List.length_nil, encodedEntrySize] at length
      omega
    rw [blockBody_cons]
    simp [filled]

@[simp] theorem dataBytes_nil : dataBytes hashes [] = [] := rfl

@[simp] theorem dataBytes_append (first second : List Block) :
    dataBytes hashes (first ++ second) = dataBytes hashes first ++ dataBytes hashes second :=
  List.flatMap_append

@[simp] theorem dataBytes_singleton (block : Block) :
    dataBytes hashes [block] = blockBytes hashes block := by
  simp [dataBytes]

/-- A block added at the end adds the entry of its position. -/
theorem indexOf_append_one (blocks : List Block) (block : Block) (offset : Nat) :
    indexOf hashes (blocks ++ [block]) offset = indexOf hashes blocks offset ++
      [⟨firstKey block, offset + (dataBytes hashes blocks).length,
        (blockBytes hashes block).length⟩] := by
  induction blocks generalizing offset with
  | nil => rfl
  | cons first blocks ih =>
    have length : (dataBytes hashes (first :: blocks)).length =
        (blockBytes hashes first).length + (dataBytes hashes blocks).length := by
      rw [dataBytes, List.flatMap_cons, List.length_append, ← dataBytes]
    rw [List.cons_append, indexOf, indexOf, ih, length, List.cons_append, Nat.add_assoc]

/-! ### Bounds of sizes -/

/-- What an entry takes in a data block, with the checksum of the block if it is the first. -/
def dataRoom (entries : List (Key × Entry)) : Nat :=
  (entries.map fun entry => encodedEntrySize entry.1 entry.2 + 4).sum

/-- What the keys take in an index, if each begins a block. -/
def indexRoom (entries : List (Key × Entry)) : Nat :=
  (entries.map fun entry => 4 + entry.1.length + 8 + 4).sum

/-- What a filter takes. -/
def filterRoom : Option BloomFilter → Nat
  | some filter => 1 + 8 + (filter.m + 7) / 8 + 4
  | none => 0

/-- What a table of the entries takes at most. -/
def tableRoom (bloom : Option BloomFilter) (entries : List (Key × Entry)) : Nat :=
  dataRoom entries + filterRoom bloom + (indexRoom entries + 4) + FOOTER_LEN

theorem dataRoom_append (one two : List (Key × Entry)) :
    dataRoom (one ++ two) = dataRoom one + dataRoom two := by
  rw [dataRoom, List.map_append, List.sum_append, dataRoom, dataRoom]

theorem indexRoom_append (one two : List (Key × Entry)) :
    indexRoom (one ++ two) = indexRoom one + indexRoom two := by
  rw [indexRoom, List.map_append, List.sum_append, indexRoom, indexRoom]

theorem blockBody_le (block : Block) : (blockBody block).length + 4 * block.length = dataRoom block := by
  induction block with
  | nil => rfl
  | cons entry block ih =>
    obtain ⟨key, value⟩ := entry
    have head : dataRoom ((key, value) :: block) = encodedEntrySize key value + 4 + dataRoom block := rfl
    rw [blockBody_cons, List.length_append, encodeEntry_length, List.length_cons, head, ← ih]
    omega

theorem blockBytes_le (hashes : Hashes) {block : Block} (filled : block ≠ []) :
    (blockBytes hashes block).length ≤ dataRoom block := by
  have one := List.length_pos_of_ne_nil filled
  rw [blockBytes, checked_length, ← blockBody_le]
  omega

theorem dataBytes_le (hashes : Hashes) {blocks : List Block} (filled : ∀ block ∈ blocks, block ≠ []) :
    (dataBytes hashes blocks).length ≤ dataRoom blocks.flatten := by
  induction blocks with
  | nil => exact Nat.zero_le _
  | cons block blocks ih =>
    have first := blockBytes_le hashes (filled block List.mem_cons_self)
    have rest := ih fun other member => filled other (List.mem_cons_of_mem _ member)
    rw [List.flatten_cons, dataRoom_append, dataBytes, List.flatMap_cons, List.length_append, ← dataBytes]
    omega

theorem indexEntries_le (hashes : Hashes) {blocks : List Block}
    (filled : ∀ block ∈ blocks, block ≠ []) (offset : Nat) :
    ((indexOf hashes blocks offset).flatMap encodeIndexEntry).length ≤ indexRoom blocks.flatten := by
  induction blocks generalizing offset with
  | nil => exact Nat.zero_le _
  | cons block blocks ih =>
    obtain ⟨⟨key, entry⟩, others, rfl⟩ := List.exists_cons_of_ne_nil (filled block List.mem_cons_self)
    have rest := ih (fun other member => filled other (List.mem_cons_of_mem _ member))
      (offset + (blockBytes hashes ((key, entry) :: others)).length)
    rw [indexOf, List.flatMap_cons, List.length_append, List.flatten_cons, indexRoom_append]
    have first : (encodeIndexEntry ⟨firstKey ((key, entry) :: others), offset,
        (blockBytes hashes ((key, entry) :: others)).length⟩).length ≤ indexRoom ((key, entry) :: others) := by
      simp only [encodeIndexEntry, List.length_append, leBytes_length, firstKey, List.head?_cons,
        Option.map_some, Option.getD_some, indexRoom, List.map_cons, List.sum_cons]
      omega
    omega

theorem bloomBytes_length {bloom : Option BloomFilter} (wf : ∀ filter, bloom = some filter → filter.Wf) :
    (bloomBytes hashes bloom).length = filterRoom bloom := by
  cases bloom with
  | none => rfl
  | some filter =>
    rw [bloomBytes, filter.encode_length, (wf filter rfl).length]
    rfl

theorem footer_length (indexOffset indexLength bloomOffset bloomLength : Nat) :
    (footer indexOffset indexLength bloomOffset bloomLength).length = FOOTER_LEN := by
  have magic : FOOTER_MAGIC.length = 8 := by decide
  simp only [footer, List.length_append, leBytes_length, magic, FOOTER_LEN]

end Sizes

end SsTable

end Sastran

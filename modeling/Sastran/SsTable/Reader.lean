/-
The table reader: `open`, point lookups, and the forward iterator.

The parsers work on the bytes not read yet where the source keeps a position. The results are about
files that store a map (`IsTable`): such a file opens (`open_succeeds`), a lookup is the map's
(`get_succeeds`), and iteration yields the map's entries in order (`next_succeeds`).
-/

import Sastran.SsTable.Format

namespace Sastran

open Device LittleEndian

open SsTable

/-! ### Parsing -/

namespace SsTable

variable (hashes : Hashes)

/-- The bytes in front of a checksum, after it was checked. -/
def unchecked (short : String) (mismatch : String) (bytes : Bytes) : Except Error Bytes :=
  if bytes.length < 4 then .error (.corruption short)
  else
    let split := bytes.length - 4
    let storedCrc := UInt32.ofNat (leNat (slice bytes split 4))
    let computedCrc := hashes.crc32 (bytes.take split)
    if storedCrc ≠ computedCrc then
      .error (.corruption (s!"{mismatch}: stored {hex32 storedCrc.toNat}, " ++
        s!"computed {hex32 computedCrc.toNat}"))
    else .ok (bytes.take split)

/-- The index entries a payload holds; there are fewer of them than bytes. -/
def parseIndexEntries : Nat → Bytes → Except Error (List IndexEntry)
  | 0, _ => .ok []
  | fuel + 1, payload =>
    if payload.isEmpty then .ok []
    else if payload.length < 4 then
      .error (.corruption "truncated index entry: key_len header")
    else
      let keyLen := leNat (slice payload 0 4)
      if payload.length < 4 + keyLen + 8 + 4 then
        .error (.corruption "truncated index entry: key or offsets")
      else
        let key := slice payload 4 keyLen
        let offset := leNat (slice payload (4 + keyLen) 8)
        let length := leNat (slice payload (4 + keyLen + 8) 4)
        match parseIndexEntries fuel (payload.drop (4 + keyLen + 8 + 4)) with
        | .error error => .error error
        | .ok entries => .ok (⟨key, offset, length⟩ :: entries)

def parseIndexBlock (bytes : Bytes) : Except Error (List IndexEntry) :=
  match unchecked hashes "index block shorter than CRC trailer" "SSTable index CRC mismatch" bytes with
  | .error error => .error error
  | .ok payload => parseIndexEntries payload.length payload

/-- The last block whose first key is not above `key`. -/
def candidateBlock (index : List IndexEntry) (key : Key) : Option IndexEntry :=
  (index.takeWhile fun entry => decide (entry.firstKey ≤ key)).getLast?

/-- Search a block's entries for a key; there are fewer of them than bytes. -/
def scanEntries (target : Key) : Nat → Bytes → Except Error Lookup
  | 0, _ => .ok .missing
  | fuel + 1, block =>
    if block.isEmpty then .ok .missing
    else if block.length < 9 then
      .error (.corruption "truncated entry header in data block")
    else
      let keyLen := leNat (slice block 0 4)
      let valueLen := leNat (slice block 4 4)
      let kind := block.getD 8 0
      if block.length < 9 + keyLen + valueLen then
        .error (.corruption "truncated entry payload in data block")
      else
        let key := slice block 9 keyLen
        -- Entries are sorted, so the search stops once it is past the target.
        if target < key then .ok .missing
        else if key = target then
          let value := slice block (9 + keyLen) valueLen
          if kind = KIND_PUT ∨ kind = KIND_VECTOR then .ok (.found value)
          else if kind = KIND_DELETE then .ok .deleted
          else .error (.corruption s!"unknown SSTable entry kind {hex8 kind.toNat}")
        else scanEntries target fuel (block.drop (9 + keyLen + valueLen))

def scanBlockForKey (block : Bytes) (target : Key) : Except Error Lookup :=
  scanEntries target block.length block

/-- The entry at the front of a block's bytes and the number of bytes it takes. -/
def decodeEntry (block : Bytes) : Except Error (Key × Entry × Nat) :=
  if block.length < 9 then .error (.corruption "truncated entry header in data block")
  else
    let keyLen := leNat (slice block 0 4)
    let valueLen := leNat (slice block 4 4)
    let kind := block.getD 8 0
    if block.length < 9 + keyLen + valueLen then
      .error (.corruption "truncated entry payload in data block")
    else
      let key := slice block 9 keyLen
      let value := slice block (9 + keyLen) valueLen
      let size := 9 + keyLen + valueLen
      if kind = KIND_PUT then .ok (key, .put value, size)
      else if kind = KIND_VECTOR then .ok (key, .vector value, size)
      else if kind = KIND_DELETE then .ok (key, .tombstone, size)
      else .error (.corruption s!"unknown SSTable entry kind {hex8 kind.toNat}")

/-- The sum of 64-bit numbers; an overflow panics. -/
def checkedSum (numbers : List Nat) : Option Nat :=
  if numbers.sum < u64Bound then some numbers.sum else none

end SsTable

/-! ### Reader and iterator -/

structure SsTableReader where
  file : FileRead
  index : List IndexEntry
  bloom : Option BloomFilter

structure SsTableIterator where
  file : FileRead
  index : List IndexEntry
  blockIdx : Nat
  currentBlock : Option Bytes
  pos : Nat

namespace SsTableReader

variable (hashes : Hashes)

/-- The bounds check of the filter, made only where one is recorded. -/
def checkBloomBounds (bloomOffset bloomLength indexLength fileLen : Nat) : IoM Unit :=
  if bloomLength = 0 then pure ()
  else do
    let bloomEnd ← Prog.ofOption (checkedSum [bloomOffset, bloomLength, indexLength, FOOTER_LEN])
    if bloomEnd > fileLen then
      Prog.throw (.corruption (s!"SSTable bloom bounds out of range: offset={bloomOffset}, " ++
        s!"length={bloomLength}, file_len={fileLen}"))
    else pure ()

def readBloom (file : FileRead) (bloomOffset bloomLength : Nat) : IoM (Option BloomFilter) :=
  if bloomLength = 0 then pure none
  else do
    let bytes ← file.readAt bloomOffset bloomLength
    let filter ← Prog.ofExcept (BloomFilter.decode hashes bytes)
    pure (some filter)

def «open» (name : FileName) : IoM SsTableReader := do
  let file ← Io.openRead name
  let fileLen ← file.len
  if fileLen < FOOTER_LEN then
    Prog.throw (.corruption s!"SSTable file shorter than footer: {fileLen} bytes")
  else
    let footer ← file.readAt (fileLen - FOOTER_LEN) FOOTER_LEN
    let indexOffset := leNat (slice footer 0 8)
    let indexLength := leNat (slice footer 8 8)
    let bloomOffset := leNat (slice footer 16 8)
    let bloomLength := leNat (slice footer 24 8)
    let magic := slice footer 32 8
    if magic ≠ FOOTER_MAGIC then
      Prog.throw (.corruption
        s!"SSTable footer magic mismatch: got {magic}, expected {FOOTER_MAGIC}")
    else
      let indexEnd ← Prog.ofOption (checkedSum [indexOffset, indexLength, FOOTER_LEN])
      if indexEnd > fileLen then
        Prog.throw (.corruption (s!"SSTable index bounds out of range: offset={indexOffset}, " ++
          s!"length={indexLength}, file_len={fileLen}"))
      else
        checkBloomBounds bloomOffset bloomLength indexLength fileLen
        let indexBytes ← file.readAt indexOffset indexLength
        let index ← Prog.ofExcept (parseIndexBlock hashes indexBytes)
        let bloom ← readBloom hashes file bloomOffset bloomLength
        pure ⟨file, index, bloom⟩

/-- The filter does not exclude the key. -/
def mayContain (reader : SsTableReader) (key : Key) : Option Bool :=
  match reader.bloom with
  | some filter => filter.contains hashes key
  | none => some true

def get (reader : SsTableReader) (key : Key) : IoM Lookup := do
  let possible ← Prog.ofOption (reader.mayContain hashes key)
  if ¬ possible then pure .missing
  else
    match candidateBlock reader.index key with
    | none => pure .missing
    | some candidate => do
      let bytes ← reader.file.readAt candidate.offset candidate.length
      let block ← Prog.ofExcept (unchecked hashes "SSTable data block shorter than CRC trailer"
        "SSTable data block CRC mismatch" bytes)
      Prog.ofExcept (scanBlockForKey block key)

def blockCount (reader : SsTableReader) : Nat := reader.index.length

def iter (reader : SsTableReader) : SsTableIterator := ⟨reader.file, reader.index, 0, none, 0⟩

end SsTableReader

namespace SsTableIterator

variable (hashes : Hashes)

/-- The bytes of the block the index entry names. -/
def readBlock (iterator : SsTableIterator) (entry : IndexEntry) : IoM Bytes := do
  let bytes ← iterator.file.readAt entry.offset entry.length
  Prog.ofExcept (unchecked hashes "SSTable data block shorter than CRC trailer"
    "SSTable data block CRC mismatch in iterator" bytes)

/-- What one call yields, with the iterator after it. -/
abbrev Item := Option (Except Error (Key × Entry)) × SsTableIterator

/-- The end of a round that has a block: go on to the next block, or yield the entry here. A
malformed entry is yielded as an error without moving on. -/
def yieldFrom (iterator : SsTableIterator) (block : Bytes) : SsTableIterator ⊕ Item :=
  if iterator.pos ≥ block.length then
    .inl { iterator with currentBlock := none, blockIdx := iterator.blockIdx + 1 }
  else
    match decodeEntry (block.drop iterator.pos) with
    | .ok (key, entry, size) =>
      .inr (some (.ok (key, entry)), { iterator with pos := iterator.pos + size })
    | .error error => .inr (some (.error error), iterator)

/-- One round of the loop in `next`. -/
def round (iterator : SsTableIterator) : IoM (SsTableIterator ⊕ Item) :=
  match iterator.currentBlock with
  | some block => pure (iterator.yieldFrom block)
  | none =>
    match iterator.index[iterator.blockIdx]? with
    | none => pure (.inr (none, iterator))
    | some entry => do
      match ← Prog.attempt (iterator.readBlock hashes entry) with
      | .ok block =>
        pure ({ iterator with currentBlock := some block, pos := 0 }.yieldFrom block)
      | .error error =>
        pure (.inr (some (.error error), { iterator with blockIdx := iterator.index.length }))

/-- The next entry; a round either yields or moves on to another block. -/
def next (iterator : SsTableIterator) : IoM Item :=
  Prog.loop (round hashes) (iterator.index.length + 2) iterator

/-- What so many calls yield. -/
def nexts : Nat → SsTableIterator → IoM (List (Option (Except Error (Key × Entry))))
  | 0, _ => pure []
  | count + 1, iterator => do
    let (item, iterator) ← iterator.next hashes
    let items ← nexts count iterator
    pure (item :: items)

end SsTableIterator

/-! ### Parsing what was encoded -/

namespace SsTable

variable {hashes : Hashes}

/-- The checksum of checked bytes holds. -/
theorem unchecked_checked (short mismatch : String) (bytes : Bytes) :
    unchecked hashes short mismatch (checked hashes bytes) = .ok bytes := by
  have length := checked_length hashes bytes
  have split : (checked hashes bytes).length - 4 = bytes.length := by omega
  have front : (checked hashes bytes).take bytes.length = bytes := by rw [checked, List.take_left]
  have crc : UInt32.ofNat (leNat (slice (checked hashes bytes) bytes.length 4)) =
      hashes.crc32 bytes := by
    rw [checked, slice, List.drop_left, List.take_of_length_le (by rw [leBytes_length]),
      leNat_leBytes_of_lt (UInt32.toNat_lt _)]
    exact UInt32.ofNat_toNat
  unfold unchecked
  rw [if_neg (by omega)]
  simp only [split, front, crc, ne_eq, not_true_eq_false, if_false]

/-- An index entry whose numbers fit their fields. -/
structure IndexEntry.Fits (entry : IndexEntry) : Prop where
  key : entry.firstKey.length < 2 ^ 32
  offset : entry.offset < u64Bound
  length : entry.length < 2 ^ 32

theorem encodeIndexEntry_length (entry : IndexEntry) :
    (encodeIndexEntry entry).length = 4 + entry.firstKey.length + 8 + 4 := by
  simp only [encodeIndexEntry, List.length_append, leBytes_length]
  omega

theorem parseIndexEntries_cons {entry : IndexEntry} (fits : entry.Fits) (fuel : Nat) (rest : Bytes) :
    parseIndexEntries (fuel + 1) (encodeIndexEntry entry ++ rest) =
      match parseIndexEntries fuel rest with
      | .error error => .error error
      | .ok entries => .ok (entry :: entries) := by
  have length : (encodeIndexEntry entry ++ rest).length =
      4 + entry.firstKey.length + 8 + 4 + rest.length := by
    rw [List.length_append, encodeIndexEntry_length]
  have whole : encodeIndexEntry entry ++ rest = leBytes 4 entry.firstKey.length ++
      (entry.firstKey ++ (leBytes 8 entry.offset ++ (leBytes 4 entry.length ++ rest))) := by
    simp [encodeIndexEntry]
  have keyLen : leNat (slice (encodeIndexEntry entry ++ rest) 0 4) = entry.firstKey.length := by
    rw [whole, slice, List.drop_zero, leNat_take_leBytes fits.key]
  have toKey : (encodeIndexEntry entry ++ rest).drop 4 =
      entry.firstKey ++ (leBytes 8 entry.offset ++ (leBytes 4 entry.length ++ rest)) := by
    rw [whole, drop_leBytes]
  have key : slice (encodeIndexEntry entry ++ rest) 4 entry.firstKey.length = entry.firstKey := by
    rw [slice, toKey, List.take_left]
  have toOffset : (encodeIndexEntry entry ++ rest).drop (4 + entry.firstKey.length) =
      leBytes 8 entry.offset ++ (leBytes 4 entry.length ++ rest) := by
    rw [← List.drop_drop, toKey, List.drop_left]
  have offset : leNat (slice (encodeIndexEntry entry ++ rest) (4 + entry.firstKey.length) 8) =
      entry.offset := by
    rw [slice, toOffset, leNat_take_leBytes (lt_of_lt_of_le fits.offset (by decide))]
  have toLength : (encodeIndexEntry entry ++ rest).drop (4 + entry.firstKey.length + 8) =
      leBytes 4 entry.length ++ rest := by
    rw [← List.drop_drop, toOffset, drop_leBytes]
  have blockLength : leNat (slice (encodeIndexEntry entry ++ rest)
      (4 + entry.firstKey.length + 8) 4) = entry.length := by
    rw [slice, toLength, leNat_take_leBytes fits.length]
  have toRest : (encodeIndexEntry entry ++ rest).drop (4 + entry.firstKey.length + 8 + 4) = rest := by
    rw [← List.drop_drop, toLength, drop_leBytes]
  have filled : (encodeIndexEntry entry ++ rest).isEmpty = false := by
    rw [List.isEmpty_eq_false_iff, ← List.length_pos_iff]
    omega
  rw [parseIndexEntries]
  simp only [keyLen, key, offset, blockLength, toRest, filled, Bool.false_eq_true, if_false]
  rw [if_neg (by omega), if_neg (by omega)]

/-- **An encoded index parses to its entries.** -/
theorem parseIndexEntries_encoded {index : List IndexEntry} (fits : ∀ entry ∈ index, entry.Fits)
    {fuel : Nat} (enough : index.length ≤ fuel) :
    parseIndexEntries fuel (index.flatMap encodeIndexEntry) = .ok index := by
  induction index generalizing fuel with
  | nil => cases fuel <;> rfl
  | cons entry index ih =>
    obtain ⟨fuel, rfl⟩ : ∃ less, fuel = less + 1 := ⟨fuel - 1, by simp at enough; omega⟩
    rw [List.flatMap_cons, parseIndexEntries_cons (fits entry (List.mem_cons_self ..)),
      ih (fun other member => fits other (List.mem_cons_of_mem _ member)) (by simpa using enough)]

theorem parseIndexBlock_encoded {index : List IndexEntry} (fits : ∀ entry ∈ index, entry.Fits) :
    parseIndexBlock hashes (indexBytes hashes index) = .ok index := by
  rw [parseIndexBlock, indexBytes, unchecked_checked]
  simp only
  refine parseIndexEntries_encoded fits ?_
  induction index with
  | nil => exact Nat.zero_le _
  | cons entry index ih =>
    have shorter := ih fun other member => fits other (List.mem_cons_of_mem _ member)
    have length := encodeIndexEntry_length entry
    rw [List.flatMap_cons, List.length_append, List.length_cons]
    omega

/-! ### The fields of an encoded entry -/

section Fields

variable {key : Key} {entry : Entry} (valid : ValidEntry key entry) (rest : Bytes)

theorem encodeEntry_whole : encodeEntry key entry ++ rest = leBytes 4 key.length ++
    (leBytes 4 entry.payload.length ++ (kindByte entry :: (key ++ (entry.payload ++ rest)))) := by
  simp [encodeEntry]

theorem drop_nine : (encodeEntry key entry ++ rest).drop 9 = key ++ (entry.payload ++ rest) := by
  have split : (9 : Nat) = 4 + 4 + 1 := rfl
  rw [encodeEntry_whole, split, ← List.drop_drop, ← List.drop_drop, drop_leBytes, drop_leBytes]
  rfl

theorem slice_entryKey : slice (encodeEntry key entry ++ rest) 9 key.length = key := by
  rw [slice, drop_nine, List.take_left]

theorem slice_entryValue :
    slice (encodeEntry key entry ++ rest) (9 + key.length) entry.payload.length = entry.payload := by
  rw [slice, ← List.drop_drop, drop_nine, List.drop_left, List.take_left]

theorem drop_entry :
    (encodeEntry key entry ++ rest).drop (9 + key.length + entry.payload.length) = rest := by
  rw [← List.drop_drop, ← List.drop_drop, drop_nine, List.drop_left, List.drop_left]

theorem getD_kind : (encodeEntry key entry ++ rest).getD 8 0 = kindByte entry := by
  rw [encodeEntry_whole, List.getD_eq_getElem?_getD,
    List.getElem?_append_right (by rw [leBytes_length]; decide),
    List.getElem?_append_right (by rw [leBytes_length, leBytes_length]), leBytes_length,
    leBytes_length]
  rfl

theorem length_entry : (encodeEntry key entry ++ rest).length =
    9 + key.length + entry.payload.length + rest.length := by
  rw [List.length_append, encodeEntry_length, encodedEntrySize, Entry.payloadSize]

include valid

theorem leNat_entryKeyLen : leNat (slice (encodeEntry key entry ++ rest) 0 4) = key.length := by
  have short := valid.key_le
  rw [Wal.MAX_KEY_LEN] at short
  rw [encodeEntry_whole, slice, List.drop_zero, leNat_take_leBytes (by omega)]

theorem leNat_entryValueLen :
    leNat (slice (encodeEntry key entry ++ rest) 4 4) = entry.payload.length := by
  have short := valid.payload_le
  rw [Wal.MAX_VALUE_LEN, Entry.payloadSize] at short
  rw [encodeEntry_whole, slice, drop_leBytes, leNat_take_leBytes (by omega)]

/-- **An encoded entry is decoded as it was.** -/
theorem decodeEntry_encoded : decodeEntry (encodeEntry key entry ++ rest) =
    .ok (key, entry, (encodeEntry key entry).length) := by
  have length : (encodeEntry key entry ++ rest).length = _ := length_entry rest
  have size : (encodeEntry key entry).length = 9 + key.length + entry.payload.length := by
    rw [encodeEntry_length, encodedEntrySize, Entry.payloadSize]
  unfold decodeEntry
  simp only [leNat_entryKeyLen valid, leNat_entryValueLen valid, slice_entryKey, slice_entryValue,
    getD_kind, size]
  rw [if_neg (by omega), if_neg (by omega)]
  cases entry <;> rfl

/-- One step of the search in a block. -/
theorem scanEntries_cons (target : Key) (fuel : Nat) :
    scanEntries target (fuel + 1) (encodeEntry key entry ++ rest) =
      if target < key then .ok .missing
      else if key = target then .ok entry.lookup
      else scanEntries target fuel rest := by
  have length : (encodeEntry key entry ++ rest).length = _ := length_entry rest
  have filled : (encodeEntry key entry ++ rest).isEmpty = false := by
    rw [List.isEmpty_eq_false_iff, ← List.length_pos_iff]
    omega
  rw [scanEntries]
  simp only [leNat_entryKeyLen valid, leNat_entryValueLen valid, slice_entryKey, slice_entryValue,
    getD_kind, drop_entry, filled, Bool.false_eq_true, if_false]
  rw [if_neg (by omega), if_neg (by omega)]
  cases entry <;> rfl

end Fields

/-- **A search in a block is a lookup in its entries.** -/
theorem scanEntries_block {block : Block} (valid : ∀ entry ∈ block, ValidEntry entry.1 entry.2)
    (ascending : block.Pairwise fun one two => one.1 < two.1) (target : Key) {fuel : Nat}
    (enough : block.length ≤ fuel) :
    scanEntries target fuel (blockBody block) = .ok (Lookup.of (SortedMap.lookupIn target block)) := by
  induction block generalizing fuel with
  | nil => cases fuel <;> rfl
  | cons head block ih =>
    obtain ⟨key, entry⟩ := head
    obtain ⟨fuel, rfl⟩ : ∃ less, fuel = less + 1 := ⟨fuel - 1, by simp at enough; omega⟩
    obtain ⟨above, ascending⟩ := List.pairwise_cons.mp ascending
    rw [blockBody_cons, scanEntries_cons (valid (key, entry) (List.mem_cons_self ..)),
      ih (fun other member => valid other (List.mem_cons_of_mem _ member)) ascending
        (by simpa using enough)]
    by_cases past : target < key
    · have absent : SortedMap.lookupIn target ((key, entry) :: block) = none := by
        rw [SortedMap.lookupIn_eq_none]
        intro other member
        rcases List.mem_cons.mp member with rfl | member
        · exact past.ne'
        · exact (past.trans (above other member)).ne'
      rw [if_pos past, absent]
      rfl
    · rw [if_neg past]
      by_cases here : key = target
      · rw [if_pos here, SortedMap.lookupIn, if_pos here]
        rfl
      · rw [if_neg here, SortedMap.lookupIn, if_neg here]

theorem blockBody_length_ge (block : Block) : block.length ≤ (blockBody block).length := by
  induction block with
  | nil => exact Nat.zero_le _
  | cons head block ih =>
    have length := encodeEntry_length head.1 head.2
    rw [encodedEntrySize] at length
    rw [blockBody_cons, List.length_append, List.length_cons]
    omega

theorem scanBlockForKey_block {block : Block} (valid : ∀ entry ∈ block, ValidEntry entry.1 entry.2)
    (ascending : block.Pairwise fun one two => one.1 < two.1) (target : Key) :
    scanBlockForKey (blockBody block) target =
      .ok (Lookup.of (SortedMap.lookupIn target block)) :=
  scanEntries_block valid ascending target (blockBody_length_ge block)

end SsTable

/-! ### Reading a table file -/

/-- The reader serves the map: its index is that of blocks the file starts with, whose entries are
the map's. -/
structure SsTableReader.Reads (hashes : Hashes) (reader : SsTableReader)
    (map : SortedMap Key Entry) : Prop where
  valid : ValidMap map
  reports : Reports hashes reader.bloom map.entries
  layout : ∃ blocks back, blocks.flatten = map.entries ∧ (∀ block ∈ blocks, block ≠ []) ∧
    reader.index = indexOf hashes blocks 0 ∧ reader.file.bytes = dataBytes hashes blocks ++ back

section Reading

variable {hashes : Hashes} {world : World Fs} {map : SortedMap Key Entry}

theorem dataBytes_cons (block : Block) (blocks : List Block) :
    dataBytes hashes (block :: blocks) = blockBytes hashes block ++ dataBytes hashes blocks :=
  List.flatMap_cons

theorem indexOf_append (first second : List Block) (offset : Nat) :
    indexOf hashes (first ++ second) offset = indexOf hashes first offset ++
      indexOf hashes second (offset + (dataBytes hashes first).length) := by
  induction first generalizing offset with
  | nil => rfl
  | cons block first ih =>
    rw [List.cons_append, indexOf, indexOf, ih, dataBytes_cons, List.length_append,
      List.cons_append, Nat.add_assoc]

theorem indexOf_length (hashes : Hashes) (blocks : List Block) (offset : Nat) :
    (indexOf hashes blocks offset).length = blocks.length := by
  induction blocks generalizing offset with
  | nil => rfl
  | cons block blocks ih => rw [indexOf, List.length_cons, ih, List.length_cons]

/-- The bytes the index entry of a block names are the block's. -/
theorem slice_block (front : List Block) (block : Block) (more : List Block) (back : Bytes) :
    slice (dataBytes hashes (front ++ block :: more) ++ back) (dataBytes hashes front).length
      (blockBytes hashes block).length = blockBytes hashes block := by
  rw [dataBytes_append, dataBytes_cons, List.append_assoc, List.append_assoc, slice, List.drop_left,
    List.take_left]

theorem block_inside (hashes : Hashes) (front : List Block) (block : Block) (more : List Block) (back : Bytes) :
    (dataBytes hashes front).length + (blockBytes hashes block).length ≤
      (dataBytes hashes (front ++ block :: more) ++ back).length := by
  rw [dataBytes_append, dataBytes_cons, List.length_append, List.length_append, List.length_append]
  omega

/-- The index of a table fits its fields. -/
theorem indexOf_fits {blocks : List Block} (filled : ∀ block ∈ blocks, block ≠ [])
    (valid : ∀ entry ∈ blocks.flatten, ValidEntry entry.1 entry.2)
    (short : ∀ block ∈ blocks, (blockBytes hashes block).length < 2 ^ 32) {offset : Nat}
    (inside : offset + (dataBytes hashes blocks).length ≤ maxFileLen) :
    ∀ entry ∈ indexOf hashes blocks offset, entry.Fits := by
  have wide : maxFileLen < u64Bound := by decide
  induction blocks generalizing offset with
  | nil => exact nofun
  | cons block blocks ih =>
    rw [dataBytes_cons, List.length_append] at inside
    intro entry member
    rcases List.mem_cons.mp member with rfl | member
    · obtain ⟨head, rest, rfl⟩ := List.exists_cons_of_ne_nil (filled block (List.mem_cons_self ..))
      have keyShort := (valid head (by simp)).key_le
      rw [Wal.MAX_KEY_LEN] at keyShort
      refine ⟨?_, ?_, short _ (List.mem_cons_self ..)⟩
      · show head.1.length < 2 ^ 32
        omega
      · show offset < u64Bound
        omega
    · exact ih (fun other held => filled other (List.mem_cons_of_mem _ held))
        (fun other held => valid other (by
          rw [List.flatten_cons]
          exact List.mem_append_right _ held))
        (fun other held => short other (List.mem_cons_of_mem _ held)) (by omega) entry member

theorem checkedSum_eq {numbers : List Nat} (small : numbers.sum < u64Bound) :
    checkedSum numbers = some numbers.sum :=
  if_pos small

theorem footer_fields (one two three four : Nat) (small : one < u64Bound) (small' : two < u64Bound)
    (small'' : three < u64Bound) (small₃ : four < u64Bound) :
    leNat (slice (footer one two three four) 0 8) = one ∧
    leNat (slice (footer one two three four) 8 8) = two ∧
    leNat (slice (footer one two three four) 16 8) = three ∧
    leNat (slice (footer one two three four) 24 8) = four ∧
    slice (footer one two three four) 32 8 = FOOTER_MAGIC := by
  have bound : u64Bound = 256 ^ 8 := by decide
  rw [bound] at small small' small'' small₃
  have toSecond : (footer one two three four).drop 8 = leBytes 8 two ++ (leBytes 8 three ++
      (leBytes 8 four ++ FOOTER_MAGIC)) := drop_leBytes ..
  have toThird : (footer one two three four).drop 16 = leBytes 8 three ++
      (leBytes 8 four ++ FOOTER_MAGIC) := by
    have split : (16 : Nat) = 8 + 8 := rfl
    rw [split, ← List.drop_drop, toSecond, drop_leBytes]
  have toFourth : (footer one two three four).drop 24 = leBytes 8 four ++ FOOTER_MAGIC := by
    have split : (24 : Nat) = 16 + 8 := rfl
    rw [split, ← List.drop_drop, toThird, drop_leBytes]
  have toMagic : (footer one two three four).drop 32 = FOOTER_MAGIC := by
    have split : (32 : Nat) = 24 + 8 := rfl
    rw [split, ← List.drop_drop, toFourth, drop_leBytes]
  refine ⟨?_, ?_, ?_, ?_, ?_⟩
  · rw [slice, List.drop_zero, footer, leNat_take_leBytes small]
  · rw [slice, toSecond, leNat_take_leBytes small']
  · rw [slice, toThird, leNat_take_leBytes small'']
  · rw [slice, toFourth, leNat_take_leBytes small₃]
  · rw [slice, toMagic]
    decide

/-- **A file that stores a map opens**, and the reader serves the map. -/
theorem SsTableReader.open_succeeds (calm : world.Calm) {name : FileName} {bytes : Bytes}
    (here : world.now.content name = some bytes) (table : IsTable hashes bytes map) :
    Succeeds (SsTableReader.open hashes name) world fun reader after =>
      reader.Reads hashes map ∧ Quiet world after := by
  obtain ⟨valid, fits, blocks, bloom, flat, filled, short, reports, layout⟩ := table
  -- The parts of the file and where they lie.
  obtain ⟨data, dataDef⟩ : ∃ data, data = dataBytes hashes blocks := ⟨_, rfl⟩
  obtain ⟨filter, filterDef⟩ : ∃ filter, filter = bloomBytes hashes bloom := ⟨_, rfl⟩
  obtain ⟨index, indexDef⟩ : ∃ index, index = indexBytes hashes (indexOf hashes blocks 0) := ⟨_, rfl⟩
  obtain ⟨foot, footDef⟩ : ∃ foot, foot = footer (data.length + filter.length) index.length
    (bloomBounds hashes bloom data.length).1 (bloomBounds hashes bloom data.length).2 := ⟨_, rfl⟩
  have whole : bytes = data ++ (filter ++ (index ++ foot)) := by
    rw [layout, footDef, indexDef, filterDef, dataDef]
    rfl
  have footLength : foot.length = FOOTER_LEN := by rw [footDef, footer_length]
  have length : bytes.length = data.length + filter.length + index.length + FOOTER_LEN := by
    rw [whole, List.length_append, List.length_append, List.length_append, footLength]
    omega
  have wide : maxFileLen < u64Bound := by decide
  have boundsSmall : (bloomBounds hashes bloom data.length).1 < u64Bound ∧
      (bloomBounds hashes bloom data.length).2 < u64Bound ∧
      (bloomBounds hashes bloom data.length).1 + (bloomBounds hashes bloom data.length).2 ≤
        data.length + filter.length ∧
      ((bloomBounds hashes bloom data.length).2 = filter.length) := by
    cases bloom with
    | none =>
      have zero : 0 < u64Bound := by decide
      rw [filterDef]
      exact ⟨zero, zero, Nat.zero_le _, rfl⟩
    | some held =>
      have filterLength : filter.length = (held.encode hashes).length := by rw [filterDef]; rfl
      refine ⟨?_, ?_, ?_, filterLength.symm⟩
      · show data.length < u64Bound
        omega
      · show (held.encode hashes).length < u64Bound
        omega
      · show data.length + (held.encode hashes).length ≤ _
        omega
  obtain ⟨first, second, third, fourth, magic⟩ := footer_fields (data.length + filter.length)
    index.length (bloomBounds hashes bloom data.length).1 (bloomBounds hashes bloom data.length).2
    (by omega) (by omega) boundsSmall.1 boundsSmall.2.1
  rw [← footDef] at first second third fourth magic
  refine Succeeds.bind ((Succeeds.of_ensures (Io.openRead_succeeds calm (by rw [here]; exact nofun))
    (Io.openRead_ensures name)).mono fun file opened holds => ?_)
  obtain ⟨found, quiet⟩ := holds
  have fileBytes : file.bytes = bytes := Option.some.inj (found.symm.trans here)
  refine Succeeds.bind ((Succeeds.of_ensures (FileRead.len_succeeds (quiet.calm calm))
    FileRead.len_ensures).mono fun fileLen sized holds => ?_)
  obtain ⟨rfl, quiet'⟩ := holds
  have toSized := quiet.trans quiet'
  rw [fileBytes, if_neg (by omega)]
  refine Succeeds.bind ((Succeeds.of_ensures (FileRead.readAt_succeeds (toSized.calm calm)
    (by rw [fileBytes]; omega)) (FileRead.readAt_ensures _ _)).mono fun _ footed holds => ?_)
  obtain ⟨rfl, _, quiet''⟩ := holds
  have toFooted := toSized.trans quiet''
  have footerRead : slice file.bytes (bytes.length - FOOTER_LEN) FOOTER_LEN = foot := by
    have start : bytes.length - FOOTER_LEN = (data ++ (filter ++ index)).length := by
      rw [List.length_append, List.length_append]
      omega
    have split : bytes = (data ++ (filter ++ index)) ++ foot := by
      rw [whole]
      simp only [List.append_assoc]
    rw [fileBytes, start, split, slice, List.drop_left, ← footLength]
    exact List.take_length
  rw [footerRead]
  simp only [first, second, third, fourth, magic]
  rw [if_neg (not_not_intro rfl)]
  have indexSum : [data.length + filter.length, index.length, FOOTER_LEN].sum = bytes.length := by
    simp only [List.sum_cons, List.sum_nil]
    omega
  rw [checkedSum_eq (by rw [indexSum]; omega), indexSum]
  refine Succeeds.bind (Succeeds.pure ?_)
  rw [if_neg (lt_irrefl _)]
  refine Succeeds.bind (Succeeds.mono (?_ : Succeeds _ footed fun _ after => after = footed) ?_)
  · unfold checkBloomBounds
    split
    · exact Succeeds.pure rfl
    · have bloomSum : [(bloomBounds hashes bloom data.length).1,
          (bloomBounds hashes bloom data.length).2, index.length, FOOTER_LEN].sum ≤ bytes.length := by
        simp only [List.sum_cons, List.sum_nil]
        omega
      rw [checkedSum_eq (lt_of_le_of_lt bloomSum (by omega))]
      refine Succeeds.bind (Succeeds.pure ?_)
      rw [if_neg (not_lt.mpr bloomSum)]
      exact Succeeds.pure rfl
  rintro _ _ rfl
  refine Succeeds.bind ((Succeeds.of_ensures (FileRead.readAt_succeeds (toFooted.calm calm)
    (by rw [fileBytes]; omega)) (FileRead.readAt_ensures _ _)).mono fun _ indexed holds => ?_)
  obtain ⟨rfl, _, quiet₃⟩ := holds
  have toIndexed := toFooted.trans quiet₃
  have indexRead : slice file.bytes (data.length + filter.length) index.length = index := by
    have split : bytes = (data ++ filter) ++ (index ++ foot) := by
      rw [whole]
      simp only [List.append_assoc]
    rw [fileBytes, ← List.length_append, split, slice, List.drop_left, List.take_left]
  have entriesValid : ∀ entry ∈ blocks.flatten, ValidEntry entry.1 entry.2 := by
    intro entry member
    rw [flat] at member
    exact valid entry.1 entry.2 ((map.mem_entries_iff _ _).mp member)
  rw [indexRead, indexDef, parseIndexBlock_encoded (indexOf_fits filled entriesValid short (by
    rw [← dataDef]
    omega))]
  refine Succeeds.bind (Succeeds.pure ?_)
  refine Succeeds.bind (Succeeds.mono
    (?_ : Succeeds _ indexed fun read after => read = bloom ∧ Quiet indexed after) ?_)
  · unfold readBloom
    cases bloom with
    | none => exact Succeeds.pure ⟨rfl, Quiet.refl _⟩
    | some held =>
      have filterLength : filter.length = (held.encode hashes).length := by rw [filterDef]; rfl
      have filled' := held.encode_length hashes
      have bloomRead : slice file.bytes data.length (held.encode hashes).length =
          held.encode hashes := by
        have same : filter = held.encode hashes := filterDef
        rw [fileBytes, whole, ← same, slice, List.drop_left, List.take_left]
      have some_bytes : (held.encode hashes).length ≠ 0 := by omega
      simp only [bloomBounds, some_bytes, if_false]
      refine Succeeds.bind ((Succeeds.of_ensures (FileRead.readAt_succeeds (toIndexed.calm calm)
        (by rw [fileBytes]; omega)) (FileRead.readAt_ensures _ _)).mono fun _ last holds => ?_)
      obtain ⟨rfl, _, quiet₄⟩ := holds
      rw [bloomRead, BloomFilter.decode_encode (reports held rfl).1]
      exact Succeeds.bind (Succeeds.pure (Succeeds.pure ⟨rfl, quiet₄⟩))
  · rintro read after ⟨rfl, quiet₄⟩
    refine Succeeds.pure ⟨⟨valid, reports, blocks, filter ++ (index ++ foot), flat, filled, rfl, ?_⟩,
      toIndexed.trans quiet₄⟩
    show file.bytes = _
    rw [fileBytes, whole, dataDef]

end Reading

/-! ### Point lookups -/

section Lookups

variable {hashes : Hashes} {world : World Fs} {map : SortedMap Key Entry}

/-- A block's first key is its least one. -/
theorem firstKey_le {block : Block} (ascending : block.Pairwise fun one two => one.1 < two.1)
    {entry : Key × Entry} (member : entry ∈ block) : firstKey block ≤ entry.1 := by
  cases block with
  | nil => cases member
  | cons head rest =>
    rcases List.mem_cons.mp member with rfl | member
    · exact le_refl _
    · exact ((List.pairwise_cons.mp ascending).1 entry member).le

/-- The index entries of the blocks whose first key is not above a key. -/
theorem takeWhile_indexOf (key : Key) (blocks : List Block) (offset : Nat) :
    (indexOf hashes blocks offset).takeWhile (fun entry => decide (entry.firstKey ≤ key)) =
      indexOf hashes (blocks.takeWhile fun block => decide (firstKey block ≤ key)) offset := by
  induction blocks generalizing offset with
  | nil => rfl
  | cons block blocks ih =>
    rw [indexOf, List.takeWhile_cons, List.takeWhile_cons]
    by_cases low : firstKey block ≤ key
    · simp only [low, decide_true, if_true, ih, indexOf]
    · simp only [low, decide_false, Bool.false_eq_true, if_false, indexOf]

/-- **The candidate block holds the key's entry, if any block does.** -/
theorem candidateBlock_spec (hashes : Hashes) {blocks : List Block} (filled : ∀ block ∈ blocks, block ≠ [])
    (ascending : blocks.flatten.Pairwise fun one two => one.1 < two.1) (key : Key) :
    (candidateBlock (indexOf hashes blocks 0) key = none ∧
      SortedMap.lookupIn key blocks.flatten = none) ∨
    ∃ front block back, blocks = front ++ block :: back ∧
      candidateBlock (indexOf hashes blocks 0) key =
        some ⟨firstKey block, (dataBytes hashes front).length, (blockBytes hashes block).length⟩ ∧
      SortedMap.lookupIn key blocks.flatten = SortedMap.lookupIn key block := by
  obtain ⟨low, lowDef⟩ : ∃ low, low = blocks.takeWhile fun block => decide (firstKey block ≤ key) :=
    ⟨_, rfl⟩
  obtain ⟨high, highDef⟩ : ∃ high,
      high = blocks.dropWhile fun block => decide (firstKey block ≤ key) := ⟨_, rfl⟩
  have split : blocks = low ++ high := by
    rw [lowDef, highDef, List.takeWhile_append_dropWhile]
  have candidate : candidateBlock (indexOf hashes blocks 0) key =
      (indexOf hashes low 0).getLast? := by
    rw [candidateBlock, takeWhile_indexOf, lowDef]
  have flat : blocks.flatten = low.flatten ++ high.flatten := by rw [split, List.flatten_append]
  rw [flat, List.pairwise_append] at ascending
  -- Above the first block with a larger first key, every key is larger.
  have highNone : SortedMap.lookupIn key high.flatten = none := by
    cases found : high with
    | nil => rfl
    | cons block back =>
      have above : key < firstKey block := by
        have stopped := List.head?_dropWhile_not (fun block => decide (firstKey block ≤ key)) blocks
        rw [← highDef, found] at stopped
        simpa using stopped
      have rest := ascending.2.1
      rw [found, List.flatten_cons] at rest
      rw [SortedMap.lookupIn_eq_none, List.flatten_cons]
      intro entry member
      have blockFilled : block ≠ [] := filled block (by rw [split, found]; simp)
      obtain ⟨head, tail, rfl⟩ := List.exists_cons_of_ne_nil blockFilled
      have least : head.1 ≤ entry.1 := by
        rcases List.mem_append.mp member with here | later
        · exact firstKey_le (List.pairwise_append.mp rest).1 here
        · exact ((List.pairwise_append.mp rest).2.2 head (List.mem_cons_self ..) entry later).le
      exact (lt_of_lt_of_le above least).ne'
  rcases List.eq_nil_or_concat low with empty | ⟨front, block, lowEq⟩
  · refine Or.inl ⟨by rw [candidate, empty]; rfl, ?_⟩
    rw [flat, empty, List.flatten_nil, List.nil_append, highNone]
  · rw [List.concat_eq_append] at lowEq
    refine Or.inr ⟨front, block, high, by rw [split, lowEq]; simp, ?_, ?_⟩
    · rw [candidate, lowEq, indexOf_append_one, List.getLast?_concat, Nat.zero_add]
    · have notAbove : firstKey block ≤ key := by
        have kept : block ∈ blocks.takeWhile fun block => decide (firstKey block ≤ key) := by
          rw [← lowDef, lowEq]
          simp
        simpa using List.all_eq_true.mp List.all_takeWhile block kept
      have lower := ascending.1
      rw [lowEq, List.flatten_append, List.flatten_singleton] at lower
      have frontNone : SortedMap.lookupIn key front.flatten = none := by
        rw [SortedMap.lookupIn_eq_none]
        intro entry member
        have blockFilled : block ≠ [] := filled block (by rw [split, lowEq]; simp)
        obtain ⟨head, tail, rfl⟩ := List.exists_cons_of_ne_nil blockFilled
        have below := (List.pairwise_append.mp lower).2.2 entry member head (List.mem_cons_self ..)
        exact (lt_of_lt_of_le below notAbove).ne
      rw [flat, lowEq, List.flatten_append, List.flatten_singleton, SortedMap.lookupIn_append,
        SortedMap.lookupIn_append, highNone, frontNone, Option.none_or, Option.or_none]

/-- **A lookup in a table is a lookup in its map.** -/
theorem SsTableReader.get_succeeds {reader : SsTableReader} (reads : reader.Reads hashes map)
    (calm : world.Calm) (key : Key) :
    Succeeds (reader.get hashes key) world fun result after =>
      result = Lookup.of (map.find? key) ∧ Quiet world after := by
  obtain ⟨valid, reports, blocks, back, flat, filled, index, bytes⟩ := reads
  have ascending := map.ascending
  rw [← flat] at ascending
  obtain ⟨possible, answer⟩ : ∃ possible, reader.mayContain hashes key = some possible := by
    unfold mayContain
    cases bloom : reader.bloom with
    | none => exact ⟨true, rfl⟩
    | some filter => exact BloomFilter.contains_succeeds (reports filter bloom).1 key
  unfold get
  rw [answer]
  refine Succeeds.bind (Succeeds.pure ?_)
  have lookup : map.find? key = SortedMap.lookupIn key blocks.flatten := by
    rw [flat]
    rfl
  by_cases excluded : possible = true
  · rw [if_neg (not_not_intro excluded), index]
    rcases candidateBlock_spec hashes filled ascending key with
      ⟨none, absent⟩ | ⟨front, block, more, split, candidate, same⟩
    · rw [none]
      refine Succeeds.pure ⟨?_, Quiet.refl _⟩
      rw [lookup, absent]
      rfl
    · rw [candidate]
      simp only
      have inside := block_inside hashes front block more back
      rw [← split, ← bytes] at inside
      refine Succeeds.bind ((Succeeds.of_ensures (FileRead.readAt_succeeds calm inside)
        (FileRead.readAt_ensures _ _)).mono fun _ after holds => ?_)
      obtain ⟨rfl, _, quiet⟩ := holds
      have blockAscending : block.Pairwise fun one two => one.1 < two.1 := by
        rw [split, List.flatten_append, List.flatten_cons] at ascending
        exact (List.pairwise_append.mp (List.pairwise_append.mp ascending).2.1).1
      have blockValid : ∀ entry ∈ block, ValidEntry entry.1 entry.2 := by
        intro entry member
        refine valid entry.1 entry.2 ((map.mem_entries_iff _ _).mp ?_)
        rw [← flat, split, List.flatten_append, List.flatten_cons]
        simp [member]
      rw [bytes, split, slice_block, blockBytes, unchecked_checked]
      refine Succeeds.bind (Succeeds.pure ?_)
      rw [scanBlockForKey_block blockValid blockAscending]
      refine Succeeds.pure ⟨?_, quiet⟩
      rw [lookup, same]
  · -- The filter excludes the key, and it reports every key of the table.
    rw [if_pos excluded]
    refine Succeeds.pure ⟨?_, Quiet.refl _⟩
    have absent : map.find? key = none := by
      by_contra present
      obtain ⟨entry, found⟩ := Option.ne_none_iff_exists'.mp present
      unfold mayContain at answer
      cases bloom : reader.bloom with
      | none =>
        rw [bloom] at answer
        exact excluded (Option.some.inj answer).symm
      | some filter =>
        rw [bloom] at answer
        simp only at answer
        have reported := (reports filter bloom).2 (key, entry) ((map.mem_entries_iff _ _).mpr found)
        rw [answer] at reported
        exact excluded (Option.some.inj reported)
    rw [absent]
    rfl

end Lookups

/-! ### Iteration -/

namespace SsTableIterator

variable {hashes : Hashes} {world : World Fs}

/-- The iterator still has to yield `rest`: the end of the block it is in, then the blocks behind
it. -/
inductive Yields (hashes : Hashes) (iterator : SsTableIterator) (rest : List (Key × Entry)) : Prop
  | between (front : List Block) (back : List Block) (behind : Bytes)
      (index : iterator.index = indexOf hashes (front ++ back) 0)
      (bytes : iterator.file.bytes = dataBytes hashes (front ++ back) ++ behind)
      (here : iterator.blockIdx = front.length) (loaded : iterator.currentBlock = none)
      (valid : ∀ entry ∈ rest, ValidEntry entry.1 entry.2) (left : rest = back.flatten)
  | inside (front : List Block) (done todo : Block) (back : List Block) (behind : Bytes)
      (index : iterator.index = indexOf hashes (front ++ (done ++ todo) :: back) 0)
      (bytes : iterator.file.bytes = dataBytes hashes (front ++ (done ++ todo) :: back) ++ behind)
      (here : iterator.blockIdx = front.length)
      (loaded : iterator.currentBlock = some (blockBody (done ++ todo)))
      (pos : iterator.pos = (blockBody done).length)
      (valid : ∀ entry ∈ rest, ValidEntry entry.1 entry.2) (left : rest = todo ++ back.flatten)

/-- What a call yields when `rest` is left. -/
def Next (hashes : Hashes) (rest : List (Key × Entry)) : Item → Prop
  | (none, next) => rest = [] ∧ next.Yields hashes []
  | (some (.ok entry), next) => ∃ rest', rest = entry :: rest' ∧ next.Yields hashes rest'
  | (some (.error _), _) => False

/-- What a round does when `rest` is left: it yields, or it leaves a finished block. -/
def RoundStep (hashes : Hashes) (rest : List (Key × Entry)) (blockIdx length : Nat) :
    SsTableIterator ⊕ Item → Prop
  | .inr item => Next hashes rest item
  | .inl next => next.Yields hashes rest ∧ next.blockIdx = blockIdx + 1 ∧
      next.currentBlock = none ∧ next.index.length = length ∧ blockIdx < length

/-- The end of a round inside a block. -/
theorem yieldFrom_step (iterator : SsTableIterator) {rest : List (Key × Entry)} {front : List Block}
    (done : Block) {todo : Block} {back : List Block} {behind : Bytes}
    (index : iterator.index = indexOf hashes (front ++ (done ++ todo) :: back) 0)
    (bytes : iterator.file.bytes = dataBytes hashes (front ++ (done ++ todo) :: back) ++ behind)
    (here : iterator.blockIdx = front.length)
    (loaded : iterator.currentBlock = some (blockBody (done ++ todo)))
    (pos : iterator.pos = (blockBody done).length)
    (valid : ∀ entry ∈ rest, ValidEntry entry.1 entry.2) (left : rest = todo ++ back.flatten) :
    RoundStep hashes rest iterator.blockIdx iterator.index.length
      (iterator.yieldFrom (blockBody (done ++ todo))) := by
  unfold yieldFrom
  cases todo with
  | nil =>
    have ended : iterator.pos ≥ (blockBody (done ++ [])).length := by
      rw [pos, List.append_nil]
    rw [if_pos ended]
    have split : front ++ (done ++ []) :: back = (front ++ [done]) ++ back := by simp
    refine ⟨.between (front ++ [done]) back behind ?_ ?_ ?_ rfl valid ?_, rfl, rfl, rfl, ?_⟩
    · rw [← split]
      exact index
    · rw [← split]
      exact bytes
    · show iterator.blockIdx + 1 = _
      rw [here, List.length_append]
      rfl
    · rw [left, List.nil_append]
    · rw [index, indexOf_length, here, List.length_append, List.length_cons]
      omega
  | cons head todo =>
    obtain ⟨key, entry⟩ := head
    have entryValid : ValidEntry key entry := valid (key, entry) (by rw [left]; simp)
    have body : (blockBody (done ++ (key, entry) :: todo)).drop iterator.pos =
        encodeEntry key entry ++ blockBody todo := by
      rw [blockBody_append, pos, List.drop_left, blockBody_cons]
    have size := encodeEntry_length key entry
    rw [encodedEntrySize] at size
    have more : ¬ iterator.pos ≥ (blockBody (done ++ (key, entry) :: todo)).length := by
      rw [blockBody_append, List.length_append, pos, blockBody_cons, List.length_append]
      omega
    rw [if_neg more, body, decodeEntry_encoded entryValid]
    have split : done ++ (key, entry) :: todo = (done ++ [(key, entry)]) ++ todo := by simp
    refine ⟨todo ++ back.flatten, by rw [left]; rfl, .inside front (done ++ [(key, entry)]) todo back
      behind ?_ ?_ here ?_ ?_ ?_ rfl⟩
    · rw [← split]
      exact index
    · rw [← split]
      exact bytes
    · rw [← split]
      exact loaded
    · show iterator.pos + _ = _
      rw [pos, blockBody_append, List.length_append, blockBody_cons, blockBody_nil, List.append_nil]
    · intro other member
      exact valid other (by rw [left]; exact List.mem_cons_of_mem _ member)

/-- The index entry of the block an iterator is in front of. -/
theorem block_entry {iterator : SsTableIterator} {front : List Block} {block : Block}
    {back : List Block} (index : iterator.index = indexOf hashes (front ++ block :: back) 0)
    (here : iterator.blockIdx = front.length) :
    iterator.index[iterator.blockIdx]? = some ⟨firstKey block, (dataBytes hashes front).length,
      (blockBytes hashes block).length⟩ := by
  rw [index, indexOf_append, indexOf, here, ← indexOf_length hashes front 0,
    List.getElem?_append_right (le_refl _), Nat.sub_self, Nat.zero_add]
  rfl

/-- **One round**, on a table file. -/
theorem round_succeeds {iterator : SsTableIterator} {rest : List (Key × Entry)}
    (yields : iterator.Yields hashes rest) (calm : world.Calm) :
    Succeeds (round hashes iterator) world fun result after =>
      RoundStep hashes rest iterator.blockIdx iterator.index.length result ∧ Quiet world after := by
  cases yields with
  | inside front done todo back behind index bytes here loaded pos valid left =>
    unfold round
    rw [loaded]
    exact Succeeds.pure ⟨yieldFrom_step _ _ index bytes here loaded pos valid left, Quiet.refl _⟩
  | between front back behind index bytes here loaded valid left =>
    unfold round
    rw [loaded]
    simp only
    cases back with
    | nil =>
      have past : iterator.index[iterator.blockIdx]? = none := by
        rw [index, List.getElem?_eq_none_iff, indexOf_length, here, List.append_nil]
      rw [past]
      exact Succeeds.pure ⟨⟨left, .between front [] behind index bytes here loaded nofun rfl⟩,
        Quiet.refl _⟩
    | cons block back =>
      have inside := block_inside hashes front block back behind
      rw [← bytes] at inside
      rw [block_entry index here]
      have load : Succeeds (iterator.readBlock hashes ⟨firstKey block,
          (dataBytes hashes front).length, (blockBytes hashes block).length⟩) world
          fun body after => body = blockBody block ∧ Quiet world after := by
        refine Succeeds.bind ((Succeeds.of_ensures (FileRead.readAt_succeeds calm inside)
          (FileRead.readAt_ensures _ _)).mono fun _ after holds => ?_)
        obtain ⟨rfl, _, quiet⟩ := holds
        rw [bytes, slice_block, blockBytes, unchecked_checked]
        exact Succeeds.pure ⟨rfl, quiet⟩
      obtain ⟨body, after, run, rfl, quiet⟩ := load
      refine ⟨_, after, bind_eq_ok.mpr ⟨_, after, attempt_ok run, rfl⟩, ?_, quiet⟩
      exact yieldFrom_step { iterator with currentBlock := some (blockBody block), pos := 0 } [] index
        bytes here rfl rfl valid left

/-- **Iterating over a table** yields the entries of its map in order, then ends. -/
theorem next_succeeds {iterator : SsTableIterator} {rest : List (Key × Entry)}
    (yields : iterator.Yields hashes rest) (calm : world.Calm) :
    Succeeds (next hashes iterator) world fun item after =>
      Next hashes rest item ∧ Quiet world after := by
  unfold next
  -- A round that does not yield leaves a block behind, so the rounds are bounded by the blocks.
  have rounds : ∀ (fuel : Nat) (iterator : SsTableIterator) (world : World Fs),
      iterator.Yields hashes rest → world.Calm →
      iterator.index.length + 1 - iterator.blockIdx < fuel →
      Succeeds (Prog.loop (round hashes) fuel iterator) world fun item after =>
        Next hashes rest item ∧ Quiet world after := by
    intro fuel
    induction fuel with
    | zero => exact fun _ _ _ _ bound => absurd bound (Nat.not_lt_zero _)
    | succ fuel ih =>
      intro iterator world yields calm bound
      refine Succeeds.bind ((round_succeeds yields calm).mono fun result middle holds => ?_)
      obtain ⟨step, quiet⟩ := holds
      cases result with
      | inr item => exact Succeeds.pure ⟨step, quiet⟩
      | inl following =>
        obtain ⟨yields', moved, _, length, inside⟩ := step
        refine (ih following middle yields' (quiet.calm calm) (by omega)).mono
          fun item after holds => ?_
        exact ⟨holds.1, quiet.trans holds.2⟩
  exact rounds _ iterator world yields calm (by omega)

/-- An item that reports an error. -/
def Item.Failed : Item → Prop
  | (some (.error _), _) => True
  | _ => False

/-- A round in a world whose calls may fail. -/
theorem round_ensures {iterator : SsTableIterator} {rest : List (Key × Entry)}
    (yields : iterator.Yields hashes rest) :
    Ensures (round hashes iterator) world fun result _ =>
      RoundStep hashes rest iterator.blockIdx iterator.index.length result ∨
        ∃ item, result = .inr item ∧ item.Failed := by
  cases yields with
  | inside front done todo back behind index bytes here loaded pos valid left =>
    unfold round
    rw [loaded]
    exact Ensures.pure (Or.inl (yieldFrom_step _ _ index bytes here loaded pos valid left))
  | between front back behind index bytes here loaded valid left =>
    unfold round
    rw [loaded]
    simp only
    cases back with
    | nil =>
      have past : iterator.index[iterator.blockIdx]? = none := by
        rw [index, List.getElem?_eq_none_iff, indexOf_length, here, List.append_nil]
      rw [past]
      exact Ensures.pure (Or.inl ⟨left, .between front [] behind index bytes here loaded nofun rfl⟩)
    | cons block back =>
      rw [block_entry index here]
      have load : Ensures (iterator.readBlock hashes ⟨firstKey block,
          (dataBytes hashes front).length, (blockBytes hashes block).length⟩) world
          fun body _ => body = blockBody block := by
        refine Ensures.bind ((FileRead.readAt_ensures _ _).mono fun _ after holds => ?_)
        rw [holds.1, bytes, slice_block, blockBytes, unchecked_checked]
        exact Ensures.pure rfl
      refine Ensures.bind (Ensures.attempt (load.mono fun body after same => ?_) fun error after _ => ?_)
      · subst same
        exact Ensures.pure (Or.inl (yieldFrom_step
          { iterator with currentBlock := some (blockBody block), pos := 0 } [] index bytes here rfl
          rfl valid left))
      · exact Ensures.pure (Or.inr ⟨_, rfl, trivial⟩)

/-- Iterating over a table in a world whose calls may fail: what is yielded is the next entry. -/
theorem next_ensures {iterator : SsTableIterator} {rest : List (Key × Entry)}
    (yields : iterator.Yields hashes rest) :
    Ensures (next hashes iterator) world fun item _ => Next hashes rest item ∨ item.Failed := by
  refine Ensures.loop (fun iterator _ => iterator.Yields hashes rest) ?_ _ _ _ yields
  intro iterator world yields
  refine (round_ensures yields).mono fun result after holds => ?_
  rcases holds with step | ⟨item, rfl, failed⟩
  · cases result with
    | inr item => exact Or.inl step
    | inl following => exact step.1
  · exact Or.inr failed

end SsTableIterator

/-- A fresh iterator has to yield the whole map. -/
theorem SsTableReader.iter_yields {hashes : Hashes} {reader : SsTableReader}
    {map : SortedMap Key Entry} (reads : reader.Reads hashes map) :
    reader.iter.Yields hashes map.entries := by
  obtain ⟨valid, reports, blocks, back, flat, filled, index, bytes⟩ := reads
  exact .between [] blocks back index bytes rfl rfl
    (fun entry member => valid entry.1 entry.2 ((map.mem_entries_iff _ _).mp member)) flat.symm

end Sastran

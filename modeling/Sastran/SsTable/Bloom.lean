/-
The Bloom filter of a table.

`insert` sets the bits a key's digest selects, `contains` asks for all of them. A filter without bits
divides by zero and an access behind the last byte is out of bounds; both are `none` here.

* On a well-formed filter (`BloomFilter.Wf`) nothing fails, an inserted key is reported
  (`contains_insert_self`), and reports only grow (`contains_insert`).
* `decode_encode` and `decode_canonical` - decoding is the inverse of encoding.
* `decoded_safe_iff` - what is decoded is well formed but for filters without bits, which the decoder
  accepts.
-/

import Sastran.Base

namespace Sastran

open LittleEndian

structure BloomFilter where
  m : Nat
  k : Nat
  bits : Bytes

namespace BloomFilter

variable (hashes : Hashes)

def new (expectedKeys bitsPerKey : Nat) : BloomFilter :=
  let m := max (expectedKeys * bitsPerKey % u64Bound) 64
  let k := min (max (bitsPerKey * 69 / 100) 1) 30
  ⟨m, k, List.replicate ((m + 7) / 8) 0⟩

/-- The two halves of a key's digest. -/
def doubleHash (key : Bytes) : UInt64 × UInt64 := hashes.xxh3_128 key

/-- The position the round `i` selects. -/
def synthIndex (digest : UInt64 × UInt64) (i m : Nat) : Option Nat :=
  if m = 0 then none else some ((digest.1.toNat + i * digest.2.toNat) % u64Bound % m)

def mask (bit : Nat) : UInt8 := UInt8.ofNat (2 ^ (bit % 8))

def setBit (bits : Bytes) (bit : Nat) : Option Bytes :=
  if bit / 8 < bits.length then some (bits.set (bit / 8) (bits.getD (bit / 8) 0 ||| mask bit))
  else none

def getBit (bits : Bytes) (bit : Nat) : Option Bool :=
  if bit / 8 < bits.length then some (bits.getD (bit / 8) 0 &&& mask bit != 0) else none

/-- The rounds of an insertion from round `i` on. -/
def insertFrom (filter : BloomFilter) (digest : UInt64 × UInt64) : List Nat → Bytes → Option Bytes
  | [], bits => some bits
  | i :: rounds, bits => do
    let bit ← synthIndex digest i filter.m
    let bits ← setBit bits bit
    insertFrom filter digest rounds bits

def insert (filter : BloomFilter) (key : Bytes) : Option BloomFilter := do
  let bits ← filter.insertFrom (doubleHash hashes key) (List.range filter.k) filter.bits
  some { filter with bits := bits }

/-- The rounds of a query: the first clear bit ends it. -/
def containsFrom (filter : BloomFilter) (digest : UInt64 × UInt64) : List Nat → Option Bool
  | [] => some true
  | i :: rounds => do
    let bit ← synthIndex digest i filter.m
    let held ← getBit filter.bits bit
    if held then containsFrom filter digest rounds else some false

def contains (filter : BloomFilter) (key : Bytes) : Option Bool :=
  filter.containsFrom (doubleHash hashes key) (List.range filter.k)

/-- The encoding without its checksum. -/
def header (filter : BloomFilter) : Bytes :=
  UInt8.ofNat filter.k :: (leBytes 8 filter.m ++ filter.bits)

def encode (filter : BloomFilter) : Bytes :=
  filter.header ++ leBytes 4 (hashes.crc32 filter.header).toNat

def decode (bytes : Bytes) : Except Error BloomFilter :=
  if bytes.length < 1 + 8 + 4 then .error (.corruption "bloom block too short for header + CRC")
  else
    let split := bytes.length - 4
    let storedCrc := UInt32.ofNat (leNat (slice bytes split 4))
    let computedCrc := hashes.crc32 (bytes.take split)
    if storedCrc ≠ computedCrc then
      .error (.corruption (s!"bloom block CRC mismatch: stored {hex32 storedCrc.toNat}, " ++
        s!"computed {hex32 computedCrc.toNat}"))
    else
      let k := (bytes.getD 0 0).toNat
      let m := leNat (slice bytes 1 8)
      let bitBytes := slice bytes 9 (split - 9)
      let expectedBytes := (m + 7) / 8
      if bitBytes.length ≠ expectedBytes then
        .error (.corruption (s!"bloom bit-array size mismatch: declared m = {m} " ++
          s!"({expectedBytes} bytes), got {bitBytes.length} bytes"))
      else if k = 0 then .error (.corruption "bloom k = 0")
      else .ok ⟨m, k, bitBytes⟩

/-! ### Bits -/

theorem and_or_left (one two three : UInt8) :
    one &&& (two ||| three) = one &&& two ||| one &&& three := by
  apply UInt8.toNat_inj.mp
  rw [UInt8.toNat_and, UInt8.toNat_or, UInt8.toNat_or, UInt8.toNat_and, UInt8.toNat_and]
  exact Nat.and_or_distrib_left ..

theorem mask_ne_zero (bit : Nat) : mask bit ≠ 0 := by
  have small : bit % 8 < 8 := Nat.mod_lt _ (by decide)
  have masks : ∀ shift < 8, UInt8.ofNat (2 ^ shift) ≠ 0 := by decide
  exact masks _ small

theorem setBit_length {bits bits' : Bytes} {bit : Nat} (set : setBit bits bit = some bits') :
    bits'.length = bits.length := by
  unfold setBit at set
  split at set
  · cases set
    exact List.length_set
  · cases set

/-- A bit that was set is set. -/
theorem getBit_setBit_self {bits bits' : Bytes} {bit : Nat} (set : setBit bits bit = some bits') :
    getBit bits' bit = some true := by
  have length := setBit_length set
  unfold setBit at set
  split at set
  · rename_i inside
    cases set
    unfold getBit
    rw [if_pos (by rw [length]; exact inside)]
    have both : (bits.getD (bit / 8) 0 ||| mask bit) &&& mask bit ≠ 0 := by
      rw [UInt8.and_comm, and_or_left, UInt8.and_self]
      intro zero
      exact mask_ne_zero bit (UInt8.or_eq_zero_iff.mp zero).2
    have byte : (bits.set (bit / 8) (bits.getD (bit / 8) 0 ||| mask bit)).getD (bit / 8) 0 =
        bits.getD (bit / 8) 0 ||| mask bit := by
      rw [List.getD_eq_getElem?_getD, List.getElem?_set_self inside]
      rfl
    rw [byte]
    simpa using both
  · cases set

/-- Setting a bit clears none. -/
theorem getBit_setBit {bits bits' : Bytes} {bit other : Nat} (set : setBit bits bit = some bits')
    (held : getBit bits other = some true) : getBit bits' other = some true := by
  have length := setBit_length set
  unfold getBit at held ⊢
  rw [length]
  split at held
  · rename_i inside
    rw [if_pos inside]
    unfold setBit at set
    split at set
    · rename_i inside'
      cases set
      by_cases same : bit / 8 = other / 8
      · have byte : (bits.set (bit / 8) (bits.getD (bit / 8) 0 ||| mask bit)).getD (other / 8) 0 =
            bits.getD (other / 8) 0 ||| mask bit := by
          rw [← same, List.getD_eq_getElem?_getD, List.getElem?_set_self inside']
          rfl
        have kept : (bits.getD (other / 8) 0 ||| mask bit) &&& mask other ≠ 0 := by
          rw [UInt8.and_comm, and_or_left, UInt8.and_comm]
          intro zero
          have clear := (UInt8.or_eq_zero_iff.mp zero).1
          have got := Option.some.inj held
          rw [clear] at got
          exact absurd got (by decide)
        rw [byte]
        simpa using kept
      · have byte : (bits.set (bit / 8) (bits.getD (bit / 8) 0 ||| mask bit)).getD (other / 8) 0 =
            bits.getD (other / 8) 0 := by
          rw [List.getD_eq_getElem?_getD, List.getElem?_set_ne same, List.getD_eq_getElem?_getD]
        rw [byte]
        exact held
    · cases set
  · cases held

/-! ### Well-formed filters -/

/-- The filter has bits, as many bytes as they need, and its numbers fit the encoding. -/
structure Wf (filter : BloomFilter) : Prop where
  m_pos : 0 < filter.m
  m_lt : filter.m < u64Bound
  k_pos : 0 < filter.k
  k_lt : filter.k < 256
  length : filter.bits.length = (filter.m + 7) / 8

theorem new_wf (expectedKeys bitsPerKey : Nat) : (new expectedKeys bitsPerKey).Wf := by
  have bounded : expectedKeys * bitsPerKey % u64Bound < u64Bound := Nat.mod_lt _ (by decide)
  have wide : 64 < u64Bound := by decide
  refine ⟨?_, ?_, ?_, ?_, ?_⟩
  · exact lt_of_lt_of_le (by decide) (le_max_right _ 64)
  · exact max_lt bounded wide
  · exact lt_min (lt_of_lt_of_le (by decide) (le_max_right _ 1)) (by decide)
  · exact lt_of_le_of_lt (min_le_right _ 30) (by decide)
  · exact List.length_replicate

section Rounds

variable {filter : BloomFilter} {digest : UInt64 × UInt64}

theorem synthIndex_lt {i m bit : Nat} (found : synthIndex digest i m = some bit) : bit < m := by
  unfold synthIndex at found
  split at found
  · cases found
  · cases found
    exact Nat.mod_lt _ (by omega)

theorem insertFrom_length {rounds : List Nat} {bits bits' : Bytes}
    (inserted : filter.insertFrom digest rounds bits = some bits') : bits'.length = bits.length := by
  induction rounds generalizing bits with
  | nil => cases inserted; rfl
  | cons i rounds ih =>
    simp only [insertFrom, Option.bind_eq_bind, Option.bind_eq_some_iff] at inserted
    obtain ⟨bit, _, middle, set, rest⟩ := inserted
    rw [ih rest, setBit_length set]

theorem insertFrom_kept {rounds : List Nat} {bits bits' : Bytes} {other : Nat}
    (inserted : filter.insertFrom digest rounds bits = some bits')
    (held : getBit bits other = some true) : getBit bits' other = some true := by
  induction rounds generalizing bits with
  | nil => cases inserted; exact held
  | cons i rounds ih =>
    simp only [insertFrom, Option.bind_eq_bind, Option.bind_eq_some_iff] at inserted
    obtain ⟨bit, _, middle, set, rest⟩ := inserted
    exact ih rest (getBit_setBit set held)

/-- On a well-formed filter every round finds its bit. -/
theorem insertFrom_succeeds (digest : UInt64 × UInt64) (wf : filter.Wf) (rounds : List Nat) {bits : Bytes}
    (length : bits.length = (filter.m + 7) / 8) :
    ∃ bits', filter.insertFrom digest rounds bits = some bits' := by
  induction rounds generalizing bits with
  | nil => exact ⟨bits, rfl⟩
  | cons i rounds ih =>
    have nonzero : filter.m ≠ 0 := wf.m_pos.ne'
    obtain ⟨bit, found⟩ : ∃ bit, synthIndex digest i filter.m = some bit :=
      ⟨_, by rw [synthIndex, if_neg nonzero]⟩
    have small := synthIndex_lt found
    obtain ⟨middle, set⟩ : ∃ middle, setBit bits bit = some middle :=
      ⟨_, by rw [setBit, if_pos (by omega)]⟩
    obtain ⟨bits', rest⟩ := ih (by rw [setBit_length set, length])
    exact ⟨bits', by simp only [insertFrom, found, set, rest, Option.bind_eq_bind, Option.bind_some]⟩

/-- The bits the rounds of an insertion selected are set. -/
theorem insertFrom_selected {rounds : List Nat} {bits bits' : Bytes}
    (inserted : filter.insertFrom digest rounds bits = some bits') {i bit : Nat}
    (member : i ∈ rounds) (found : synthIndex digest i filter.m = some bit) :
    getBit bits' bit = some true := by
  induction rounds generalizing bits with
  | nil => cases member
  | cons j rounds ih =>
    simp only [insertFrom, Option.bind_eq_bind, Option.bind_eq_some_iff] at inserted
    obtain ⟨bit', found', middle, set, rest⟩ := inserted
    rcases List.mem_cons.mp member with rfl | member
    · rw [found] at found'
      cases found'
      exact insertFrom_kept rest (getBit_setBit_self set)
    · exact ih rest member

theorem containsFrom_eq_true {rounds : List Nat} : filter.containsFrom digest rounds = some true ↔
    ∀ i ∈ rounds, ∃ bit, synthIndex digest i filter.m = some bit ∧
      getBit filter.bits bit = some true := by
  induction rounds with
  | nil => simp [containsFrom]
  | cons i rounds ih =>
    simp only [containsFrom, Option.bind_eq_bind, Option.bind_eq_some_iff, List.forall_mem_cons]
    constructor
    · rintro ⟨bit, found, held, got, rest⟩
      cases held with
      | true => exact ⟨⟨bit, found, got⟩, ih.mp rest⟩
      | false => simp at rest
    · rintro ⟨⟨bit, found, got⟩, rest⟩
      exact ⟨bit, found, true, got, ih.mpr rest⟩

/-- On a well-formed filter every query has an answer. -/
theorem containsFrom_succeeds (wf : filter.Wf) (rounds : List Nat) :
    ∃ held, filter.containsFrom digest rounds = some held := by
  induction rounds with
  | nil => exact ⟨true, rfl⟩
  | cons i rounds ih =>
    have nonzero : filter.m ≠ 0 := wf.m_pos.ne'
    obtain ⟨bit, found⟩ : ∃ bit, synthIndex digest i filter.m = some bit :=
      ⟨_, by rw [synthIndex, if_neg nonzero]⟩
    have small := synthIndex_lt found
    have length := wf.length
    obtain ⟨held, got⟩ : ∃ held, getBit filter.bits bit = some held :=
      ⟨_, by rw [getBit, if_pos (by omega)]⟩
    obtain ⟨held', rest⟩ := ih
    cases held with
    | true => exact ⟨held', by simp [containsFrom, found, got, rest]⟩
    | false => exact ⟨false, by simp [containsFrom, found, got]⟩

end Rounds

variable {hashes}

section Insert

variable {filter filter' : BloomFilter} {key : Bytes}

theorem insert_eq_some (inserted : filter.insert hashes key = some filter') :
    ∃ bits, filter.insertFrom (doubleHash hashes key) (List.range filter.k) filter.bits = some bits ∧
      filter' = { filter with bits := bits } := by
  simp only [insert, Option.bind_eq_bind, Option.bind_eq_some_iff, Option.some.injEq] at inserted
  obtain ⟨bits, run, rfl⟩ := inserted
  exact ⟨bits, run, rfl⟩

theorem insert_succeeds (hashes : Hashes) (wf : filter.Wf) (key : Bytes) :
    ∃ filter', filter.insert hashes key = some filter' := by
  obtain ⟨bits, run⟩ := insertFrom_succeeds (doubleHash hashes key) wf
    (List.range filter.k) wf.length
  exact ⟨{ filter with bits := bits }, by simp [insert, run]⟩

theorem insert_wf (wf : filter.Wf) (inserted : filter.insert hashes key = some filter') :
    filter'.Wf := by
  obtain ⟨bits, run, rfl⟩ := insert_eq_some inserted
  exact ⟨wf.m_pos, wf.m_lt, wf.k_pos, wf.k_lt, (insertFrom_length run).trans wf.length⟩

/-- An insertion keeps the size. -/
theorem insert_m (inserted : filter.insert hashes key = some filter') : filter'.m = filter.m := by
  obtain ⟨bits, _, rfl⟩ := insert_eq_some inserted
  rfl

/-- **An inserted key is reported.** -/
theorem contains_insert_self (wf : filter.Wf) (inserted : filter.insert hashes key = some filter') :
    filter'.contains hashes key = some true := by
  obtain ⟨bits, run, rfl⟩ := insert_eq_some inserted
  refine containsFrom_eq_true.mpr fun i member => ?_
  have nonzero : filter.m ≠ 0 := wf.m_pos.ne'
  obtain ⟨bit, found⟩ : ∃ bit, synthIndex (doubleHash hashes key) i filter.m = some bit :=
    ⟨_, by rw [synthIndex, if_neg nonzero]⟩
  exact ⟨bit, found, insertFrom_selected run member found⟩

/-- **Reports only grow.** -/
theorem contains_insert {other : Bytes} (inserted : filter.insert hashes key = some filter')
    (reported : filter.contains hashes other = some true) :
    filter'.contains hashes other = some true := by
  obtain ⟨bits, run, rfl⟩ := insert_eq_some inserted
  refine containsFrom_eq_true.mpr fun i member => ?_
  obtain ⟨bit, found, held⟩ := containsFrom_eq_true.mp reported i member
  exact ⟨bit, found, insertFrom_kept run held⟩

theorem contains_succeeds (wf : filter.Wf) (key : Bytes) :
    ∃ held, filter.contains hashes key = some held :=
  containsFrom_succeeds wf _

end Insert

/-! ### The encoding -/

theorem encode_length (hashes : Hashes) (filter : BloomFilter) :
    (filter.encode hashes).length = 1 + 8 + filter.bits.length + 4 := by
  simp only [encode, header, List.length_append, List.length_cons, leBytes_length]
  omega

/-- **A well-formed filter is decoded as it was.** -/
theorem decode_encode {filter : BloomFilter} (wf : filter.Wf) :
    decode hashes (filter.encode hashes) = .ok filter := by
  have length := filter.encode_length hashes
  have headerLen : filter.header.length = 9 + filter.bits.length := by
    simp only [header, List.length_cons, List.length_append, leBytes_length]
    omega
  have split : (filter.encode hashes).length - 4 = filter.header.length := by omega
  have front : (filter.encode hashes).take filter.header.length = filter.header := by
    rw [encode, List.take_left]
  have crc : UInt32.ofNat (leNat (slice (filter.encode hashes) filter.header.length 4)) =
      hashes.crc32 filter.header := by
    rw [encode, slice, List.drop_left, List.take_of_length_le (by rw [leBytes_length]),
      leNat_leBytes_of_lt (UInt32.toNat_lt _)]
    exact UInt32.ofNat_toNat
  have k : ((filter.encode hashes).getD 0 0).toNat = filter.k := by
    show (UInt8.ofNat filter.k).toNat = filter.k
    rw [UInt8.toNat_ofNat', Nat.mod_eq_of_lt wf.k_lt]
  have whole : filter.encode hashes = UInt8.ofNat filter.k :: (leBytes 8 filter.m ++
      (filter.bits ++ leBytes 4 (hashes.crc32 filter.header).toNat)) := by
    simp [encode, header]
  have m : leNat (slice (filter.encode hashes) 1 8) = filter.m := by
    rw [whole, slice, List.drop_succ_cons, List.drop_zero,
      leNat_take_leBytes (lt_of_lt_of_le wf.m_lt (by decide))]
  have bits : slice (filter.encode hashes) 9 (filter.header.length - 9) = filter.bits := by
    rw [headerLen, Nat.add_sub_cancel_left, whole, slice, List.drop_succ_cons,
      List.drop_left' (leBytes_length 8 _), List.take_left]
  unfold decode
  rw [if_neg (by omega)]
  simp only [split, front, crc, ne_eq, not_true_eq_false, if_false, k, m, bits, wf.length]
  rw [if_neg wf.k_pos.ne']

/-- **What decodes is an encoding**, of a filter with as many bytes as its bits need. -/
theorem decode_canonical {bytes : Bytes} {filter : BloomFilter}
    (decoded : decode hashes bytes = .ok filter) :
    filter.encode hashes = bytes ∧ filter.m = leNat (slice bytes 1 8) ∧ filter.m < u64Bound ∧
      0 < filter.k ∧ filter.k < 256 ∧ filter.bits.length = (filter.m + 7) / 8 := by
  unfold decode at decoded
  simp only at decoded
  split_ifs at decoded with short crc sized none
  cases decoded
  have long : 13 ≤ bytes.length := by omega
  have field : (slice bytes (bytes.length - 4) 4).length = 4 := slice_length (by omega)
  have header : BloomFilter.header ⟨leNat (slice bytes 1 8), (bytes.getD 0 0).toNat,
      slice bytes 9 (bytes.length - 4 - 9)⟩ = bytes.take (bytes.length - 4) := by
    have parts : bytes.length - 4 = 1 + (8 + (bytes.length - 4 - 9)) := by omega
    have front : bytes.take (bytes.length - 4) = slice bytes 0 (bytes.length - 4) := by
      rw [slice, List.drop_zero]
    rw [front]
    conv_rhs => rw [parts, slice_add, slice_add, slice_one (by omega)]
    rw [BloomFilter.header, leBytes_slice (by omega), UInt8.ofNat_toNat]
    rfl
  refine ⟨?_, rfl, ?_, Nat.pos_of_ne_zero none, UInt8.toNat_lt _, not_not.mp sized⟩
  · have small : leNat (slice bytes (bytes.length - 4) 4) < 2 ^ 32 := by
      have small := leNat_lt (slice bytes (bytes.length - 4) 4)
      rwa [field] at small
    have stored : (hashes.crc32 (bytes.take (bytes.length - 4))).toNat =
        leNat (slice bytes (bytes.length - 4) 4) := by
      rw [← not_not.mp crc, UInt32.toNat_ofNat', Nat.mod_eq_of_lt small]
    have last : slice bytes (bytes.length - 4) 4 = bytes.drop (bytes.length - 4) := by
      rw [slice, List.take_of_length_le (by rw [List.length_drop]; omega)]
    rw [encode, header, stored, leBytes_slice (by omega), last, List.take_append_drop]
  · have small := leNat_lt (slice bytes 1 8)
    rw [slice_length (by omega)] at small
    exact small

/-! ### Decoded filters -/

/-- Insert keys one after the other. -/
def insertAll (hashes : Hashes) (filter : BloomFilter) (keys : List Bytes) : Option BloomFilter :=
  keys.foldlM (fun filter key => filter.insert hashes key) filter

/-- Insertions succeed, and every key is reported afterwards. -/
theorem insertAll_reports (hashes : Hashes) {filter : BloomFilter} (wf : filter.Wf) (keys : List Bytes) :
    ∃ filled, filter.insertAll hashes keys = some filled ∧ filled.Wf ∧
      (∀ key ∈ keys, filled.contains hashes key = some true) ∧
      ∀ key, filter.contains hashes key = some true → filled.contains hashes key = some true := by
  induction keys generalizing filter with
  | nil => exact ⟨filter, rfl, wf, nofun, fun _ reported => reported⟩
  | cons key rest ih =>
    obtain ⟨next, inserted⟩ := insert_succeeds hashes wf key
    obtain ⟨filled, run, wf', reports, grown⟩ := ih (insert_wf wf inserted)
    refine ⟨filled, ?_, wf', fun other member => ?_, fun other reported =>
      grown other (contains_insert inserted reported)⟩
    · rw [insertAll, List.foldlM_cons, inserted]
      exact run
    · rcases List.mem_cons.mp member with rfl | member
      · exact grown other (contains_insert_self wf inserted)
      · exact reports other member

/-- No operation on the filter divides by zero or leaves the bit array. -/
def Safe (hashes : Hashes) (filter : BloomFilter) : Prop :=
  ∀ key, filter.contains hashes key ≠ none ∧ filter.insert hashes key ≠ none

theorem Wf.safe (hashes : Hashes) {filter : BloomFilter} (wf : filter.Wf) : filter.Safe hashes := by
  intro key
  obtain ⟨held, answered⟩ := @contains_succeeds hashes _ wf key
  obtain ⟨filter', inserted⟩ := insert_succeeds hashes wf key
  rw [answered, inserted]
  exact ⟨nofun, nofun⟩

/-- A filter without bits fails on every key. -/
theorem contains_bitless {filter : BloomFilter} (bitless : filter.m = 0) (positive : 0 < filter.k)
    (key : Bytes) : filter.contains hashes key = none := by
  obtain ⟨rounds, more⟩ := Nat.exists_eq_add_one_of_ne_zero positive.ne'
  rw [contains, more, List.range_succ_eq_map, containsFrom, synthIndex, if_pos bitless]
  rfl

/-- **A decoded filter is safe if and only if it has bits.** Its encoding is the bytes it was decoded
from, and the decoded copy of a filter made by `new` and insertions reports every inserted key. -/
theorem decoded_safe_iff {bytes : Bytes} {filter : BloomFilter}
    (decoded : decode hashes bytes = .ok filter) :
    filter.encode hashes = bytes ∧
      (filter.Safe hashes ↔ leNat (slice bytes 1 8) ≠ 0) ∧
      ∀ expectedKeys bitsPerKey keys, ∃ filled,
        (new expectedKeys bitsPerKey).insertAll hashes keys = some filled ∧
        ∃ copy, decode hashes (filled.encode hashes) = .ok copy ∧
          ∀ key ∈ keys, copy.contains hashes key = some true := by
  obtain ⟨encoded, m, m_lt, k_pos, k_lt, length⟩ := decode_canonical decoded
  refine ⟨encoded, ⟨fun safe zero => ?_, fun bits => ?_⟩, fun expectedKeys bitsPerKey keys => ?_⟩
  · exact (safe []).1 (contains_bitless (m.trans zero) k_pos [])
  · exact Wf.safe hashes ⟨Nat.pos_of_ne_zero (m ▸ bits), m_lt, k_pos, k_lt, length⟩
  · obtain ⟨filled, run, wf, reports, _⟩ := insertAll_reports hashes (new_wf expectedKeys bitsPerKey) keys
    exact ⟨filled, run, filled, decode_encode wf, reports⟩

/-- A filter with two keys. -/
theorem decoded_safe_iff_keys :
    let hashes : Hashes := ⟨fun _ => 0, fun key => (UInt64.ofNat (leNat key), 1)⟩
    ∃ filter, (new 2 10).insertAll hashes [[97], [98]] = some filter ∧
      filter.bits = [0, 0, 0, 0, 254, 0, 0, 0] ∧ decode hashes (filter.encode hashes) = .ok filter ∧
      filter.Safe hashes ∧ ∀ key ∈ [[97], [98]], filter.contains hashes key = some true := by
  intro hashes
  obtain ⟨filter, run, wf, _⟩ := insertAll_reports hashes (new_wf 2 10) [[97], [98]]
  have decoded : decode hashes (filter.encode hashes) = .ok filter := decode_encode wf
  obtain ⟨_, safe, copies⟩ := decoded_safe_iff decoded
  have facts : ((new 2 10).insertAll hashes [[97], [98]]).map (fun filter =>
      (filter.bits, leNat (slice (filter.encode hashes) 1 8))) = some ([0, 0, 0, 0, 254, 0, 0, 0], 64) := by
    decide +kernel
  rw [run] at facts
  obtain ⟨bits, size⟩ := Prod.mk.inj (Option.some.inj facts)
  obtain ⟨filled, run', copy, decoded', reports⟩ := copies 2 10 [[97], [98]]
  rw [run] at run'
  cases run'
  rw [decoded] at decoded'
  cases decoded'
  exact ⟨filter, run, bits, decoded, safe.mpr (by rw [size]; decide), reports⟩

/-- **A decoded filter may have no bits**: the thirteen bytes of a filter with one hash function and no
bits are accepted, and every operation on it divides by zero. -/
theorem decoded_bitless : ¬ ∀ (hashes : Hashes) (bytes : Bytes) (filter : BloomFilter),
    decode hashes bytes = .ok filter → filter.encode hashes = bytes ∧ filter.Safe hashes := by
  intro always
  obtain ⟨_, safe⟩ := always ⟨fun _ => 0, fun _ => (0, 0)⟩ [1, 0, 0, 0, 0, 0, 0, 0, 0, 0, 0, 0, 0]
    ⟨0, 1, []⟩ rfl
  exact (safe []).1 rfl

end BloomFilter

end Sastran

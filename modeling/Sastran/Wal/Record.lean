/-
The records of the write-ahead log.

A record is a checksum over everything behind it, a kind byte, two lengths, the key and the value.
`encode` refuses what `decode` would refuse, `decode` reads the first record of a buffer. The results
are the laws of a prefix code with one form for each record: `decode_eq_ok_iff` (a buffer decodes to
a record exactly when it starts with the record's encoding) and `decode_strict_prefix` (a part of an
encoding is reported as truncated, never as another error).
-/

import Sastran.Base

namespace Sastran

open LittleEndian

/-! ### The format -/

namespace Wal

def HEADER_LEN : Nat := 4 + 1 + 4 + 4

def MAX_KEY_LEN : Nat := 64 * 1024

def MAX_VALUE_LEN : Nat := 64 * 1024 * 1024

def KIND_PUT : UInt8 := 0x01

def KIND_DELETE : UInt8 := 0x02

def KIND_VECTOR : UInt8 := 0x03

end Wal

inductive RecordKind where
  | put
  | vector
  | delete
  deriving DecidableEq, Repr

def RecordKind.toByte : RecordKind → UInt8
  | .put => Wal.KIND_PUT
  | .vector => Wal.KIND_VECTOR
  | .delete => Wal.KIND_DELETE

def RecordKind.fromByte (byte : UInt8) : Option RecordKind :=
  if byte = Wal.KIND_PUT then some .put
  else if byte = Wal.KIND_VECTOR then some .vector
  else if byte = Wal.KIND_DELETE then some .delete
  else none

structure Record where
  kind : RecordKind
  key : Bytes
  value : Bytes
  deriving DecidableEq, Repr

inductive DecodeError where
  | truncated (needed available : Nat)
  | badCrc (stored computed : UInt32)
  | badKind (byte : UInt8)
  | lengthExceedsMax (field : String) (len max : Nat)
  | emptyKey
  | unexpectedDeleteValue
  deriving DecidableEq, Repr

def DecodeError.text : DecodeError → String
  | .truncated needed available =>
    s!"record truncated: needed {needed} bytes, have {available}"
  | .badCrc stored computed =>
    s!"CRC mismatch: stored {hex32 stored.toNat}, computed {hex32 computed.toNat}"
  | .badKind byte => s!"unknown record kind {hex8 byte.toNat}"
  | .lengthExceedsMax field len max => s!"{field} length {len} exceeds maximum {max}"
  | .emptyKey => "record has zero-length key"
  | .unexpectedDeleteValue => "Delete record carries a non-empty value"

def DecodeError.toError (error : DecodeError) : Error := .corruption error.text

namespace Record

variable (hashes : Hashes)

def encodedLen (keyLen valueLen : Nat) : Nat := Wal.HEADER_LEN + keyLen + valueLen

/-- Everything behind the checksum. -/
def payload (kind : RecordKind) (key value : Bytes) : Bytes :=
  kind.toByte :: (leBytes 4 key.length ++ (leBytes 4 value.length ++ (key ++ value)))

/-- The bytes of a record. -/
def image (kind : RecordKind) (key value : Bytes) : Bytes :=
  leBytes 4 (hashes.crc32 (payload kind key value)).toNat ++ payload kind key value

def encode (kind : RecordKind) (key value : Bytes) : Except Error Bytes :=
  if key.isEmpty then .error (.invalidArgument "empty key")
  else if key.length > Wal.MAX_KEY_LEN then
    .error (.invalidArgument s!"key length {key.length} exceeds maximum {Wal.MAX_KEY_LEN}")
  else if value.length > Wal.MAX_VALUE_LEN then
    .error (.invalidArgument s!"value length {value.length} exceeds maximum {Wal.MAX_VALUE_LEN}")
  else if kind = .delete ∧ ¬ value.isEmpty then
    .error (.invalidArgument "value must be empty for Delete records")
  else .ok (image hashes kind key value)

/-- The length of the record a buffer starts with, read off its header. -/
def totalLen (buf : Bytes) : Except DecodeError Nat :=
  if buf.length < Wal.HEADER_LEN then .error (.truncated Wal.HEADER_LEN buf.length)
  else
    let keyLen := leNat (slice buf 5 4)
    let valueLen := leNat (slice buf 9 4)
    if keyLen = 0 then .error .emptyKey
    else if keyLen > Wal.MAX_KEY_LEN then
      .error (.lengthExceedsMax "key" keyLen Wal.MAX_KEY_LEN)
    else if valueLen > Wal.MAX_VALUE_LEN then
      .error (.lengthExceedsMax "value" valueLen Wal.MAX_VALUE_LEN)
    else .ok (encodedLen keyLen valueLen)

/-- The record that fills a buffer's first `total` bytes. -/
def decodeBody (buf : Bytes) (total : Nat) : Except DecodeError (Record × Nat) :=
  let storedCrc := UInt32.ofNat (leNat (slice buf 0 4))
  let keyLen := leNat (slice buf 5 4)
  let valueLen := leNat (slice buf 9 4)
  let computedCrc := hashes.crc32 (slice buf 4 (total - 4))
  if computedCrc ≠ storedCrc then .error (.badCrc storedCrc computedCrc)
  else
    match RecordKind.fromByte (buf.getD 4 0) with
    | none => .error (.badKind (buf.getD 4 0))
    | some kind =>
      let key := slice buf Wal.HEADER_LEN keyLen
      let value := slice buf (Wal.HEADER_LEN + keyLen) valueLen
      if kind = .delete ∧ ¬ value.isEmpty then .error .unexpectedDeleteValue
      else .ok (⟨kind, key, value⟩, total)

/-- The first record of a buffer and the number of bytes it takes. -/
def decode (buf : Bytes) : Except DecodeError (Record × Nat) :=
  match totalLen buf with
  | .error error => .error error
  | .ok total =>
    if buf.length < total then .error (.truncated total buf.length)
    else decodeBody hashes buf total

end Record

/-! ### What is accepted -/

theorem RecordKind.fromByte_toByte (kind : RecordKind) : fromByte kind.toByte = some kind := by
  cases kind <;> rfl

theorem RecordKind.toByte_of_fromByte {byte : UInt8} {kind : RecordKind}
    (found : fromByte byte = some kind) : kind.toByte = byte := by
  unfold fromByte at found
  split_ifs at found with put vector delete <;> cases found
  · exact put.symm
  · exact vector.symm
  · exact delete.symm

/-- The records that have an encoding. -/
structure Record.Valid (record : Record) : Prop where
  key_ne_nil : record.key ≠ []
  key_le : record.key.length ≤ Wal.MAX_KEY_LEN
  value_le : record.value.length ≤ Wal.MAX_VALUE_LEN
  delete : record.kind = .delete → record.value = []

namespace Record

variable {hashes : Hashes}

/-- The encoding of a record. -/
def bytes (hashes : Hashes) (record : Record) : Bytes :=
  image hashes record.kind record.key record.value

theorem encode_eq_ok_iff {kind : RecordKind} {key value image : Bytes} :
    encode hashes kind key value = .ok image ↔
      Valid ⟨kind, key, value⟩ ∧ image = bytes hashes ⟨kind, key, value⟩ := by
  constructor
  · intro encoded
    unfold encode at encoded
    split_ifs at encoded with empty long longValue delete
    refine ⟨⟨?_, by simpa using long, by simpa using longValue, ?_⟩, (Except.ok.inj encoded).symm⟩
    · simpa using empty
    · intro deleted
      by_contra filled
      exact delete ⟨deleted, by simpa using filled⟩
  · rintro ⟨valid, rfl⟩
    obtain ⟨keyFilled, keyShort, valueShort, delete⟩ := valid
    unfold encode
    rw [if_neg (by simpa using keyFilled), if_neg (by simpa using keyShort),
      if_neg (by simpa using valueShort), if_neg]
    · rfl
    · rintro ⟨deleted, filled⟩
      exact filled (by simpa using delete deleted)

theorem payload_length (kind : RecordKind) (key value : Bytes) :
    (payload kind key value).length = 9 + key.length + value.length := by
  simp only [payload, List.length_cons, List.length_append, leBytes_length]
  omega

@[simp] theorem bytes_length (record : Record) :
    (record.bytes hashes).length = encodedLen record.key.length record.value.length := by
  simp only [bytes, image, List.length_append, leBytes_length, payload_length, encodedLen,
    Wal.HEADER_LEN]
  omega

/-! ### The fields of an encoding -/

section Fields

variable (record : Record) (rest : Bytes)

theorem slice_crc : slice (record.bytes hashes ++ rest) 0 4 =
    leBytes 4 (hashes.crc32 (payload record.kind record.key record.value)).toNat := by
  simp only [bytes, image, slice, List.drop_zero, List.append_assoc]
  exact List.take_left' (leBytes_length 4 _)

theorem slice_payload (count : Nat)
    (whole : count = 9 + record.key.length + record.value.length) :
    slice (record.bytes hashes ++ rest) 4 count =
      payload record.kind record.key record.value := by
  simp only [bytes, image, slice, List.append_assoc]
  rw [List.drop_left' (leBytes_length 4 _)]
  exact List.take_left' (by rw [payload_length, whole])

theorem kind_byte : (record.bytes hashes ++ rest).getD 4 0 = record.kind.toByte := by
  simp only [bytes, image, List.append_assoc, List.getD_eq_getElem?_getD]
  rw [List.getElem?_append_right (by rw [leBytes_length]), leBytes_length]
  rfl

/-- Behind the checksum and the kind byte. -/
theorem drop_five : (record.bytes hashes ++ rest).drop 5 =
    leBytes 4 record.key.length ++
      (leBytes 4 record.value.length ++ (record.key ++ (record.value ++ rest))) := by
  have split : (5 : Nat) = 4 + 1 := rfl
  simp only [bytes, image, List.append_assoc]
  rw [split, ← List.drop_drop, List.drop_left' (leBytes_length 4 _)]
  simp [payload]

theorem slice_keyLen : slice (record.bytes hashes ++ rest) 5 4 = leBytes 4 record.key.length := by
  rw [slice, drop_five]
  exact List.take_left' (leBytes_length 4 _)

theorem slice_valueLen :
    slice (record.bytes hashes ++ rest) 9 4 = leBytes 4 record.value.length := by
  have split : (9 : Nat) = 5 + 4 := rfl
  rw [slice, split, ← List.drop_drop, drop_five, List.drop_left' (leBytes_length 4 _)]
  exact List.take_left' (leBytes_length 4 _)

theorem drop_header : (record.bytes hashes ++ rest).drop Wal.HEADER_LEN =
    record.key ++ (record.value ++ rest) := by
  have split : Wal.HEADER_LEN = 5 + 4 + 4 := rfl
  rw [split, ← List.drop_drop, ← List.drop_drop, drop_five, List.drop_left' (leBytes_length 4 _),
    List.drop_left' (leBytes_length 4 _)]

theorem slice_key :
    slice (record.bytes hashes ++ rest) Wal.HEADER_LEN record.key.length = record.key := by
  rw [slice, drop_header]
  exact List.take_left

theorem slice_value :
    slice (record.bytes hashes ++ rest) (Wal.HEADER_LEN + record.key.length) record.value.length =
      record.value := by
  rw [slice, ← List.drop_drop, drop_header, List.drop_left]
  exact List.take_left

end Fields

/-! ### Decoding an encoding -/

section Decode

variable {record : Record} (valid : record.Valid)

include valid

theorem leNat_keyLen : leNat (leBytes 4 record.key.length) = record.key.length := by
  refine leNat_leBytes_of_lt (lt_of_le_of_lt valid.key_le ?_)
  decide

theorem leNat_valueLen : leNat (leBytes 4 record.value.length) = record.value.length := by
  refine leNat_leBytes_of_lt (lt_of_le_of_lt valid.value_le ?_)
  decide

theorem totalLen_bytes (rest : Bytes) :
    totalLen (record.bytes hashes ++ rest) = .ok (record.bytes hashes).length := by
  have filled : record.key.length ≠ 0 := fun zero => valid.key_ne_nil (List.length_eq_zero_iff.mp zero)
  have long : ¬ (record.bytes hashes ++ rest).length < Wal.HEADER_LEN := by
    rw [List.length_append, bytes_length, encodedLen]
    omega
  have short := valid.key_le
  have shortValue := valid.value_le
  simp only [totalLen, slice_keyLen, slice_valueLen, leNat_keyLen valid, leNat_valueLen valid,
    bytes_length]
  rw [if_neg long, if_neg filled, if_neg (by omega), if_neg (by omega)]

theorem decodeBody_bytes (rest : Bytes) :
    decodeBody hashes (record.bytes hashes ++ rest) (record.bytes hashes).length =
      .ok (record, (record.bytes hashes).length) := by
  have stored : UInt32.ofNat (leNat (slice (record.bytes hashes ++ rest) 0 4)) =
      hashes.crc32 (payload record.kind record.key record.value) := by
    rw [slice_crc, leNat_leBytes_of_lt (UInt32.toNat_lt _)]
    exact UInt32.ofNat_toNat
  have computed : slice (record.bytes hashes ++ rest) 4 ((record.bytes hashes).length - 4) =
      payload record.kind record.key record.value :=
    slice_payload record rest _ (by rw [bytes_length, encodedLen, Wal.HEADER_LEN]; omega)
  unfold decodeBody
  simp only [stored, computed, ne_eq, not_true_eq_false, if_false, kind_byte,
    RecordKind.fromByte_toByte, slice_keyLen, slice_valueLen, leNat_keyLen valid,
    leNat_valueLen valid, slice_key, slice_value]
  rw [if_neg]
  rintro ⟨deleted, kept⟩
  exact kept (by simpa using valid.delete deleted)

/-- **A buffer that starts with an encoding** decodes to the record. -/
theorem decode_bytes (rest : Bytes) :
    decode hashes (record.bytes hashes ++ rest) = .ok (record, (record.bytes hashes).length) := by
  have long : ¬ (record.bytes hashes ++ rest).length < (record.bytes hashes).length := by
    rw [List.length_append]
    omega
  rw [decode, totalLen_bytes valid]
  simp only [if_neg long, decodeBody_bytes valid]

end Decode

/-! ### One form for each record -/

section Canonical

variable {buf : Bytes}

theorem totalLen_eq_ok {total : Nat} (read : totalLen buf = .ok total) :
    Wal.HEADER_LEN ≤ buf.length ∧ leNat (slice buf 5 4) ≠ 0 ∧
      leNat (slice buf 5 4) ≤ Wal.MAX_KEY_LEN ∧ leNat (slice buf 9 4) ≤ Wal.MAX_VALUE_LEN ∧
      total = encodedLen (leNat (slice buf 5 4)) (leNat (slice buf 9 4)) := by
  unfold totalLen at read
  simp only at read
  split_ifs at read with short zero long longValue
  exact ⟨by omega, zero, by omega, by omega, (Except.ok.inj read).symm⟩

/-- The fields of a buffer, encoded again, are its first bytes. -/
theorem bytes_fields {kind : RecordKind} {keyLen valueLen : Nat}
    (whole : encodedLen keyLen valueLen ≤ buf.length)
    (keyField : leNat (slice buf 5 4) = keyLen) (valueField : leNat (slice buf 9 4) = valueLen)
    (crc : hashes.crc32 (slice buf 4 (encodedLen keyLen valueLen - 4)) =
      UInt32.ofNat (leNat (slice buf 0 4)))
    (found : RecordKind.fromByte (buf.getD 4 0) = some kind) :
    bytes hashes ⟨kind, slice buf Wal.HEADER_LEN keyLen,
      slice buf (Wal.HEADER_LEN + keyLen) valueLen⟩ = buf.take (encodedLen keyLen valueLen) := by
  have headerLen : Wal.HEADER_LEN = 13 := rfl
  rw [encodedLen] at whole crc ⊢
  have key_length : (slice buf Wal.HEADER_LEN keyLen).length = keyLen := slice_length (by omega)
  have value_length : (slice buf (Wal.HEADER_LEN + keyLen) valueLen).length = valueLen :=
    slice_length (by omega)
  have parts : buf.take (Wal.HEADER_LEN + keyLen + valueLen) =
      slice buf 0 4 ++ slice buf 4 (Wal.HEADER_LEN + keyLen + valueLen - 4) := by
    rw [← slice_add buf 0 4, slice, List.drop_zero]
    congr 1
    omega
  have body : payload kind (slice buf Wal.HEADER_LEN keyLen)
      (slice buf (Wal.HEADER_LEN + keyLen) valueLen) =
        slice buf 4 (Wal.HEADER_LEN + keyLen + valueLen - 4) := by
    have split : Wal.HEADER_LEN + keyLen + valueLen - 4 = 1 + (4 + (4 + (keyLen + valueLen))) := by
      omega
    rw [payload, key_length, value_length, ← keyField, ← valueField, leBytes_slice (by omega),
      leBytes_slice (by omega), keyField, valueField, split, slice_add, slice_add, slice_add,
      slice_add, slice_one (by omega), RecordKind.toByte_of_fromByte found]
    rfl
  have checksum :
      leBytes 4 (hashes.crc32 (slice buf 4 (Wal.HEADER_LEN + keyLen + valueLen - 4))).toNat =
        slice buf 0 4 := by
    have small : leNat (slice buf 0 4) < 2 ^ 32 := by
      have small := leNat_lt (slice buf 0 4)
      rwa [slice_length (by omega)] at small
    rw [crc, UInt32.toNat_ofNat', Nat.mod_eq_of_lt small]
    exact leBytes_slice (by omega)
  rw [bytes, Record.image]
  simp only
  rw [body, checksum, parts]

/-- **What decodes is an encoding**: the bytes taken are the record's only form. -/
theorem decode_canonical {record : Record} {consumed : Nat}
    (decoded : decode hashes buf = .ok (record, consumed)) :
    record.Valid ∧ consumed = (record.bytes hashes).length ∧
      buf = record.bytes hashes ++ buf.drop consumed := by
  unfold decode at decoded
  cases read : totalLen buf with
  | error error => rw [read] at decoded; cases decoded
  | ok total =>
    obtain ⟨header, filled, keyShort, valueShort, rfl⟩ := totalLen_eq_ok read
    rw [read] at decoded
    unfold decodeBody at decoded
    simp only at decoded
    split at decoded
    · cases decoded
    rename_i whole
    split at decoded
    · cases decoded
    rename_i crc
    push Not at crc
    cases found : RecordKind.fromByte (buf.getD 4 0) with
    | none => rw [found] at decoded; cases decoded
    | some kind =>
      rw [found] at decoded
      simp only at decoded
      split at decoded
      · cases decoded
      rename_i delete
      simp only [Except.ok.injEq, Prod.mk.injEq] at decoded
      obtain ⟨rfl, rfl⟩ := decoded
      have image := bytes_fields (by omega) rfl rfl crc found
      rw [encodedLen] at whole
      have keyLen : (slice buf Wal.HEADER_LEN (leNat (slice buf 5 4))).length =
          leNat (slice buf 5 4) := slice_length (by omega)
      have valueLen : (slice buf (Wal.HEADER_LEN + leNat (slice buf 5 4))
          (leNat (slice buf 9 4))).length = leNat (slice buf 9 4) := slice_length (by omega)
      refine ⟨⟨?_, ?_, ?_, ?_⟩, ?_, ?_⟩
      · intro (empty : slice buf Wal.HEADER_LEN (leNat (slice buf 5 4)) = [])
        rw [empty, List.length_nil] at keyLen
        exact filled keyLen.symm
      · exact keyLen.trans_le keyShort
      · exact valueLen.trans_le valueShort
      · intro deleted
        by_contra kept
        exact delete ⟨deleted, by simpa using kept⟩
      · rw [bytes_length, keyLen, valueLen]
      · rw [image]
        exact (List.take_append_drop _ buf).symm

/-- **The decoder reads exactly the encodings.** -/
theorem decode_eq_ok_iff {record : Record} {consumed : Nat} :
    decode hashes buf = .ok (record, consumed) ↔
      record.Valid ∧ consumed = (record.bytes hashes).length ∧ record.bytes hashes <+: buf := by
  constructor
  · intro decoded
    obtain ⟨valid, length, whole⟩ := decode_canonical decoded
    exact ⟨valid, length, buf.drop consumed, whole.symm⟩
  · rintro ⟨valid, rfl, rest, rfl⟩
    exact decode_bytes valid rest

end Canonical

/-! ### Parts of an encoding -/

/-- The header decides the length of the record. -/
theorem totalLen_take {buf : Bytes} {count : Nat} (header : Wal.HEADER_LEN ≤ count)
    (inside : count ≤ buf.length) : totalLen (buf.take count) = totalLen buf := by
  have headerLen : Wal.HEADER_LEN = 13 := rfl
  have same : ∀ start, start + 4 ≤ Wal.HEADER_LEN →
      slice (buf.take count) start 4 = slice buf start 4 := by
    intro start fits
    rw [slice, slice, List.drop_take, List.take_take, Nat.min_eq_left (by omega)]
  have long : ¬ (buf.take count).length < Wal.HEADER_LEN := by
    rw [List.length_take]
    omega
  have long' : ¬ buf.length < Wal.HEADER_LEN := by omega
  simp only [totalLen, if_neg long, if_neg long', same 5 (by omega), same 9 (by omega)]

/-- A whole header is never reported as truncated. -/
theorem totalLen_ne_truncated {buf : Bytes} (header : Wal.HEADER_LEN ≤ buf.length)
    (needed available : Nat) : totalLen buf ≠ .error (.truncated needed available) := by
  intro read
  unfold totalLen at read
  simp only at read
  split_ifs at read with short
  · omega
  · cases read
  · cases read
  · cases read

/-- Nor is a whole record. -/
theorem decodeBody_ne_truncated (buf : Bytes) (total needed available : Nat) :
    decodeBody hashes buf total ≠ .error (.truncated needed available) := by
  intro read
  unfold decodeBody at read
  simp only at read
  split at read
  · cases read
  · split at read
    · cases read
    · split at read <;> cases read

/-- A bare header never decodes: it says how long its record is, or it is refused. -/
theorem decode_header {buf : Bytes} (header : Wal.HEADER_LEN ≤ buf.length) :
    decode hashes (buf.take Wal.HEADER_LEN) =
      match totalLen buf with
      | .error error => .error error
      | .ok total => .error (.truncated total Wal.HEADER_LEN) := by
  have length : (buf.take Wal.HEADER_LEN).length = Wal.HEADER_LEN := by
    rw [List.length_take]
    omega
  rw [decode, totalLen_take (le_refl _) header]
  cases read : totalLen buf with
  | error error => rfl
  | ok total =>
    obtain ⟨_, filled, _, _, rfl⟩ := totalLen_eq_ok read
    have longer : Wal.HEADER_LEN < encodedLen (leNat (slice buf 5 4)) (leNat (slice buf 9 4)) := by
      rw [encodedLen]
      omega
    simp only [length, if_pos longer]

/-- **A part of an encoding is reported as truncated.** -/
theorem decode_strict_prefix {record : Record} (valid : record.Valid) {part : Bytes}
    (front : part <+: record.bytes hashes) (strict : part.length < (record.bytes hashes).length) :
    ∃ needed, decode hashes part = .error (.truncated needed part.length) := by
  by_cases short : part.length < Wal.HEADER_LEN
  · exact ⟨Wal.HEADER_LEN, by rw [decode, totalLen, if_pos short]⟩
  · have part_eq : part = (record.bytes hashes).take part.length :=
      List.prefix_iff_eq_take.mp front
    have whole : totalLen (record.bytes hashes ++ []) = _ := totalLen_bytes valid []
    rw [List.append_nil] at whole
    have total : totalLen part = .ok (record.bytes hashes).length := by
      rw [part_eq, totalLen_take (by omega) (by omega), whole]
    exact ⟨(record.bytes hashes).length, by rw [decode, total]; simp only [if_pos strict]⟩

/-- **No encoding is a part of another.** -/
theorem bytes_prefix_free {first second : Record} (valid : first.Valid) (valid' : second.Valid)
    (front : first.bytes hashes <+: second.bytes hashes) : first = second := by
  have one := decode_eq_ok_iff.mpr ⟨valid, rfl, front⟩
  have two : decode hashes (second.bytes hashes ++ []) = _ := decode_bytes valid' []
  rw [List.append_nil, one] at two
  exact (Prod.mk.inj (Except.ok.inj two)).1

/-- **The codec is a prefix code with one form for each record.** What `encode` accepts decodes in
front of any bytes and is reported as truncated when cut anywhere; what `decode` accepts is what
`encode` makes of the record. -/
theorem prefix_code (hashes : Hashes) :
    (∀ kind key value encoded, encode hashes kind key value = .ok encoded →
      (∀ rest, decode hashes (encoded ++ rest) = .ok (⟨kind, key, value⟩, encoded.length)) ∧
      ∀ part, part <+: encoded → part ≠ encoded →
        ∃ needed, decode hashes part = .error (.truncated needed part.length)) ∧
    ∀ buf record consumed, decode hashes buf = .ok (record, consumed) →
      consumed ≤ buf.length ∧
        encode hashes record.kind record.key record.value = .ok (buf.take consumed) := by
  constructor
  · intro kind key value encoded accepted
    obtain ⟨valid, rfl⟩ := encode_eq_ok_iff.mp accepted
    refine ⟨decode_bytes valid, fun part front cut => ?_⟩
    have shorter : part.length < (bytes hashes ⟨kind, key, value⟩).length :=
      lt_of_le_of_ne front.length_le fun same => cut (front.eq_of_length same)
    exact decode_strict_prefix valid front shorter
  · intro buf record consumed decoded
    obtain ⟨valid, rfl, front⟩ := decode_eq_ok_iff.mp decoded
    refine ⟨front.length_le, encode_eq_ok_iff.mpr ⟨valid, ?_⟩⟩
    exact (List.prefix_iff_eq_take.mp front).symm

/-- A put, its encoding cut in the key, and its encoding in front of another byte. -/
theorem prefix_code_put :
    let hashes : Hashes := ⟨fun _ => 7, fun _ => (0, 0)⟩
    let encoded : Bytes := [7, 0, 0, 0, 1, 2, 0, 0, 0, 1, 0, 0, 0, 5, 6, 9]
    encode hashes .put [5, 6] [9] = .ok encoded ∧
      decode hashes (encoded ++ [1]) = .ok (⟨.put, [5, 6], [9]⟩, 16) ∧
      (∃ needed, decode hashes (encoded.take 14) = .error (.truncated needed 14)) ∧
      encode hashes .put [5, 6] [9] = .ok ((encoded ++ [1]).take 16) := by
  intro hashes encoded
  have accepted : encode hashes .put [5, 6] [9] = .ok encoded := by decide
  obtain ⟨forwards, backwards⟩ := prefix_code hashes
  obtain ⟨decodes, truncated⟩ := forwards _ _ _ _ accepted
  have decoded := decodes [1]
  exact ⟨accepted, decoded, truncated (encoded.take 14) (List.take_prefix ..) (by decide),
    (backwards _ _ _ decoded).2⟩

end Record

end Sastran

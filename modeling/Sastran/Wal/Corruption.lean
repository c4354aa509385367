/-
The log reader on files nobody wrote, and on logs that were damaged.

On any file a reader yields records that are there, and ends where the log does or with a report of
corruption (`open_any`, `nextRecord_any`). Where the first bytes of a log have a record that was damaged,
up to four bytes in a row of its checksum or of what is behind its lengths, no reader gets past it
(`Record.Damaged.decode`, `Refused.not_log`).
-/

import Sastran.Checksum
import Sastran.SsTable.AnyFile
import Sastran.Wal.Log

namespace Sastran

open Device LittleEndian

variable {hashes : Hashes} {world : World Fs}

/-! ### Any file -/

namespace WalReader

open SsTableReader in
/-- **Opening any file** ends with a reader behind the header, or reports corruption. -/
theorem open_any {name : FileName} {bytes : Bytes} (calm : world.Calm)
    (here : world.now.content name = some bytes) :
    Ends Error.IsCorruption (WalReader.open name) world fun reader after =>
      reader.Reading ∧ reader.file.bytes = bytes ∧ bytes = Wal.fileHeader ++ reader.rest ∧
        Quiet world after := by
  refine Ends.bind (((Io.openRead_succeeds calm (by rw [here]; exact Option.some_ne_none _)).and_ensures
    (Io.openRead_ensures name)).ends.mono fun file opened holds => ?_)
  obtain ⟨_, found, quiet⟩ := holds
  obtain rfl : bytes = file.bytes := Option.some.inj (here.symm.trans found)
  refine Ends.bind (((FileRead.len_succeeds (quiet.calm calm)).and_ensures
    FileRead.len_ensures).ends.mono fun fileLen sized holds => ?_)
  obtain ⟨_, rfl, quiet'⟩ := holds
  have calm' := quiet'.calm (quiet.calm calm)
  by_cases short : file.bytes.length < Wal.FILE_HEADER_LEN
  · rw [if_pos short]
    exact ⟨_, rfl⟩
  rw [if_neg short]
  have inside : 0 + Wal.FILE_HEADER_LEN ≤ file.bytes.length := by omega
  refine Ends.bind (((FileRead.readAt_succeeds calm' inside).and_ensures
    (FileRead.readAt_ensures 0 Wal.FILE_HEADER_LEN)).ends.mono fun header last holds => ?_)
  obtain ⟨_, rfl, _, quiet''⟩ := holds
  by_cases magic : (slice file.bytes 0 Wal.FILE_HEADER_LEN).take 8 = Wal.MAGIC
  · rw [if_neg (not_not.mpr magic)]
    by_cases version : leNat ((slice file.bytes 0 Wal.FILE_HEADER_LEN).drop 8) = Wal.FORMAT_VERSION
    · simp only [if_neg (not_not.mpr version)]
      refine Ends.pure ⟨⟨rfl, rfl⟩, rfl, ?_, (quiet.trans quiet').trans quiet''⟩
      have four : ((slice file.bytes 0 Wal.FILE_HEADER_LEN).drop 8).length = 4 := by
        rw [List.length_drop, slice_length inside]
        rfl
      have header : slice file.bytes 0 Wal.FILE_HEADER_LEN = Wal.fileHeader := by
        rw [← List.take_append_drop 8 (slice file.bytes 0 Wal.FILE_HEADER_LEN), magic,
          ← leBytes_leNat ((slice file.bytes 0 Wal.FILE_HEADER_LEN).drop 8), four, version]
        rfl
      rw [← header]
      exact (List.take_append_drop Wal.FILE_HEADER_LEN file.bytes).symm
    · simp only [if_pos version]
      exact ⟨_, rfl⟩
  · rw [if_pos magic]
    exact ⟨_, rfl⟩

/-- **A call on any file** reads the record that is there, ends where the log ends, or reports
corruption. -/
theorem nextRecord_any {reader : WalReader} (reading : reader.Reading) (calm : world.Calm) :
    Ends Error.IsCorruption (nextRecord hashes reader) world fun result after =>
      Step hashes reader result ∧ Quiet world after := by
  have scanned : Ends Error.IsCorruption (nextRecord hashes reader) world fun _ _ => True := by
    have length : reader.rest.length = reader.fileLen - reader.offset := by
      rw [rest, List.length_drop, reading.fileLen]
    have bytes_length := reading.fileLen
    unfold nextRecord
    rw [if_neg (by rw [reading.going]; exact Bool.false_ne_true)]
    by_cases ended : reader.offset ≥ reader.fileLen
    · rw [if_pos ended]
      exact Ends.pure trivial
    rw [if_neg ended]
    by_cases short : reader.fileLen - reader.offset < Wal.HEADER_LEN
    · simp only [if_pos short]
      exact Ends.pure trivial
    simp only [if_neg short]
    refine Ends.bind (((FileRead.readAt_succeeds calm (by omega)).and_ensures
      (FileRead.readAt_ensures _ _)).ends.mono fun scratch middle holds => ?_)
    obtain ⟨_, rfl, _, quiet⟩ := holds
    rw [slice_offset, Record.decode_header (by omega)]
    cases total : Record.totalLen reader.rest with
    | error error =>
      cases error with
      | truncated needed available =>
        exact absurd total (Record.totalLen_ne_truncated (by omega) needed available)
      | _ => exact ⟨_, rfl⟩
    | ok needed =>
      simp only
      by_cases torn : reader.fileLen - reader.offset < needed
      · rw [if_pos torn]
        exact Ends.pure trivial
      rw [if_neg torn]
      refine Ends.bind (((FileRead.readAt_succeeds (quiet.calm calm) (by omega)).and_ensures
        (FileRead.readAt_ensures _ _)).ends.mono fun scratch last holds => ?_)
      obtain ⟨_, rfl, _, _⟩ := holds
      rw [slice_offset]
      cases decoded : Record.decode hashes (reader.rest.take needed) with
      | ok result => exact Ends.pure trivial
      | error error => exact ⟨_, rfl⟩
  exact Ends.of_ensures scanned (nextRecord_ensures reading)

end WalReader

/-! ### Damaged records -/

/-- No record starts here, and the bytes are not taken for the end of a log. -/
def Refused (hashes : Hashes) (bytes : Bytes) : Prop :=
  ∃ error, Record.decode hashes bytes = .error error ∧
    ∀ needed available, error ≠ .truncated needed available

/-- A byte string that has such a place behind whole records is no log. -/
theorem Refused.not_log {bytes : Bytes} (refused : Refused hashes bytes) {before : List Record}
    (valid : ∀ record ∈ before, record.Valid) {records : List Record} {tail : Bytes}
    (valid' : ∀ record ∈ records, record.Valid) (ends : EndOfLog hashes tail) :
    logBytes hashes before ++ bytes ≠ logBytes hashes records ++ tail := by
  obtain ⟨error, refusal, never⟩ := refused
  induction before generalizing records with
  | nil =>
    intro same
    rw [logBytes_nil, List.nil_append] at same
    rw [same] at refusal
    cases records with
    | nil =>
      obtain ⟨needed, available, truncated⟩ := ends
      rw [logBytes_nil, List.nil_append, truncated] at refusal
      exact never needed available (Except.error.inj refusal).symm
    | cons record rest =>
      rw [logBytes_cons, List.append_assoc,
        Record.decode_bytes (valid' record (List.mem_cons_self ..))] at refusal
      cases refusal
  | cons record rest ih =>
    intro same
    have starts := valid record (List.mem_cons_self ..)
    cases records with
    | nil =>
      rw [logBytes_nil, List.nil_append, logBytes_cons, List.append_assoc] at same
      rw [← same] at ends
      exact EndOfLog.not_record starts _ ends
    | cons record' rest' =>
      have starts' := valid' record' (List.mem_cons_self ..)
      rw [logBytes_cons, logBytes_cons, List.append_assoc, List.append_assoc] at same
      have decoded : Record.decode hashes _ = _ := Record.decode_bytes starts (logBytes hashes rest ++ bytes)
      rw [same, Record.decode_bytes starts'] at decoded
      obtain rfl := (Prod.mk.inj (Except.ok.inj decoded)).1
      exact ih (fun other member => valid other (List.mem_cons_of_mem _ member))
        (fun other member => valid' other (List.mem_cons_of_mem _ member))
        (List.append_cancel_left same)

/-- The bytes of a record, up to four of which in a row were changed: either of its checksum, or of what it
protects, but for the lengths. -/
structure Record.Damaged (hashes : Hashes) (record : Record) (image : Bytes) : Prop where
  burst : Burst 4 (record.bytes hashes) image
  changed : image ≠ record.bytes hashes
  lengths : slice image 5 8 = slice (record.bytes hashes) 5 8
  apart : image.take 4 = (record.bytes hashes).take 4 ∨ image.drop 4 = (record.bytes hashes).drop 4

namespace Record

variable {record : Record} {image : Bytes}

/-- A record carries the checksum of what is behind it. -/
theorem stored_crc (hashes : Hashes) (record : Record) :
    UInt32.ofNat (leNat ((record.bytes hashes).take 4)) = hashes.crc32 ((record.bytes hashes).drop 4) := by
  have front : (record.bytes hashes).take 4 =
      leBytes 4 (hashes.crc32 (payload record.kind record.key record.value)).toNat :=
    List.take_left' (leBytes_length 4 _)
  have back : (record.bytes hashes).drop 4 = payload record.kind record.key record.value :=
    List.drop_left' (leBytes_length 4 _)
  rw [front, back, leNat_leBytes_of_lt (UInt32.toNat_lt _), UInt32.ofNat_toNat]

namespace Damaged

theorem length (damaged : record.Damaged hashes image) : image.length = (record.bytes hashes).length :=
  damaged.burst.length.symm

theorem header (damaged : record.Damaged hashes image) : Wal.HEADER_LEN ≤ image.length := by
  rw [damaged.length, bytes_length, encodedLen]
  omega

/-- Its lengths can still be read. -/
theorem totalLen (damaged : record.Damaged hashes image) (valid : record.Valid) (rest : Bytes) :
    totalLen (image ++ rest) = .ok image.length := by
  have header : 13 ≤ image.length := damaged.header
  have length := damaged.length
  have field : ∀ start, 5 ≤ start → start + 4 ≤ 13 →
      slice (image ++ rest) start 4 = slice (record.bytes hashes ++ rest) start 4 := by
    intro start low high
    have part : ∀ bytes : Bytes, slice bytes start 4 = slice (slice bytes 5 8) (start - 5) 4 := by
      intro bytes
      rw [slice_slice bytes (by omega)]
      congr 1
      omega
    rw [slice_append_left _ (by omega), slice_append_left _ (by omega), part image,
      part (record.bytes hashes), damaged.lengths]
  rw [length, ← totalLen_bytes valid rest]
  unfold Record.totalLen
  rw [field 5 (le_refl 5) (by omega), field 9 (by omega) (le_refl 13), List.length_append,
    List.length_append, length]

/-- **Its checksum does not match.** -/
theorem mismatch (damaged : record.Damaged hashes image) (real : hashes.crc32 = crc32) :
    crc32 (image.drop 4) ≠ UInt32.ofNat (leNat (image.take 4)) := by
  have own := stored_crc hashes record
  rw [real] at own
  have length := damaged.length
  intro same
  refine damaged.changed ?_
  rw [← List.take_append_drop 4 image, ← List.take_append_drop 4 (record.bytes hashes)]
  rcases damaged.apart with front | back
  · rw [front, own] at same
    rw [front, crc32_burst (damaged.burst.drop 4) same.symm]
  · rw [back, ← own] at same
    have small : ∀ bytes : Bytes, leNat (bytes.take 4) < 2 ^ 32 := fun bytes =>
      lt_of_lt_of_le (leNat_lt _) (Nat.pow_le_pow_right (by omega) (List.length_take_le 4 bytes))
    have numbers : leNat ((record.bytes hashes).take 4) = leNat (image.take 4) := by
      have same' := congrArg UInt32.toNat same
      rwa [UInt32.toNat_ofNat_of_lt' (small _), UInt32.toNat_ofNat_of_lt' (small _)] at same'
    have four : (image.take 4).length = ((record.bytes hashes).take 4).length := by
      rw [List.length_take, List.length_take, length]
    rw [back, ← leBytes_leNat (image.take 4), ← numbers, four, leBytes_leNat]

/-- **A damaged record is refused**, whatever is behind it. -/
theorem refused (damaged : record.Damaged hashes image) (real : hashes.crc32 = crc32)
    (valid : record.Valid) (rest : Bytes) : Refused hashes (image ++ rest) := by
  have header : 13 ≤ image.length := damaged.header
  have front : slice (image ++ rest) 0 4 = image.take 4 := slice_append_left _ (by omega)
  have back : slice (image ++ rest) 4 (image.length - 4) = image.drop 4 := by
    rw [slice_append_left _ (by omega), slice]
    exact List.take_of_length_le (by rw [List.length_drop])
  refine ⟨.badCrc (UInt32.ofNat (leNat (image.take 4))) (crc32 (image.drop 4)), ?_,
    fun _ _ same => by cases same⟩
  unfold decode
  rw [damaged.totalLen valid rest]
  simp only
  rw [if_neg (by rw [List.length_append]; omega)]
  unfold decodeBody
  simp only
  rw [back, front, real, if_pos (damaged.mismatch real)]

end Damaged

end Record

end Sastran

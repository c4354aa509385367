/-
The write-ahead log: a file header and records behind it.

`WalWriter` appends, `WalReader` yields records until the bytes left are reported as truncated, which
is how both the clean end and a torn last record look (`EndOfLog`). The results:
`nextRecord_ensures` and `nextRecord_succeeds` (what one call reads, and when it returns),
`WalReader.open_succeeds`, and what the writer leaves in the file (`WalWriter.open_ensures`,
`WalWriter.append_ensures`).
-/

import Sastran.Io
import Sastran.Wal.Record

namespace Sastran

open Device LittleEndian

namespace Wal

def MAGIC : Bytes := ascii "SASTWAL1"

def FORMAT_VERSION : Nat := 1

def FILE_HEADER_LEN : Nat := 8 + 4

/-- The header of a log file. -/
def fileHeader : Bytes := MAGIC ++ leBytes 4 FORMAT_VERSION

theorem fileHeader_length : fileHeader.length = FILE_HEADER_LEN := by decide

end Wal

/-! ### Writer and reader -/

structure WalWriter where
  file : FileAppend

namespace WalWriter

/-- Open a log for append; a file of length zero gets its header. -/
def «open» (name : FileName) : IoM WalWriter := do
  let file ← Io.openAppend name
  let isNew ← file.isEmpty
  if isNew then
    file.append Wal.fileHeader
    file.sync
    Io.syncDir
  pure ⟨file⟩

def append (hashes : Hashes) (writer : WalWriter) (kind : RecordKind) (key value : Bytes) :
    IoM Unit := do
  let scratch ← Prog.ofExcept (Record.encode hashes kind key value)
  writer.file.append scratch

def sync (writer : WalWriter) : IoM Unit := writer.file.sync

end WalWriter

structure WalReader where
  file : FileRead
  fileLen : Nat
  offset : Nat
  done : Bool

namespace WalReader

def «open» (name : FileName) : IoM WalReader := do
  let file ← Io.openRead name
  let fileLen ← file.len
  if fileLen < Wal.FILE_HEADER_LEN then
    Prog.throw (.corruption
      s!"WAL file shorter than header: {fileLen} bytes, need {Wal.FILE_HEADER_LEN}")
  else
    let header ← file.readAt 0 Wal.FILE_HEADER_LEN
    if header.take 8 ≠ Wal.MAGIC then
      Prog.throw (.corruption
        s!"WAL magic mismatch: expected {Wal.MAGIC}, got {header.take 8}")
    else
      let version := leNat (header.drop 8)
      if version ≠ Wal.FORMAT_VERSION then
        Prog.throw (.corruption
          s!"unsupported WAL format version {version}, this build supports {Wal.FORMAT_VERSION}")
      else
        pure ⟨file, fileLen, Wal.FILE_HEADER_LEN, false⟩

/-- The next record, or `none` at the end of the log. -/
def nextRecord (hashes : Hashes) (reader : WalReader) : IoM (Option Record × WalReader) :=
  let finished : Option Record × WalReader := (none, { reader with done := true })
  if reader.done then pure (none, reader)
  else if reader.offset ≥ reader.fileLen then pure finished
  else
    let remaining := reader.fileLen - reader.offset
    if remaining < Wal.HEADER_LEN then pure finished
    else do
      let scratch ← reader.file.readAt reader.offset Wal.HEADER_LEN
      match Record.decode hashes scratch with
      | .error (.truncated needed _) =>
        if remaining < needed then pure finished
        else do
          let scratch ← reader.file.readAt reader.offset needed
          match Record.decode hashes scratch with
          | .ok (record, consumed) =>
            pure (some record, { reader with offset := reader.offset + consumed })
          | .error error => Prog.throw error.toError
      | .error error => Prog.throw error.toError
      | .ok (record, consumed) =>
        pure (some record, { reader with offset := reader.offset + consumed })

end WalReader

/-! ### The contents of a log -/

section Log

variable (hashes : Hashes)

/-- The bytes left are reported as truncated: nothing is left, or a torn record. -/
def EndOfLog (tail : Bytes) : Prop :=
  ∃ needed available, Record.decode hashes tail = .error (.truncated needed available)

/-- The encodings of records, one behind the other. -/
def logBytes (records : List Record) : Bytes := records.flatMap (Record.bytes hashes)

variable {hashes}

@[simp] theorem logBytes_nil : logBytes hashes [] = [] := rfl

@[simp] theorem logBytes_cons (record : Record) (records : List Record) :
    logBytes hashes (record :: records) = record.bytes hashes ++ logBytes hashes records :=
  List.flatMap_cons

@[simp] theorem logBytes_append (first second : List Record) :
    logBytes hashes (first ++ second) = logBytes hashes first ++ logBytes hashes second :=
  List.flatMap_append

theorem EndOfLog.nil : EndOfLog hashes [] := ⟨Wal.HEADER_LEN, 0, rfl⟩

/-- A torn record ends the log. -/
theorem EndOfLog.torn {record : Record} (valid : record.Valid) {part : Bytes}
    (front : part <+: record.bytes hashes) (strict : part ≠ record.bytes hashes) :
    EndOfLog hashes part := by
  have shorter : part.length < (record.bytes hashes).length := by
    refine lt_of_le_of_ne front.length_le fun same => strict ?_
    exact front.eq_of_length same
  obtain ⟨needed, truncated⟩ := Record.decode_strict_prefix valid front shorter
  exact ⟨needed, part.length, truncated⟩

theorem EndOfLog.of_short {tail : Bytes} (short : tail.length < Wal.HEADER_LEN) :
    EndOfLog hashes tail :=
  ⟨Wal.HEADER_LEN, tail.length, by rw [Record.decode, Record.totalLen, if_pos short]⟩

/-- Where the log ends, no record starts. -/
theorem EndOfLog.not_record {record : Record} (valid : record.Valid) (rest : Bytes) :
    ¬ EndOfLog hashes (record.bytes hashes ++ rest) := by
  rintro ⟨needed, available, truncated⟩
  rw [Record.decode_bytes valid] at truncated
  cases truncated

/-- **One reading of a log**: the records of a byte string and what is left behind them are
determined by it. -/
theorem log_unique {first second : List Record} {tail tail' : Bytes}
    (valid : ∀ record ∈ first, record.Valid) (valid' : ∀ record ∈ second, record.Valid)
    (ends : EndOfLog hashes tail) (ends' : EndOfLog hashes tail')
    (same : logBytes hashes first ++ tail = logBytes hashes second ++ tail') :
    first = second ∧ tail = tail' := by
  induction first generalizing second with
  | nil =>
    cases second with
    | nil => exact ⟨rfl, by simpa using same⟩
    | cons record rest =>
      rw [logBytes_nil, List.nil_append, logBytes_cons, List.append_assoc] at same
      rw [same] at ends
      exact absurd ends (EndOfLog.not_record (valid' record (List.mem_cons_self ..)) _)
  | cons record rest ih =>
    have starts := valid record (List.mem_cons_self ..)
    cases second with
    | nil =>
      rw [logBytes_nil, List.nil_append, logBytes_cons, List.append_assoc] at same
      rw [← same] at ends'
      exact absurd ends' (EndOfLog.not_record starts _)
    | cons record' rest' =>
      have starts' := valid' record' (List.mem_cons_self ..)
      rw [logBytes_cons, logBytes_cons, List.append_assoc, List.append_assoc] at same
      have decoded : Record.decode hashes _ = _ :=
        Record.decode_bytes starts (logBytes hashes rest ++ tail)
      rw [same, Record.decode_bytes starts'] at decoded
      obtain rfl := (Prod.mk.inj (Except.ok.inj decoded)).1
      obtain ⟨rfl, rfl⟩ := ih (fun other member => valid other (List.mem_cons_of_mem _ member))
        (fun other member => valid' other (List.mem_cons_of_mem _ member))
        (List.append_cancel_left same)
      exact ⟨rfl, rfl⟩

end Log

/-! ### What one call reads -/

namespace WalReader

variable {hashes : Hashes} {world : World Fs}

/-- The bytes a reader has not read yet. -/
def rest (reader : WalReader) : Bytes := reader.file.bytes.drop reader.offset

/-- A reader that knows its file's length and is still reading. -/
structure Reading (reader : WalReader) : Prop where
  fileLen : reader.fileLen = reader.file.bytes.length
  going : reader.done = false

theorem slice_offset (reader : WalReader) (count : Nat) :
    slice reader.file.bytes reader.offset count = reader.rest.take count := rfl

/-- What one call makes of the bytes left. -/
def Step (hashes : Hashes) (reader : WalReader) : Option Record × WalReader → Prop
  | (some record, next) => record.Valid ∧ reader.rest = record.bytes hashes ++ next.rest ∧
      next = { reader with offset := reader.offset + (record.bytes hashes).length }
  | (none, next) => EndOfLog hashes reader.rest ∧ next = { reader with done := true }

theorem step_of_decode {reader : WalReader} {count : Nat} {record : Record} {consumed : Nat}
    (decoded : Record.decode hashes (reader.rest.take count) = .ok (record, consumed)) :
    Step hashes reader (some record, { reader with offset := reader.offset + consumed }) := by
  obtain ⟨valid, rfl, front⟩ := Record.decode_eq_ok_iff.mp decoded
  obtain ⟨back, whole⟩ := front.trans (List.take_prefix _ _)
  refine ⟨valid, ?_, rfl⟩
  have next : (WalReader.mk reader.file reader.fileLen
      (reader.offset + (record.bytes hashes).length) reader.done).rest = back := by
    rw [rest, ← List.drop_drop]
    show reader.rest.drop _ = back
    rw [← whole, List.drop_left]
  rw [next, whole]

/-- **What a call that returns has read.** -/
theorem nextRecord_ensures {reader : WalReader} (reading : reader.Reading) :
    Ensures (nextRecord hashes reader) world fun result after =>
      Step hashes reader result ∧ Quiet world after := by
  have length : reader.rest.length = reader.fileLen - reader.offset := by
    rw [rest, List.length_drop, reading.fileLen]
  unfold nextRecord
  rw [if_neg (by rw [reading.going]; exact nofun)]
  refine Ensures.ite (fun ended => Ensures.pure ⟨⟨?_, rfl⟩, Quiet.refl _⟩) fun more => ?_
  · exact EndOfLog.of_short (by rw [length, Wal.HEADER_LEN]; omega)
  refine Ensures.ite (fun short => Ensures.pure ⟨⟨?_, rfl⟩, Quiet.refl _⟩) fun header => ?_
  · exact EndOfLog.of_short (by rw [length]; exact short)
  refine Ensures.bind ((FileRead.readAt_ensures _ _).mono fun scratch middle holds => ?_)
  obtain ⟨rfl, _, quiet⟩ := holds
  rw [slice_offset, Record.decode_header (by omega)]
  cases total : Record.totalLen reader.rest with
  | error error =>
    cases error with
    | truncated needed available =>
      exact absurd total (Record.totalLen_ne_truncated (by omega) needed available)
    | _ => exact Ensures.throw
  | ok needed =>
    refine Ensures.ite (fun torn => Ensures.pure ⟨⟨?_, rfl⟩, quiet⟩) fun whole => ?_
    · refine ⟨needed, reader.rest.length, ?_⟩
      rw [Record.decode, total]
      exact if_pos (by rw [length]; exact torn)
    · refine Ensures.bind ((FileRead.readAt_ensures _ _).mono fun scratch last holds => ?_)
      obtain ⟨rfl, _, quiet'⟩ := holds
      rw [slice_offset]
      cases decoded : Record.decode hashes (reader.rest.take needed) with
      | ok result => exact Ensures.pure ⟨step_of_decode decoded, quiet.trans quiet'⟩
      | error error => exact Ensures.throw

/-- **When a call returns**: a record starts here, or the log ends here. -/
theorem nextRecord_succeeds {reader : WalReader} (reading : reader.Reading)
    (calm : world.Calm)
    (readable : EndOfLog hashes reader.rest ∨
      ∃ record : Record, record.Valid ∧ record.bytes hashes <+: reader.rest) :
    Succeeds (nextRecord hashes reader) world fun result after =>
      Step hashes reader result ∧ Quiet world after := by
  refine Succeeds.of_ensures (?_ : Succeeds _ world fun _ _ => True) (nextRecord_ensures reading)
  have length : reader.rest.length = reader.fileLen - reader.offset := by
    rw [rest, List.length_drop, reading.fileLen]
  have bytes_length := reading.fileLen
  unfold nextRecord
  rw [if_neg (by rw [reading.going]; exact nofun)]
  split
  · exact Succeeds.pure trivial
  rename_i more
  simp only
  split
  · exact Succeeds.pure trivial
  rename_i header
  refine Succeeds.bind ((Succeeds.of_ensures (FileRead.readAt_succeeds calm (by omega))
    (FileRead.readAt_ensures _ _)).mono fun scratch middle holds => ?_)
  obtain ⟨rfl, _, quiet⟩ := holds
  rw [slice_offset, Record.decode_header (by omega)]
  have sized : ∃ needed, Record.totalLen reader.rest = .ok needed := by
    rcases readable with ⟨needed, available, truncated⟩ | ⟨record, valid, back, whole⟩
    · cases total : Record.totalLen reader.rest with
      | ok needed => exact ⟨needed, rfl⟩
      | error error =>
        rw [Record.decode, total] at truncated
        cases truncated
        exact absurd total (Record.totalLen_ne_truncated (by omega) needed available)
    · exact ⟨_, by rw [← whole]; exact Record.totalLen_bytes valid back⟩
  obtain ⟨needed, total⟩ := sized
  rw [total]
  simp only
  split
  · exact Succeeds.pure trivial
  rename_i whole
  refine Succeeds.bind ((Succeeds.of_ensures (FileRead.readAt_succeeds
    (quiet.calm calm) (by omega)) (FileRead.readAt_ensures _ _)).mono fun scratch last holds => ?_)
  obtain ⟨rfl, _, quiet'⟩ := holds
  have decodes : ∃ record consumed,
      Record.decode hashes (reader.rest.take needed) = .ok (record, consumed) := by
    rcases readable with ⟨needed', available, truncated⟩ | ⟨record, valid, back, same⟩
    · rw [Record.decode, total] at truncated
      simp only at truncated
      rw [if_neg (by omega)] at truncated
      exact absurd truncated (Record.decodeBody_ne_truncated _ _ _ _)
    · have exact_length : needed = (record.bytes hashes).length := by
        have sized : Record.totalLen (record.bytes hashes ++ back) = _ := Record.totalLen_bytes valid back
        rw [same, total] at sized
        exact Except.ok.inj sized
      refine ⟨record, (record.bytes hashes).length, ?_⟩
      rw [← same, exact_length, List.take_left]
      have decoded : Record.decode hashes (record.bytes hashes ++ []) = _ := Record.decode_bytes valid []
      rwa [List.append_nil] at decoded
  obtain ⟨record, consumed, decoded⟩ := decodes
  rw [slice_offset, decoded]
  exact Succeeds.pure trivial

/-- At the end of the log a reader is done. -/
theorem nextRecord_end {reader : WalReader} (reading : reader.Reading) (calm : world.Calm)
    (ends : EndOfLog hashes reader.rest) :
    Succeeds (nextRecord hashes reader) world fun result after =>
      result = (none, { reader with done := true }) ∧ Quiet world after := by
  refine (nextRecord_succeeds reading calm (Or.inl ends)).mono fun result after holds => ?_
  obtain ⟨step, quiet⟩ := holds
  obtain ⟨found, next⟩ := result
  cases found with
  | some record =>
    obtain ⟨fits, whole, _⟩ := step
    exact absurd ends (by rw [whole]; exact EndOfLog.not_record fits _)
  | none =>
    obtain ⟨_, rfl⟩ := step
    exact ⟨rfl, quiet⟩

/-- A record in front of a reader is returned, and the reader moves behind it. -/
theorem nextRecord_first {reader : WalReader} (reading : reader.Reading) (calm : world.Calm)
    {first : Record} (fits : first.Valid) {more : Bytes}
    (left : reader.rest = first.bytes hashes ++ more) :
    Succeeds (nextRecord hashes reader) world fun result after =>
      ∃ next : WalReader, result = (some first, next) ∧ next.Reading ∧ next.rest = more ∧
        Quiet world after := by
  refine (nextRecord_succeeds reading calm
    (Or.inr ⟨first, fits, by rw [left]; exact List.prefix_append _ _⟩)).mono fun result after holds => ?_
  obtain ⟨step, quiet⟩ := holds
  obtain ⟨found, next⟩ := result
  cases found with
  | none =>
    obtain ⟨ended, _⟩ := step
    exact absurd ended (by rw [left]; exact EndOfLog.not_record fits _)
  | some record =>
    obtain ⟨fits', whole, moved⟩ := step
    rw [left] at whole
    -- Two records at one place are the same.
    have same : first = record := by
      rcases List.prefix_or_prefix_of_prefix (List.prefix_append (first.bytes hashes) _)
        (whole ▸ List.prefix_append (record.bytes hashes) _) with front | front
      · exact Record.bytes_prefix_free fits fits' front
      · exact (Record.bytes_prefix_free fits' fits front).symm
    subst same
    refine ⟨next, rfl, ⟨?_, ?_⟩, (List.append_cancel_left whole).symm, quiet⟩
    · rw [moved]
      exact reading.fileLen
    · rw [moved]
      exact reading.going

/-- **A log with its header opens**, at the first record. -/
theorem open_succeeds {name : FileName} {stream : Bytes} (calm : world.Calm)
    (here : world.now.content name = some (Wal.fileHeader ++ stream)) :
    Succeeds (WalReader.open name) world fun reader after =>
      reader.Reading ∧ reader.rest = stream ∧ Quiet world after := by
  have headerLen := Wal.fileHeader_length
  have enough : Wal.FILE_HEADER_LEN ≤ (Wal.fileHeader ++ stream).length := by
    rw [List.length_append, headerLen]
    omega
  refine Succeeds.bind ((Succeeds.of_ensures (Io.openRead_succeeds calm (by rw [here]; exact nofun))
    (Io.openRead_ensures name)).mono fun file opened holds => ?_)
  obtain ⟨found, quiet⟩ := holds
  have bytes : file.bytes = Wal.fileHeader ++ stream := Option.some.inj (found.symm.trans here)
  refine Succeeds.bind ((Succeeds.of_ensures (FileRead.len_succeeds (quiet.calm calm))
    FileRead.len_ensures).mono fun fileLen sized holds => ?_)
  obtain ⟨rfl, quiet'⟩ := holds
  have calm' := quiet'.calm (quiet.calm calm)
  rw [if_neg (by rw [bytes]; omega)]
  refine Succeeds.bind ((Succeeds.of_ensures (FileRead.readAt_succeeds calm' (by rw [bytes]; omega))
    (FileRead.readAt_ensures 0 Wal.FILE_HEADER_LEN)).mono fun header last holds => ?_)
  obtain ⟨rfl, _, quiet''⟩ := holds
  have header : slice file.bytes 0 Wal.FILE_HEADER_LEN = Wal.fileHeader := by
    rw [bytes, slice, List.drop_zero, ← headerLen, List.take_left]
  rw [header, if_neg (by decide)]
  simp only
  rw [if_neg (by decide)]
  refine Succeeds.pure ⟨⟨rfl, rfl⟩, ?_, (quiet.trans quiet').trans quiet''⟩
  show file.bytes.drop Wal.FILE_HEADER_LEN = stream
  rw [bytes, ← headerLen, List.drop_left]

/-- **A log shorter than its header does not open.** -/
theorem open_short {name : FileName} {bytes : Bytes} (calm : world.Calm)
    (here : world.now.content name = some bytes) (short : bytes.length < Wal.FILE_HEADER_LEN) :
    ∃ after, WalReader.open name world = .err (.corruption
      s!"WAL file shorter than header: {bytes.length} bytes, need {Wal.FILE_HEADER_LEN}") after := by
  obtain ⟨file, opened, run, found, quiet⟩ := Succeeds.of_ensures
    (Io.openRead_succeeds calm (by rw [here]; exact nofun)) (Io.openRead_ensures name)
  obtain rfl : file.bytes = bytes := Option.some.inj (found.symm.trans here)
  obtain ⟨fileLen, sized, run', rfl, quiet'⟩ := Succeeds.of_ensures
    (FileRead.len_succeeds (quiet.calm calm)) FileRead.len_ensures
  refine ⟨sized, ?_⟩
  unfold WalReader.open
  rw [bind_ok run, bind_ok run', if_pos short]
  rfl

end WalReader

/-! ### What the writer leaves in the file -/

namespace WalWriter

variable {hashes : Hashes} {world : World Fs}

/-- The contents of a log once it was opened for append. -/
def opened : Option Bytes → Bytes
  | none => Wal.fileHeader
  | some [] => Wal.fileHeader
  | some bytes => bytes

/-- The states a crash while the log is opened for append leaves behind: the log is as it was, has
its header, or was created and is still empty. -/
def OpeningCrash (name : FileName) (before crashed : Fs) : Prop :=
  Fs.Frame (· = name) before crashed ∧
    (crashed.content name = before.content name ∨
      crashed.content name = some (opened (before.content name)) ∨
      (crashed.content name = some [] ∧ (before.content name).getD [] = []))

/-- **Opening a log for append** keeps its bytes, and gives an empty one its header. -/
theorem open_ensures (wf : world.now.Wf) (name : FileName) :
    Ensures (WalWriter.open name) world fun writer after =>
      Fs.Frame (· = name) world.now after.now ∧
      after.now.content name = some (opened (world.now.content name)) ∧
      after.now.dir.find? name = some writer.file.ino ∧
      Passes (OpeningCrash name world.now) world after := by
  refine Ensures.bind ((Io.openAppend_frame wf name).mono fun file created holds => ?_)
  obtain ⟨frame, here, linked, passes⟩ := holds
  have bytes : created.now.inodes.getD file.ino [] = (world.now.content name).getD [] := by
    obtain ⟨ino, found, held⟩ := Fs.content_eq_some.mp here
    rw [linked] at found
    cases found
    rw [List.getD_eq_getElem?_getD, held]
    rfl
  have crash : OpeningCrash name world.now created.now := by
    refine ⟨frame, ?_⟩
    cases found : world.now.content name with
    | none => exact Or.inr (Or.inr ⟨by rw [here, found]; rfl, rfl⟩)
    | some old => exact Or.inl (by rw [here, found]; rfl)
  refine Ensures.bind (FileAppend.isEmpty_ensures.mono fun isNew asked holds => ?_)
  obtain ⟨rfl, quiet⟩ := holds
  rw [bytes]
  have passes' : Passes (OpeningCrash name world.now) world asked :=
    (passes.mono fun _ same => same ▸ crash).trans (Passes.of_quiet quiet crash)
  by_cases empty : (world.now.content name).getD [] = []
  · have fresh : opened (world.now.content name) = Wal.fileHeader := by
      cases found : world.now.content name with
      | none => rfl
      | some old =>
        rw [found] at empty
        obtain rfl : old = [] := empty
        rfl
    have isNew : ((List.length ((world.now.content name).getD []) == 0) = true) := by
      rw [empty]
      rfl
    rw [if_pos isNew]
    have linked' : asked.now.dir.find? name = some file.ino := by rw [quiet.now, linked]
    have here' : asked.now.content name = some [] := by rw [quiet.now, here, empty]
    refine Ensures.bind ((FileAppend.append_frame (quiet.now ▸ frame.wf) linked' here' _).mono
      fun _ appended holds => ?_)
    obtain ⟨frame', there, linked'', _, stored⟩ := holds
    rw [quiet.now] at frame'
    have crash' : OpeningCrash name world.now appended.now :=
      ⟨frame.trans frame', Or.inr (Or.inl (by rw [there, fresh, List.nil_append]))⟩
    refine Ensures.bind (FileAppend.sync_ensures.mono fun _ synced quiet' => ?_)
    refine Ensures.bind (Io.syncDir_ensures.mono fun _ listed quiet'' => ?_)
    have last := quiet'.trans quiet''
    refine Ensures.pure ⟨last.now ▸ frame.trans frame', ?_, ?_, ?_⟩
    · rw [last.now, there, fresh, List.nil_append]
    · rw [last.now, linked'']
    · exact (passes'.trans (stored.mono fun _ same => same ▸ crash')).trans
        (Passes.of_quiet last crash')
  · have isOld : ¬ ((List.length ((world.now.content name).getD []) == 0) = true) := by
      simpa using empty
    rw [if_neg isOld]
    refine Ensures.bind (Ensures.pure (Ensures.pure ⟨quiet.now ▸ frame, ?_, ?_, passes'⟩))
    · rw [quiet.now, here]
      cases found : world.now.content name with
      | none => rw [found] at empty; exact absurd rfl empty
      | some old =>
        rw [found] at empty
        cases old with
        | nil => exact absurd rfl empty
        | cons byte rest => rfl
    · rw [quiet.now, linked]

theorem open_succeeds (wf : world.now.Wf) (calm : world.Calm) (name : FileName) :
    Succeeds (WalWriter.open name) world fun _ _ => True := by
  refine Succeeds.bind ((Succeeds.of_ensures (Io.openAppend_succeeds calm name)
    (Io.openAppend_frame wf name)).mono fun file created holds => ?_)
  obtain ⟨frame, here, linked, passes⟩ := holds
  have calm' := passes.calm calm
  refine Succeeds.bind ((Succeeds.of_ensures (FileAppend.isEmpty_succeeds calm')
    FileAppend.isEmpty_ensures).mono fun isNew asked holds => ?_)
  obtain ⟨rfl, quiet⟩ := holds
  split
  · rename_i isNew
    have fits : (asked.now.inodes.getD file.ino []).length + Wal.fileHeader.length ≤ maxFileLen := by
      rw [quiet.now, show (created.now.inodes.getD file.ino []).length = 0 by simpa using isNew]
      decide
    refine Succeeds.bind ((Succeeds.and_ensures (FileAppend.append_succeeds (quiet.calm calm') fits)
      (FileAppend.append_ensures _)).mono fun _ appended holds => ?_)
    have calm'' := holds.2.2.2.calm (quiet.calm calm')
    refine Succeeds.bind ((Succeeds.of_ensures (FileAppend.sync_succeeds calm'')
      FileAppend.sync_ensures).mono fun _ synced quiet' => ?_)
    refine Succeeds.bind ((Io.syncDir_succeeds (quiet'.calm calm'')).mono fun _ _ _ => ?_)
    exact Succeeds.pure trivial
  · exact Succeeds.bind (Succeeds.pure (Succeeds.pure trivial))

/-- **An accepted mutation** is valid and its encoding is the log's last bytes. -/
theorem append_ensures {writer : WalWriter} (wf : world.now.Wf) {name : FileName} {old : Bytes}
    (linked : world.now.dir.find? name = some writer.file.ino)
    (here : world.now.content name = some old) (kind : RecordKind) (key value : Bytes) :
    Ensures (writer.append hashes kind key value) world fun _ after =>
      Record.Valid ⟨kind, key, value⟩ ∧ Fs.Frame (· = name) world.now after.now ∧
      after.now.content name = some (old ++ Record.bytes hashes ⟨kind, key, value⟩) ∧
      after.now.dir.find? name = some writer.file.ino ∧ Passes (· = after.now) world after := by
  unfold append
  cases encoded : Record.encode hashes kind key value with
  | error error => exact Ensures.bind Ensures.throw
  | ok scratch =>
    obtain ⟨valid, rfl⟩ := Record.encode_eq_ok_iff.mp encoded
    refine Ensures.bind (Ensures.pure ?_)
    refine (FileAppend.append_frame wf linked here _).mono fun _ after holds => ?_
    obtain ⟨frame, there, linked', _, passes⟩ := holds
    exact ⟨valid, frame, there, linked', passes⟩

end WalWriter

end Sastran

/-
Replay of a log that was cut off.

* `writeLog_ensures` - the file the writer leaves: its header and the encodings, in order.
* `cut_eq` - wherever such a log is cut, whole records are left and a torn one at most.
* `replay_cut` - a reader returns exactly the whole records, and `none` from then on.
-/

import Sastran.Wal.Log

namespace Sastran

open Device

variable {hashes : Hashes} {world : World Fs}

/-! ### What the writer leaves -/

/-- Open a log and append records to it, in order. -/
def writeLog (hashes : Hashes) (name : FileName) (records : List Record) : IoM Unit := do
  let writer ← WalWriter.open name
  Prog.forEach (fun record => writer.append hashes record.kind record.key record.value) records

/-- **A new log** holds its header and the records appended, all of them valid. -/
theorem writeLog_ensures (wf : world.now.Wf) {name : FileName}
    (absent : world.now.content name = none) (records : List Record) :
    Ensures (writeLog hashes name records) world fun _ after =>
      (∀ record ∈ records, record.Valid) ∧
      after.now.content name = some (Wal.fileHeader ++ logBytes hashes records) := by
  refine Ensures.bind ((WalWriter.open_ensures wf name).mono fun writer opened facts => ?_)
  obtain ⟨frame, content, linked, _⟩ := facts
  rw [absent, WalWriter.opened] at content
  -- What is left of the records, and what the file holds of the others.
  let inv : List Record → World Fs → Prop := fun rest after => ∃ front,
    front ++ rest = records ∧ (∀ record ∈ front, record.Valid) ∧ after.now.Wf ∧
    after.now.content name = some (Wal.fileHeader ++ logBytes hashes front) ∧
    after.now.dir.find? name = some writer.file.ino
  refine (Ensures.forEach inv ?_ records opened ⟨[], rfl, nofun, frame.wf, ?_, linked⟩).mono
    fun _ after facts => ?_
  · rintro first rest state ⟨front, split, valid, wf, content, linked⟩
    refine (WalWriter.append_ensures wf linked content first.kind first.key first.value).mono
      fun _ after facts => ?_
    obtain ⟨fits, frame, content', linked', _⟩ := facts
    refine ⟨front ++ [first], by simpa using split, ?_, frame.wf, ?_, linked'⟩
    · intro record member
      rcases List.mem_append.mp member with member | member
      · exact valid record member
      · rw [List.mem_singleton.mp member]
        exact fits
    · rw [content', logBytes_append, logBytes_cons, logBytes_nil, List.append_nil, List.append_assoc]
  · rw [content, logBytes_nil, List.append_nil]
  · obtain ⟨front, split, valid, _, content, _⟩ := facts
    rw [List.append_nil] at split
    subst split
    exact ⟨valid, content⟩

/-! ### Where a log is cut -/

/-- The records whose encodings lie within the first bytes of a log. -/
def wholeRecords (hashes : Hashes) : Nat → List Record → List Record
  | _, [] => []
  | length, record :: rest =>
    if (record.bytes hashes).length ≤ length then
      record :: wholeRecords hashes (length - (record.bytes hashes).length) rest
    else []

theorem wholeRecords_isPrefix (length : Nat) (records : List Record) :
    wholeRecords hashes length records <+: records := by
  induction records generalizing length with
  | nil => exact List.prefix_rfl
  | cons record rest ih =>
    unfold wholeRecords
    split
    · exact (List.prefix_cons_inj record).mpr (ih _)
    · exact List.nil_prefix

theorem wholeRecords_fits (hashes : Hashes) (length : Nat) (records : List Record) :
    (logBytes hashes (wholeRecords hashes length records)).length ≤ length := by
  induction records generalizing length with
  | nil => exact Nat.zero_le _
  | cons record rest ih =>
    unfold wholeRecords
    split
    · rename_i fits
      rw [logBytes_cons, List.length_append]
      have := ih (length - (record.bytes hashes).length)
      omega
    · exact Nat.zero_le _

/-- They are the longest such prefix. -/
theorem wholeRecords_longest {length : Nat} {records front : List Record}
    (isPrefix : front <+: records) (fits : (logBytes hashes front).length ≤ length) :
    front <+: wholeRecords hashes length records := by
  induction records generalizing length front with
  | nil => exact isPrefix
  | cons record rest ih =>
    cases front with
    | nil => exact List.nil_prefix
    | cons first front =>
      obtain ⟨rfl, isPrefix'⟩ := List.cons_prefix_cons.mp isPrefix
      rw [logBytes_cons, List.length_append] at fits
      rw [wholeRecords, if_pos (by omega)]
      exact (List.prefix_cons_inj first).mpr (ih isPrefix' (by omega))

/-- **A log that is cut** holds the whole records, and ends there. -/
theorem cut_eq (hashes : Hashes) {records : List Record} (valid : ∀ record ∈ records, record.Valid)
    (length : Nat) : ∃ tail, EndOfLog hashes tail ∧ (logBytes hashes records).take length =
      logBytes hashes (wholeRecords hashes length records) ++ tail := by
  induction records generalizing length with
  | nil => exact ⟨[], EndOfLog.nil, by simp [wholeRecords]⟩
  | cons record rest ih =>
    unfold wholeRecords
    split
    · rename_i fits
      obtain ⟨tail, ends, same⟩ := ih (fun other member => valid other (List.mem_cons_of_mem _ member))
        (length - (record.bytes hashes).length)
      refine ⟨tail, ends, ?_⟩
      rw [logBytes_cons, logBytes_cons, List.take_append, List.take_of_length_le fits, same,
        List.append_assoc]
    · rename_i torn
      refine ⟨(record.bytes hashes).take length,
        EndOfLog.torn (valid record (List.mem_cons_self ..)) (List.take_prefix _ _) ?_, ?_⟩
      · intro same
        have short := congrArg List.length same
        rw [List.length_take] at short
        omega
      · rw [logBytes_cons, List.take_append_of_le_length (by omega), logBytes_nil, List.nil_append]

/-! ### Replay -/

namespace WalReader

/-- The results of so many calls. -/
def nextRecords (hashes : Hashes) : Nat → WalReader → IoM (List (Option Record))
  | 0, _ => pure []
  | count + 1, reader => do
    let (record, reader) ← reader.nextRecord hashes
    let records ← nextRecords hashes count reader
    pure (record :: records)

/-- A reader that has reached the end stays there. -/
theorem nextRecords_done {reader : WalReader} (done : reader.done = true) (count : Nat) :
    Succeeds (nextRecords hashes count reader) world fun results after =>
      results = List.replicate count none ∧ after = world := by
  induction count with
  | zero => exact Succeeds.pure ⟨rfl, rfl⟩
  | succ count ih =>
    have step : Succeeds (reader.nextRecord hashes) world fun result after =>
        result = (none, reader) ∧ after = world := by
      unfold nextRecord
      rw [if_pos done]
      exact Succeeds.pure ⟨rfl, rfl⟩
    refine Succeeds.bind (step.mono fun result after holds => ?_)
    obtain ⟨rfl, rfl⟩ := holds
    refine Succeeds.bind (ih.mono fun results after holds => ?_)
    obtain ⟨rfl, rfl⟩ := holds
    exact Succeeds.pure ⟨rfl, rfl⟩

/-- **A reader returns the records in front of it**, and nothing from the end of the log on. -/
theorem nextRecords_succeeds {tail : Bytes} (ends : EndOfLog hashes tail) :
    ∀ (count : Nat) (records : List Record) {reader : WalReader} {world : World Fs},
      (∀ record ∈ records, record.Valid) → reader.Reading → world.Calm →
      reader.rest = logBytes hashes records ++ tail →
      Succeeds (nextRecords hashes count reader) world fun results after =>
        results = (records.map some ++ List.replicate count none).take count ∧ Quiet world after := by
  intro count
  induction count with
  | zero => exact fun records reader world _ _ _ _ => Succeeds.pure ⟨by simp, Quiet.refl world⟩
  | succ count ih =>
    intro records reader world valid reading calm left
    cases records with
    | nil =>
      rw [logBytes_nil, List.nil_append] at left
      refine Succeeds.bind ((nextRecord_end reading calm (left ▸ ends)).mono fun result after holds => ?_)
      obtain ⟨rfl, quiet⟩ := holds
      refine Succeeds.bind ((nextRecords_done rfl count).mono fun results last holds => ?_)
      obtain ⟨rfl, rfl⟩ := holds
      exact Succeeds.pure ⟨by simp [List.replicate_succ], quiet⟩
    | cons first rest =>
      have fits := valid first (List.mem_cons_self ..)
      rw [logBytes_cons, List.append_assoc] at left
      refine Succeeds.bind ((nextRecord_first reading calm fits left).mono fun result after holds => ?_)
      obtain ⟨next, rfl, reading', left', quiet⟩ := holds
      refine Succeeds.bind ((ih rest (fun other member => valid other (List.mem_cons_of_mem _ member))
        reading' (quiet.calm calm) left').mono fun results last holds => ?_)
      obtain ⟨rfl, quiet'⟩ := holds
      refine Succeeds.pure ⟨?_, quiet.trans quiet'⟩
      have enough : min (count - (rest.map some).length) count =
          min (count - (rest.map some).length) (count + 1) := by omega
      rw [List.map_cons, List.cons_append, List.take_succ_cons, List.take_append, List.take_append,
        List.take_replicate, List.take_replicate, enough]

end WalReader

/-- Open a log and call for so many records. -/
def replayCalls (hashes : Hashes) (name : FileName) (count : Nat) : IoM (List (Option Record)) := do
  let reader ← WalReader.open name
  reader.nextRecords hashes count

/-- **Replay of a log that was cut** at any length from its header on: opening succeeds, and however
many calls are made, they return the longest prefix of whole records and `none` from then on. -/
theorem replay_cut {name : FileName} {records : List Record} {written : World Fs}
    (write : writeLog hashes name records (World.fresh Fs.empty) = .ok () written) {length : Nat}
    (header : Wal.FILE_HEADER_LEN ≤ length) (calm : world.Calm)
    (cut : world.now.content name = (written.now.content name).map (List.take length)) :
    ∃ whole, whole <+: records ∧
      Wal.FILE_HEADER_LEN + (logBytes hashes whole).length ≤ length ∧
      (∀ longer, longer <+: records →
        Wal.FILE_HEADER_LEN + (logBytes hashes longer).length ≤ length → longer <+: whole) ∧
      ∀ count, ∃ after, replayCalls hashes name count world =
        .ok ((whole.map some ++ List.replicate count none).take count) after := by
  obtain ⟨valid, content⟩ := writeLog_ensures Fs.empty_wf (Fs.content_empty name) records () written
    write
  have headerLen := Wal.fileHeader_length
  refine ⟨wholeRecords hashes (length - Wal.FILE_HEADER_LEN) records, wholeRecords_isPrefix _ _, ?_, ?_,
    fun count => ?_⟩
  · have fits := wholeRecords_fits hashes (length - Wal.FILE_HEADER_LEN) records
    omega
  · exact fun longer isPrefix fits => wholeRecords_longest isPrefix (by omega)
  · obtain ⟨tail, ends, same⟩ := cut_eq hashes valid (length - Wal.FILE_HEADER_LEN)
    have here : world.now.content name = some (Wal.fileHeader ++
        (logBytes hashes (wholeRecords hashes (length - Wal.FILE_HEADER_LEN) records) ++ tail)) := by
      rw [cut, content, Option.map_some, List.take_append, List.take_of_length_le (by omega), ← same,
        headerLen]
    have replays : Succeeds (replayCalls hashes name count) world fun results _ => results =
        ((wholeRecords hashes (length - Wal.FILE_HEADER_LEN) records).map some ++
          List.replicate count none).take count := by
      refine Succeeds.bind ((WalReader.open_succeeds calm here).mono fun reader opened holds => ?_)
      obtain ⟨reading, left, quiet⟩ := holds
      refine (WalReader.nextRecords_succeeds ends count _ (fun record member =>
        valid record ((wholeRecords_isPrefix _ _).subset member)) reading (quiet.calm calm) left).mono
        fun results _ holds => holds.1
    obtain ⟨results, after, run, same⟩ := replays
    exact ⟨after, same ▸ run⟩

/-- A log of two records that is cut inside the second one. -/
theorem replay_cut_torn :
    ∃ whole : List Record, whole <+: [⟨.put, [1], [2]⟩, ⟨.delete, [1], []⟩] ∧
      Wal.FILE_HEADER_LEN + (logBytes ⟨fun _ => 0, fun _ => (0, 0)⟩ whole).length ≤ 30 ∧
      (∀ longer, longer <+: [⟨.put, [1], [2]⟩, ⟨.delete, [1], []⟩] →
        Wal.FILE_HEADER_LEN + (logBytes ⟨fun _ => 0, fun _ => (0, 0)⟩ longer).length ≤ 30 →
        longer <+: whole) ∧
      ∀ count, ∃ after, replayCalls ⟨fun _ => 0, fun _ => (0, 0)⟩ WAL_FILENAME count
        (World.fresh ⟨⟨[(WAL_FILENAME, 0)], List.pairwise_singleton _ _⟩,
          [(Wal.fileHeader ++ logBytes ⟨fun _ => 0, fun _ => (0, 0)⟩
            [⟨.put, [1], [2]⟩, ⟨.delete, [1], []⟩]).take 30]⟩) =
        .ok ((whole.map some ++ List.replicate count none).take count) after :=
  replay_cut rfl (by decide) (World.fresh_calm _) (by decide)

end Sastran

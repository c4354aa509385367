/-
Flush and compaction.

A flush writes the memtable to a new L0 table and rotates the log; a compaction merges all tables
into one L1 table, without tombstones, and removes its inputs. Both write to a temporary name first
and rename. Errors keep what was done before.
-/

import Sastran.Engine.State

namespace Sastran

open Device

variable {D : Type} (env : Env D)

/-- The next id; an overflow panics. -/
def nextId (id : Nat) : InnerM Nat := Prog.ofOption (if id + 1 < u64Bound then some (id + 1) else none)

namespace EngineInner

/-- Give a finished table its name and open it. -/
def publishTable (filename : FileName) : IoM SsTableReader := do
  Io.rename (tmpName filename) filename
  Io.syncDir
  SsTableReader.open env.hashes filename

/-- Replace the log by an empty one. -/
def rotateLog : InnerM Unit := do
  let writer ← onWorld do
    Io.removeFile WAL_FILENAME
    WalWriter.open WAL_FILENAME
  change fun inner => { inner with writer := writer, memtable := Memtable.new }

def flushInner : InnerM Unit := do
  let inner ← self
  if inner.memtable.isEmpty then onWorld inner.writer.sync
  else do
    let id := inner.nextSstId
    let filename := sstFilename 0 id
    onWorld (writeTable env.hashes (tmpName filename) inner.memtable.len env.options.bloomBitsPerKey
      inner.memtable.iter)
    let reader ← onWorld (publishTable env filename)
    let next ← nextId id
    change fun inner => { inner with
      levels := { inner.levels with l0 := ⟨id, reader⟩ :: inner.levels.l0 }, nextSstId := next }
    rotateLog

def maybeAutoFlush : InnerM Unit := do
  let inner ← self
  if inner.memtable.approximateSize ≥ env.options.memtableMaxSizeBytes then flushInner env
  else pure ()

/-! ### Compaction -/

/-- Write the merged entries but for tombstones, and tell whether there were any. -/
def mergeRound (rounds : Nat) (state : MergingIterator SsTableIterator × SsTableWriter × Bool) :
    IoM ((MergingIterator SsTableIterator × SsTableWriter × Bool) ⊕ (SsTableWriter × Bool)) := do
  let (merge, writer, wroteAny) := state
  let (item, merge) ← merge.next (SsTableIterator.next env.hashes) rounds
  match item with
  | none => pure (.inr (writer, wroteAny))
  | some (.error error) => Prog.throw error
  | some (.ok (_, .tombstone)) => pure (.inl (merge, writer, wroteAny))
  | some (.ok (key, entry)) => do
    let writer ← writer.add env.hashes key entry
    pure (.inl (merge, writer, true))

/-- The size of the inputs, which bounds the number of their entries. -/
def inputSize (inputs : List SsTableEntry) : Nat :=
  (inputs.map fun entry => entry.reader.file.bytes.length).sum

/-- Merge the inputs into a table under the temporary name; the writer is still to be finished. -/
def mergeInputs (filename : FileName) (expectedKeys : Nat) (inputs : List SsTableEntry) :
    IoM (SsTableWriter × Bool) := do
  let merge ← MergingIterator.new (SsTableIterator.next env.hashes)
    (inputs.map fun entry => ⟨entry.id, entry.reader.iter⟩)
  let writer ← SsTableWriter.create (tmpName filename) expectedKeys env.options.bloomBitsPerKey
  Prog.loop (mergeRound env inputs.length) (inputSize inputs + 1) (merge, writer, false)

/-- The level state after a merge: the output, or nothing if every entry was a tombstone. -/
def installOutput (newId : Nat) (writer : SsTableWriter) (wroteAny : Bool) : InnerM Unit :=
  let filename := sstFilename 1 newId
  if wroteAny then do
    onWorld (writer.finish env.hashes)
    let reader ← onWorld (publishTable env filename)
    let next ← nextId newId
    change fun inner => { inner with levels := ⟨[], [⟨newId, reader⟩]⟩, nextSstId := next }
  else do
    onWorld (ignore (Io.removeFile (tmpName filename)))
    let next ← nextId newId
    change fun inner => { inner with levels := ⟨[], []⟩, nextSstId := next }

/-- Remove the tables of the inputs; which level each was at is not stored. -/
def removeInputs (inputIds : List Nat) : IoM Unit :=
  Prog.forEach (fun id => Prog.forEach
    (fun level => ignore (Io.removeFile (sstFilename level id))) [0, 1]) inputIds

def compactL0L1 : InnerM Unit := do
  let inner ← self
  let inputs := inner.levels.l1 ++ inner.levels.l0
  let newId := inner.nextSstId
  let expectedKeys := ((inner.levels.l0 ++ inner.levels.l1).map fun entry =>
    entry.reader.blockCount * 256).sum
  let (writer, wroteAny) ← onWorld (mergeInputs env (sstFilename 1 newId) expectedKeys inputs)
  installOutput env newId writer wroteAny
  onWorld (removeInputs (inputs.map SsTableEntry.id))
  onWorld (ignore Io.syncDir)

def maybeCompact : InnerM Unit := do
  let inner ← self
  if inner.levels.l0.length < env.options.l0CompactionTrigger then pure ()
  else compactL0L1 env

end EngineInner

end Sastran

/-
Opening a directory: which tables are live, what the log holds, and the vector index.

Liveness is read off the file names (`discoverSstables`): of several L1 tables only the newest is
live, and L0 tables not newer than it were inputs of the compaction that wrote it. The index comes
from the newest snapshot and the entries it does not reflect, or from all entries when there is no
snapshot or loading it fails (`recoverVectorIndex`).
-/

import Sastran.Engine.State
import Sastran.Library.SortById

namespace Sastran

open Device

variable {D : Type} [LinearOrder D] (env : Env D)

/-! ### Discovery -/

/-- The table files found so far. -/
structure Found where
  l0 : List (Nat × FileName)
  l1 : List (Nat × FileName)
  maxId : Option Nat

/-- Take over one name of the directory. -/
def Found.add (found : Found) (path : FileName) : Found :=
  if extension path ≠ some SST_EXT then found
  else
    match parseSstFilename path with
    | none => found
    | some (level, id) =>
      let found := { found with maxId := topId found.maxId id }
      match level with
      | 0 => { found with l0 := found.l0 ++ [(id, path)] }
      | 1 => { found with l1 := found.l1 ++ [(id, path)] }
      | _ => found

/-- Look at one name; stale temporary files are removed. -/
def visitPath (found : Found) (path : FileName) : IoM Found :=
  if extension path = some "tmp".toList then do
    ignore (Io.removeFile path)
    pure found
  else pure (found.add path)

/-- What is live of the tables of each level (L0 ascending by id), and the orphans. -/
structure Reconciled (α : Type) where
  orphanL1 : List (Nat × α)
  l1 : List (Nat × α)
  orphanL0 : List (Nat × α)
  l0 : List (Nat × α)

/-- Of several L1 tables the one with the highest id survives. -/
def splitL1 {α : Type} (l1 : List (Nat × α)) : List (Nat × α) × List (Nat × α) :=
  if l1.length > 1 then (sortById l1).splitAt (l1.length - 1) else ([], l1)

/-- L0 tables with ids up to the surviving L1 table's are orphans. -/
def splitL0 {α : Type} (survivors l0 : List (Nat × α)) : List (Nat × α) × List (Nat × α) :=
  match survivors with
  | [] => ([], l0)
  | (threshold, _) :: _ => l0.partition fun table => table.1 ≤ threshold

def reconcile {α : Type} (l0 l1 : List (Nat × α)) : Reconciled α :=
  let (orphanL1, keptL1) := splitL1 l1
  let (orphanL0, keptL0) := splitL0 keptL1 l0
  ⟨orphanL1, sortById keptL1, orphanL0, sortById keptL0⟩

def removeOrphans (orphans : List (Nat × FileName)) : IoM Unit :=
  Prog.forEach (fun orphan => ignore (Io.removeFile orphan.2)) orphans

def openTables (tables : List (Nat × FileName)) : IoM (List SsTableEntry) :=
  Prog.mapM (fun table => do
    let reader ← SsTableReader.open env.hashes table.2
    pure ⟨table.1, reader⟩) tables

def discoverSstables : IoM (LevelState × Nat) := do
  let paths ← Io.listDir
  let found ← Prog.foldM visitPath ⟨[], [], none⟩ paths
  let live := reconcile found.l0 found.l1
  removeOrphans live.orphanL1
  removeOrphans live.orphanL0
  let l0 ← openTables env live.l0
  let l1 ← openTables env live.l1
  let nextId ← Prog.ofOption
    (if nextOf found.maxId < u64Bound then some (nextOf found.maxId) else none)
  pure (⟨l0.reverse, l1⟩, nextId)

/-! ### The log -/

def walFileExists : IoM Bool := do
  let entries ← Io.listDir
  pure (decide (WAL_FILENAME ∈ entries))

/-- One record of the log. The source counts the replayed records, here they are collected. -/
def replayRound (state : WalReader × Memtable × List Record) :
    IoM ((WalReader × Memtable × List Record) ⊕ (Memtable × List Record)) := do
  let (reader, memtable, replayed) := state
  let (record, reader) ← reader.nextRecord env.hashes
  match record with
  | none => pure (.inr (memtable, replayed))
  | some record => pure (.inl (reader, memtable.apply record, replayed ++ [record]))

def replayWal (memtable : Memtable) : IoM (Memtable × List Record) := do
  let reader ← WalReader.open WAL_FILENAME
  Prog.loop (replayRound env) (reader.fileLen + 1) (reader, memtable, [])

/-- The memtable an existing log leaves, with the records replayed. -/
def replayExisting : IoM (Memtable × List Record) := do
  let present ← walFileExists
  if present then replayWal env Memtable.new else pure (Memtable.new, [])

/-! ### The vector index -/

/-- Run a program over an index that is being built; an error drops it. -/
def building {α : Type} (program : IndexM α) (index : VectorIndex) : IoM VectorIndex := fun world =>
  match program index with
  | .ok _ index => .ok index world
  | .err error _ => .err error world
  | .stuck => .stuck

/-- An index that is being built, and the keys a newer source has decided. -/
structure Building where
  index : VectorIndex
  seen : List Key

/-- Run a program for a key no newer source has decided. -/
def Building.once (state : Building) (key : Key) (program : IndexM Unit) : IoM Building :=
  if key ∈ state.seen then pure state
  else do
    let index ← building program state.index
    pure ⟨index, key :: state.seen⟩

/-- What an entry newer than the snapshot does to the loaded index. -/
def deltaProgram (key : Key) : Entry → IndexM Unit
  | .tombstone => IndexM.dropKey env.ops key
  | .put _ => IndexM.dropKey env.ops key
  | .vector bytes => do
    let embedding ← Prog.ofExcept (decodeVector bytes)
    IndexM.establish embedding.length fun d =>
      .corruption s!"delta vector dim {embedding.length} != index dim {d}"
    IndexM.dropKey env.ops key
    IndexM.addKey env.ops key embedding

def applyDeltaEntry (state : Building) (key : Key) (entry : Entry) : IoM Building :=
  state.once key (deltaProgram env key entry)

def insertIntoIndex (key : Key) (bytes : Bytes) : IndexM Unit := do
  let embedding ← Prog.ofExcept (decodeVector bytes)
  IndexM.establish embedding.length fun d =>
    .corruption ("vector entry dim mismatch during index rebuild: " ++
      s!"stored {embedding.length} but expected {d}")
  IndexM.addKey env.ops key embedding

/-- What an entry does to an index built from nothing. -/
def rebuildProgram (key : Key) : Entry → IndexM Unit
  | .tombstone => pure ()
  | .put _ => pure ()
  | .vector bytes => insertIntoIndex env key bytes

def ingestEntry (state : Building) (key : Key) (entry : Entry) : IoM Building :=
  state.once key (rebuildProgram env key entry)

/-- One entry of a table that is iterated over. -/
def ingestRound (step : Building → Key → Entry → IoM Building)
    (state : SsTableIterator × Building) : IoM ((SsTableIterator × Building) ⊕ Building) := do
  let (iterator, built) := state
  let (item, iterator) ← iterator.next env.hashes
  match item with
  | none => pure (.inr built)
  | some (.error error) => Prog.throw error
  | some (.ok (key, entry)) => do
    let built ← step built key entry
    pure (.inl (iterator, built))

/-- Run a step for every entry of a table; a table has fewer entries than bytes. -/
def ingestSstable (step : Building → Key → Entry → IoM Building) (built : Building)
    (entry : SsTableEntry) : IoM Building :=
  Prog.loop (ingestRound env step) (entry.reader.file.bytes.length + 1) (entry.reader.iter, built)

/-- Run a step for every entry of the memtable and of the tables, in order. -/
def ingestAll (step : Building → Key → Entry → IoM Building) (index : VectorIndex)
    (memtable : Memtable) (tables : List SsTableEntry) : IoM VectorIndex := do
  let built ← Prog.foldM (fun state entry => step state entry.1 entry.2) ⟨index, []⟩ memtable.iter
  let built ← Prog.foldM (ingestSstable env step) built tables
  pure built.index

def fullRebuildIndexFromLsm (inner : EngineInner) : IoM VectorIndex :=
  ingestAll env (ingestEntry env) (VectorIndex.new env.options.hnswParams) inner.memtable
    (inner.levels.l0 ++ inner.levels.l1)

def discoverLatestSnapshot : IoM (Option FileName) := do
  let paths ← Io.listDir
  let candidates := sortById (paths.filterMap fun path =>
    (parseSnapshotFilename path).map fun id => (id, path))
  match candidates.getLast? with
  | none => pure none
  | some (_, latest) => do
    removeOrphans candidates.dropLast
    pure (some latest)

def readFileFully (path : FileName) : IoM Bytes := do
  let file ← Io.openRead path
  let len ← file.len
  file.readAt 0 len

/-- The index of a decoded snapshot. -/
def loadedIndex (hnsw : HnswIndex) (keyToNode : SortedMap Key NodeId) : VectorIndex where
  hnsw := hnsw
  keyToNode := keyToNode
  nodeToKey := keyToNode.entries.foldl (fun map entry => map.insert entry.2 entry.1) SortedMap.empty
  expectedDim := if hnsw.dim = 0 then none else some hnsw.dim

/-- The tables a snapshot does not reflect, newest first. -/
def deltaTables (levels : LevelState) (snapshotNextSstableId : Nat) : List SsTableEntry :=
  ((levels.l0 ++ levels.l1).filter fun entry => entry.id ≥ snapshotNextSstableId).insertionSort
    fun first second => second.id ≤ first.id

def loadSnapshotAndApplyDelta (inner : EngineInner) (snapshotPath : FileName) : IoM VectorIndex := do
  let bytes ← readFileFully snapshotPath
  let (hnsw, keyToNode, snapshotNextSstableId) ←
    Prog.ofExcept (HnswIndex.decodeSnapshot env.hashes bytes)
  ingestAll env (applyDeltaEntry env) (loadedIndex hnsw keyToNode) inner.memtable
    (deltaTables inner.levels snapshotNextSstableId)

def recoverVectorIndex (inner : EngineInner) : IoM VectorIndex := do
  let snapshotPath ← discoverLatestSnapshot
  match snapshotPath with
  | none => fullRebuildIndexFromLsm env inner
  | some path => do
    let loaded ← Prog.attempt (loadSnapshotAndApplyDelta env inner path)
    match loaded with
    | .ok index => pure index
    | .error _ => fullRebuildIndexFromLsm env inner

end Sastran

/-
The engine's calls.

A mutating call is a sequence of atomic steps, as its locks are taken and released: the LSM step
(`logMutation` for the logged ones), the index step, and the three parts of a snapshot write. Between
two steps of a call other clients may take theirs.
-/

import Sastran.Engine.Lsm
import Sastran.Engine.Recovery

namespace Sastran

open Device

abbrev EngineM := Prog Error (Engine × World Fs)

namespace Engine

variable {D : Type} [LinearOrder D] (env : Env D)

/-- A program over the LSM state. -/
def onInner {α : Type} (program : InnerM α) : EngineM α :=
  Prog.zoom (fun state => (state.1.inner, state.2))
    (fun part state => ({ state.1 with inner := part.1 }, part.2)) program

/-- A program over the vector index. -/
def onIndex {α : Type} (program : IndexM α) : EngineM α :=
  Prog.zoom (fun state => state.1.vectorIndex)
    (fun index state => ({ state.1 with vectorIndex := index }, state.2)) program

/-- Open a directory, with the records replayed from its log. -/
def openReplaying : IoM (Engine × List Record) := do
  Io.createDirAll
  let (levels, nextSstId) ← discoverSstables env
  let (memtable, replayed) ← replayExisting env
  let writer ← WalWriter.open WAL_FILENAME
  let inner : EngineInner := ⟨writer, memtable, levels, nextSstId, false⟩
  let vectorIndex ← recoverVectorIndex env inner
  pure (⟨inner, vectorIndex⟩, replayed)

def «open» : IoM Engine := do
  let (engine, _) ← openReplaying env
  pure engine

/-! ### The LSM steps -/

def lockInner : InnerM EngineInner := do
  let inner ← self
  if inner.closed then Prog.throw .closed else pure inner

/-- The next table id, if it has changed. -/
def changedId (before : Nat) : InnerM (Option Nat) := do
  let inner ← self
  pure (if before ≠ inner.nextSstId then some inner.nextSstId else none)

/-- Append to the log and update the memtable. -/
def logRecord (kind : RecordKind) (key value : Bytes) : InnerM Nat := do
  let inner ← lockInner
  onWorld (inner.writer.append env.hashes kind key value)
  onWorld inner.writer.sync
  change fun inner => { inner with memtable := inner.memtable.apply ⟨kind, key, value⟩ }
  pure inner.nextSstId

/-- A logged mutation, with the flush and the compaction it may trigger. -/
def logMutation (kind : RecordKind) (key value : Bytes) : InnerM (Option Nat) := do
  let before ← logRecord env kind key value
  EngineInner.maybeAutoFlush env
  EngineInner.maybeCompact env
  changedId before

def flushLsm : InnerM (Option Nat) := do
  let inner ← lockInner
  EngineInner.flushInner env
  EngineInner.maybeCompact env
  changedId inner.nextSstId

/-! ### The index steps -/

def dimensionError (length d : Nat) : Error :=
  .invalidArgument s!"embedding dimension {length} does not match established dimension {d}"

/-- The check of `putIndexed` in front of the LSM step. -/
def checkEmbedding (embedding : List F32) : IndexM Unit := do
  let index ← Prog.get
  if embedding.isEmpty then
    Prog.throw (.invalidArgument "embedding must have at least one dimension")
  else if ¬ embedding.all F32.isFinite then
    Prog.throw (.invalidArgument "embedding contains non-finite values (NaN or infinity)")
  else
    match index.expectedDim with
    | none => pure ()
    | some d =>
      if embedding.length ≠ d then Prog.throw (dimensionError embedding.length d) else pure ()

def putIndexedIndex (key : Key) (embedding : List F32) : IndexM Unit := do
  IndexM.establish embedding.length (dimensionError embedding.length)
  IndexM.dropKey env.ops key
  IndexM.addKey env.ops key embedding

def deleteIndex (key : Key) : IndexM Unit := IndexM.dropKey env.ops key

/-! ### Snapshots -/

/-- The encoded index, with the marker of the engine. -/
def encodeIndex (nextSstableId : Nat) : EngineM Bytes := do
  let state ← Prog.get
  pure (HnswIndex.encodeSnapshot env.hashes state.1.vectorIndex.hnsw nextSstableId
    state.1.vectorIndex.keyToNode)

def installSnapshot (nextSstableId : Nat) (bytes : Bytes) : IoM Unit := do
  let filename := snapshotFilename nextSstableId
  let writer ← Io.openAppend (tmpName filename)
  writer.append bytes
  writer.sync
  Io.rename (tmpName filename) filename
  Io.syncDir

/-- Remove a snapshot with another id. -/
def removeOlder (nextSstableId : Nat) (path : FileName) : IoM Unit :=
  if path = snapshotFilename nextSstableId then pure ()
  else
    match parseSnapshotFilename path with
    | none => pure ()
    | some otherId => if otherId ≠ nextSstableId then ignore (Io.removeFile path) else pure ()

def cleanSnapshots (nextSstableId : Nat) : IoM Unit := do
  let listed ← Prog.attempt Io.listDir
  match listed with
  | .error _ => pure ()
  | .ok paths => Prog.forEach (removeOlder nextSstableId) paths

def writeSnapshot (nextSstableId : Nat) : EngineM Unit := do
  let bytes ← encodeIndex env nextSstableId
  onWorld (installSnapshot nextSstableId bytes)
  onWorld (cleanSnapshots nextSstableId)

/-- Write a snapshot if the LSM step changed the tables. -/
def writeSnapshotAfter (nextIdAfter : Option Nat) : EngineM Unit :=
  match nextIdAfter with
  | some next => writeSnapshot env next
  | none => pure ()

/-! ### Calls -/

def put (key value : Bytes) : EngineM Unit := do
  let nextIdAfter ← onInner (logMutation env .put key value)
  writeSnapshotAfter env nextIdAfter

def delete (key : Key) : EngineM Unit := do
  let nextIdAfter ← onInner (logMutation env .delete key [])
  onIndex (deleteIndex env key)
  writeSnapshotAfter env nextIdAfter

def putIndexed (key : Key) (embedding : List F32) : EngineM Unit := do
  onIndex (checkEmbedding embedding)
  let nextIdAfter ← onInner (logMutation env .vector key (encodeVector embedding))
  onIndex (putIndexedIndex env key embedding)
  writeSnapshotAfter env nextIdAfter

def flush : EngineM Unit := do
  let nextIdAfter ← onInner (flushLsm env)
  writeSnapshotAfter env nextIdAfter

/-- The first table that holds the key answers. -/
def searchTables (key : Key) : List SsTableEntry → IoM (Option Bytes)
  | [] => pure none
  | entry :: rest => do
    let found ← entry.reader.get env.hashes key
    match found with
    | .found value => pure (some value)
    | .deleted => pure none
    | .missing => searchTables key rest

def get (key : Key) : EngineM (Option Bytes) := do
  let inner ← onInner lockInner
  match inner.memtable.get key with
  | .found value => pure (some value)
  | .deleted => pure none
  | .missing => onWorld (searchTables env key (inner.levels.l0 ++ inner.levels.l1))

/-- The hits that have a key. -/
def withKeys (index : VectorIndex) (hits : List (NodeId × D)) : List (NearestResult D) :=
  hits.filterMap fun (nodeId, distance) =>
    (index.keyForNode nodeId).map fun key => ⟨key, distance⟩

def nearest (query : List F32) (k : Nat) : IndexM (List (NearestResult D)) := do
  let hits ← IndexM.onHnsw (HnswIndex.search env.ops query k)
  let index ← Prog.get
  pure (withKeys index hits)

/-- The bytes of a `NearestResult`: the vector of its key, and a distance. -/
def resultBytes : Nat := 32

/-- One search of `nearestFiltered`; the next one is twice as wide. -/
def filteredRound (query : List F32) (k : Nat) (predicate : Key → Bool) (live factor : Nat) :
    IndexM (Nat ⊕ List (NearestResult D)) := do
  let searchK := min (min (k * factor) (u64Bound - 1)) live
  let hits ← IndexM.onHnsw (HnswIndex.search env.ops query searchK)
  -- `Vec::with_capacity(k)`, however few results there will be
  if k * resultBytes ≥ isizeBound then Prog.stop
  else do
    let index ← Prog.get
    let results := ((withKeys index hits).filter fun result => predicate result.key).take k
    pure (if results.length = k ∨ searchK ≥ live then .inr results
      else .inl (min (factor * 2) (u64Bound - 1)))

def nearestFiltered (query : List F32) (k : Nat) (predicate : Key → Bool) :
    IndexM (List (NearestResult D)) := do
  let index ← Prog.get
  if k = 0 then pure []
  else if index.liveCount = 0 then pure []
  else Prog.loop (filteredRound env query k predicate index.liveCount) u64Bound 10

def close : InnerM Unit := do
  let inner ← self
  if inner.closed then pure ()
  else do
    onWorld inner.writer.sync
    change fun inner => { inner with closed := true }

/-! ### Counts -/

def sstableCount (engine : Engine) : Nat := engine.inner.levels.total

def levelCounts (engine : Engine) : Nat × Nat :=
  (engine.inner.levels.l0.length, engine.inner.levels.l1.length)

def memtableLen (engine : Engine) : Nat := engine.inner.memtable.len

/-- Close the engine and open its directory again. -/
def reopen : EngineM Unit := do
  onInner close
  let engine ← onWorld (Engine.open env)
  Prog.modify fun state => (engine, state.2)

end Engine

/-- An environment to run examples in: constant checksums, and arithmetic on zeros and ones. -/
def Env.zeroOne (options : Options) : Env Nat := ⟨⟨fun _ => 0, fun _ => (0, 0)⟩, FloatOps.zeroOne, options⟩

end Sastran

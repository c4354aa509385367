/-
What an open engine holds: the LSM state behind the mutex and the vector index behind its lock.

Programs over the LSM state (`InnerM`) and over the index (`IndexM`) are written as the methods of the
source are; `onWorld` runs a call on the file system in the former.
-/

import Sastran.Hnsw.Snapshot
import Sastran.SsTable.Merge
import Sastran.SsTable.Writer
import Sastran.Wal.Log

namespace Sastran

open Device

structure Options where
  memtableMaxSizeBytes : Nat
  l0CompactionTrigger : Nat
  bloomBitsPerKey : Nat
  hnswParams : HnswParams

/-- What an engine is opened with: its options and the code outside the repository. -/
structure Env (D : Type) where
  hashes : Hashes
  ops : FloatOps D
  options : Options

structure SsTableEntry where
  id : Nat
  reader : SsTableReader

/-- The live tables: L0 newest first, and L1. -/
structure LevelState where
  l0 : List SsTableEntry
  l1 : List SsTableEntry

/-- The number of tables across all levels. -/
def LevelState.total (levels : LevelState) : Nat := levels.l0.length + levels.l1.length

structure EngineInner where
  writer : WalWriter
  memtable : Memtable
  levels : LevelState
  nextSstId : Nat
  closed : Bool

structure VectorIndex where
  hnsw : HnswIndex
  keyToNode : SortedMap Key NodeId
  nodeToKey : SortedMap NodeId Key
  expectedDim : Option Nat

structure Engine where
  inner : EngineInner
  vectorIndex : VectorIndex

structure NearestResult (D : Type) where
  key : Key
  distance : D

/-! ### Programs over the LSM state -/

abbrev InnerM := Prog Error (EngineInner × World Fs)

/-- A call on the file system. -/
def onWorld {σ α : Type} (program : IoM α) : Prog Error (σ × World Fs) α :=
  Prog.zoom Prod.snd (fun world state => (state.1, world)) program

/-- The state without the file system. -/
def self {σ : Type} : Prog Error (σ × World Fs) σ := do
  let state ← Prog.get
  pure state.1

def change {σ : Type} (next : σ → σ) : Prog Error (σ × World Fs) Unit :=
  Prog.modify fun state => (next state.1, state.2)

/-! ### Programs over the vector index -/

namespace VectorIndex

def new (params : HnswParams) : VectorIndex :=
  ⟨HnswIndex.new params, SortedMap.empty, SortedMap.empty, none⟩

def liveCount (index : VectorIndex) : Nat := index.hnsw.liveLen

def register (index : VectorIndex) (key : Key) (nodeId : NodeId) : VectorIndex :=
  { index with
    keyToNode := index.keyToNode.insert key nodeId
    nodeToKey := index.nodeToKey.insert nodeId key }

def unregister (index : VectorIndex) (key : Key) : Option NodeId × VectorIndex :=
  match index.keyToNode.find? key with
  | none => (none, index)
  | some nodeId => (some nodeId, { index with
      keyToNode := index.keyToNode.erase key
      nodeToKey := index.nodeToKey.erase nodeId })

def keyForNode (index : VectorIndex) (nodeId : NodeId) : Option Key := index.nodeToKey.find? nodeId

end VectorIndex

abbrev IndexM := Prog Error VectorIndex

namespace IndexM

variable {D : Type} [LinearOrder D] (ops : FloatOps D)

def onHnsw {α : Type} (program : Prog Error HnswIndex α) : IndexM α :=
  Prog.zoom VectorIndex.hnsw (fun hnsw index => { index with hnsw := hnsw }) program

/-- Unregister a key and delete its node, if it has one. -/
def dropKey (key : Key) : IndexM Unit := do
  let index ← Prog.get
  match index.unregister key with
  | (none, _) => pure ()
  | (some nodeId, unregistered) => do
    Prog.set unregistered
    onHnsw (HnswIndex.delete ops nodeId)

/-- Insert a vector and register its node. -/
def addKey (key : Key) (embedding : List F32) : IndexM Unit := do
  let nodeId ← onHnsw (HnswIndex.insert ops embedding)
  Prog.modify fun index => index.register key nodeId

/-- Take over the dimension of the first vector; later ones have to match. -/
def establish (length : Nat) (mismatch : Nat → Error) : IndexM Unit := do
  let index ← Prog.get
  match index.expectedDim with
  | none => Prog.set { index with expectedDim := some length }
  | some d => if length ≠ d then Prog.throw (mismatch d) else pure ()

end IndexM

/-! ### Vectors as bytes -/

def encodeVector (v : List F32) : Bytes := v.flatMap F32.toLeBytes

/-- The components of bytes whose number is a multiple of four. -/
def decodeComponents : Bytes → List F32
  | a :: b :: c :: d :: rest => F32.fromLeBytes [a, b, c, d] :: decodeComponents rest
  | _ => []

def decodeVector (bytes : Bytes) : Except Error (List F32) :=
  if bytes.length % 4 ≠ 0 then
    .error (.corruption s!"vector byte length {bytes.length} is not a multiple of 4")
  else .ok (decodeComponents bytes)

@[simp] theorem encodeVector_length (v : List F32) : (encodeVector v).length = 4 * v.length := by
  induction v with
  | nil => rfl
  | cons x v ih =>
    rw [encodeVector, List.flatMap_cons, List.length_append, ← encodeVector, ih]
    simp only [F32.toLeBytes, LittleEndian.leBytes_length, List.length_cons]
    omega

theorem decodeComponents_encodeVector (v : List F32) : decodeComponents (encodeVector v) = v := by
  induction v with
  | nil => rfl
  | cons x v ih =>
    have four : ∃ a b c d, x.toLeBytes = [a, b, c, d] := ⟨_, _, _, _, rfl⟩
    obtain ⟨a, b, c, d, same⟩ := four
    rw [encodeVector, List.flatMap_cons, ← encodeVector, same]
    simp only [List.cons_append, List.nil_append, decodeComponents]
    rw [ih, ← same, F32.fromLeBytes_toLeBytes]

/-- **Vectors survive the byte-oriented log and tables.** -/
theorem decodeVector_encodeVector (v : List F32) : decodeVector (encodeVector v) = .ok v := by
  rw [decodeVector, if_neg (by rw [encodeVector_length]; omega), decodeComponents_encodeVector]

end Sastran

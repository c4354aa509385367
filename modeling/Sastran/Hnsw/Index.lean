/-
The HNSW graph: insertion, deletion with edge repair, and search.

Nodes live in an arena and are never removed, a deleted one is only marked. An index into the arena
or into a node's layers that does not exist panics; functions that can do so return `Option`. The two
unbounded loops (greedy descent and beam search) run on fuel: both visit a node at most once, so the
size of the arena bounds their rounds.

* `insert`, `delete` - change the graph; their errors keep what was changed before.
* `search` - the nearest live nodes, closest first.
* `greedySearchLayer`, `searchLayer`, `selectNeighborsHeuristic` - what all three are made of.
-/

import Mathlib.Data.List.Sort
import Sastran.Hnsw.Metric
import Sastran.Library.Heap

namespace Sastran

open Device

structure Node where
  vector : List F32
  neighbors : List (List NodeId)
  deleted : Bool
  deriving DecidableEq, Repr

structure EntryPoint where
  node : NodeId
  level : Nat
  deriving DecidableEq, Repr

/-- The generator's state is the number of samples it has drawn. -/
structure HnswIndex where
  params : HnswParams
  metric : DistanceMetric
  dim : Nat
  nodes : List Node
  entry : Option EntryPoint
  draws : Nat
  deriving DecidableEq, Repr

structure Candidate (D : Type) where
  id : NodeId
  dist : D

/-- The bound of node ids. -/
def nodeIdBound : Nat := 2 ^ 32

namespace HnswIndex

def new (params : HnswParams) : HnswIndex := ⟨params, params.metric, params.dim, [], none, 0⟩

def len (index : HnswIndex) : Nat := index.nodes.length

def isEmpty (index : HnswIndex) : Bool := index.nodes.isEmpty

def isDeleted (index : HnswIndex) (id : NodeId) : Bool :=
  match index.nodes[id]? with
  | some node => node.deleted
  | none => true

def liveLen (index : HnswIndex) : Nat := (index.nodes.filter fun node => !node.deleted).length

/-- The neighbor list of a node at a layer. -/
def neighborsAt (index : HnswIndex) (id : NodeId) (layer : Nat) : Option (List NodeId) := do
  let node ← index.nodes[id]?
  node.neighbors[layer]?

/-- Change the neighbor list of a node at a layer. -/
def modifyLayer (index : HnswIndex) (id : NodeId) (layer : Nat)
    (change : List NodeId → List NodeId) : Option HnswIndex := do
  let node ← index.nodes[id]?
  let list ← node.neighbors[layer]?
  some { index with
    nodes := index.nodes.set id { node with neighbors := node.neighbors.set layer (change list) } }

/-- The degree bound of a layer. -/
def maxDegree (index : HnswIndex) (layer : Nat) : Nat :=
  if layer = 0 then index.params.mMax0 else index.params.m

section Search

variable {D : Type} [LinearOrder D] (ops : FloatOps D)

def distance (index : HnswIndex) (query : List F32) (id : NodeId) : Option D := do
  let node ← index.nodes[id]?
  some (ops.distanceForMetric index.metric query node.vector)

/-- The closest of the neighbors and the best so far, the first one among equals. -/
def closestNeighbor (index : HnswIndex) (query : List F32) (best : NodeId × D)
    (neighbors : List NodeId) : Option (NodeId × D) :=
  neighbors.foldlM (fun best neighbor => do
    let dist ← index.distance ops query neighbor
    some (if dist < best.2 then (neighbor, dist) else best)) best

/-- Walk to the closest neighbor while it is closer. -/
def greedyLoop (index : HnswIndex) (query : List F32) (layer : Nat) :
    Nat → NodeId × D → Option NodeId
  | 0, _ => none
  | fuel + 1, current => do
    let neighbors ← index.neighborsAt current.1 layer
    let best ← index.closestNeighbor ops query current neighbors
    if best.1 = current.1 then some current.1 else greedyLoop index query layer fuel best

def greedySearchLayer (index : HnswIndex) (query : List F32) (start : NodeId) (layer : Nat) :
    Option NodeId := do
  let dist ← index.distance ops query start
  greedyLoop ops index query layer (index.nodes.length + 1) (start, dist)

/-- The heap of candidates: the closest is on top. -/
def fartherBelow (first second : Candidate D) : Bool := decide (second.dist < first.dist)

/-- The heap of results: the farthest is on top. -/
def closerBelow (first second : Candidate D) : Bool := decide (first.dist < second.dist)

/-- The state of a beam search. -/
structure Beam (D : Type) where
  visited : List NodeId
  candidates : List (Candidate D)
  results : List (Candidate D)

/-- The distance of the worst result. -/
def worst (results : List (Candidate D)) : D :=
  match Heap.peek closerBelow results with
  | some result => result.dist
  | none => ops.infinity

/-- Look at one neighbor of the candidate being expanded. -/
def visitNeighbor (index : HnswIndex) (query : List F32) (ef : Nat) (beam : Beam D)
    (neighbor : NodeId) : Option (Beam D) :=
  if neighbor ∈ beam.visited then some beam
  else do
    let beam := { beam with visited := neighbor :: beam.visited }
    let dist ← index.distance ops query neighbor
    if dist < worst ops beam.results ∨ beam.results.length < ef then
      let results := ⟨neighbor, dist⟩ :: beam.results
      some { beam with
        candidates := ⟨neighbor, dist⟩ :: beam.candidates
        results :=
          if results.length > ef then
            match Heap.popMax closerBelow results with
            | some (_, rest) => rest
            | none => results
          else results }
    else some beam

/-- Expand the closest candidate until it is worse than every result. -/
def beamLoop (index : HnswIndex) (query : List F32) (layer ef : Nat) :
    Nat → Beam D → Option (List (Candidate D))
  | 0, _ => none
  | fuel + 1, beam =>
    match Heap.popMax fartherBelow beam.candidates with
    | none => some beam.results
    | some (closest, rest) =>
      if worst ops beam.results < closest.dist then some beam.results
      else do
        let neighbors ← index.neighborsAt closest.id layer
        let beam ← neighbors.foldlM (index.visitNeighbor ops query ef)
          { beam with candidates := rest }
        beamLoop index query layer ef fuel beam

def searchLayer (index : HnswIndex) (query : List F32) (start : NodeId) (layer ef : Nat) :
    Option (List (Candidate D)) := do
  let dist ← index.distance ops query start
  index.beamLoop ops query layer ef (index.nodes.length + 1)
    ⟨[start], [⟨start, dist⟩], [⟨start, dist⟩]⟩

/-- Candidates in ascending order of distance; equal ones keep their order. -/
def sortByDist (candidates : List (Candidate D)) : List (Candidate D) :=
  candidates.insertionSort fun first second => first.dist ≤ second.dist

/-- No chosen candidate is closer to the new one than the vector being linked is. -/
def admits (index : HnswIndex) (candidate : Candidate D) : List (Candidate D) → Option Bool
  | [] => some true
  | chosen :: rest => do
    let node ← index.nodes[candidate.id]?
    let other ← index.nodes[chosen.id]?
    if ops.distanceForMetric index.metric node.vector other.vector < candidate.dist then some false
    else admits index candidate rest

/-- Walk over sorted candidates, choosing at most `m`. -/
def chooseFrom (index : HnswIndex) (m : Nat) (chosen : List (Candidate D)) :
    List (Candidate D) → Option (List (Candidate D))
  | [] => some chosen
  | candidate :: rest =>
    if chosen.length ≥ m then some chosen
    else do
      let admitted ← index.admits ops candidate chosen
      chooseFrom index m (if admitted then chosen ++ [candidate] else chosen) rest

/-- The selection, as far as the vector for it can be had. -/
def chooseNeighbors (index : HnswIndex) (candidates : List (Candidate D)) (m : Nat) :
    Option (List (Candidate D)) :=
  index.chooseFrom ops m [] (sortByDist candidates)

/-- The bytes of a candidate: an id and a distance. -/
def candidateBytes : Nat := 8

/-- `Vec::with_capacity(m)` comes before the selection. The calls in this file go to `chooseNeighbors`:
they are modelled for parameters `m` of which a vector can be had. -/
def selectNeighborsHeuristic (index : HnswIndex) (candidates : List (Candidate D)) (m : Nat) :
    Option (List (Candidate D)) :=
  if m * candidateBytes ≥ isizeBound then none else index.chooseNeighbors ops candidates m

/-- A neighbor as a candidate for the node's list. -/
def measure (index : HnswIndex) (node : Node) (neighbor : NodeId) : Option (Candidate D) :=
  (index.distance ops node.vector neighbor).map fun dist => ⟨neighbor, dist⟩

def trimNeighbors (index : HnswIndex) (id : NodeId) (layer max : Nat) : Option HnswIndex := do
  let neighbors ← index.neighborsAt id layer
  if neighbors.length ≤ max then some index
  else
    let node ← index.nodes[id]?
    let candidates ← neighbors.mapM (index.measure ops node)
    let kept ← index.chooseNeighbors ops candidates max
    index.modifyLayer id layer fun _ => kept.map Candidate.id

/-- Trim a neighbor list that is over its bound. -/
def trimOver (index : HnswIndex) (id : NodeId) (layer max : Nat) : Option HnswIndex := do
  let neighbors ← index.neighborsAt id layer
  if neighbors.length > max then index.trimNeighbors ops id layer max else some index

/-- Add an edge to a neighbor list, which is trimmed if it is over its bound now. -/
def wire (index : HnswIndex) (id : NodeId) (layer max : Nat) (other : NodeId) : Option HnswIndex := do
  let index ← index.modifyLayer id layer (· ++ [other])
  index.trimOver ops id layer max

/-! ### Insertion -/

def assignLevel (index : HnswIndex) : Nat :=
  (min (max (ops.levelSample index.params index.draws) 0) 30).toNat

/-- The greedy descent through the layers `low + 1 .. top`, from the top. -/
def descend (index : HnswIndex) (query : List F32) (low top : Nat) (start : NodeId) :
    Option NodeId :=
  (List.range' (low + 1) (top - low)).reverse.foldlM
    (fun current layer => index.greedySearchLayer ops query current layer) start

/-- The closest candidate, the first one among equals. -/
def closest : List (Candidate D) → Option (Candidate D)
  | [] => none
  | first :: rest =>
    some (rest.foldl
      (fun best candidate => if candidate.dist < best.dist then candidate else best) first)

/-- Link a new node at one layer; the entry for the next lower layer is the closest candidate. -/
def linkLayer (query : List F32) (id : NodeId) (state : HnswIndex × NodeId) (layer : Nat) :
    Option (HnswIndex × NodeId) := do
  let (index, start) := state
  let candidates ← index.searchLayer ops query start layer index.params.efConstruction
  let max := index.maxDegree layer
  let neighbors ← index.chooseNeighbors ops candidates index.params.m
  let linked ← index.modifyLayer id layer fun _ => neighbors.map Candidate.id
  let wired ← neighbors.foldlM
    (fun (index : HnswIndex) candidate => index.wire ops candidate.id layer max id) linked
  some (wired, match closest candidates with
    | some candidate => candidate.id
    | none => start)

/-- Link a new node at the layers `top .. 0`. -/
def linkLayers (index : HnswIndex) (query : List F32) (id start : NodeId) (top : Nat) :
    Option HnswIndex := do
  let linked ← (List.range (top + 1)).reverse.foldlM (linkLayer ops query id) (index, start)
  some linked.1

/-- The dimension is that of the first vector, unless the parameters fix it. -/
def establishDim (vector : List F32) : Prog Error HnswIndex Unit := do
  let index ← Prog.get
  if index.dim = 0 then
    if vector.isEmpty then
      Prog.throw (.invalidArgument "cannot insert zero-dimension vector")
    else Prog.set { index with dim := vector.length }
  else if vector.length ≠ index.dim then
    Prog.throw (.invalidArgument
      s!"vector dimension mismatch: expected {index.dim}, got {vector.length}")
  else pure ()

/-- The arena with one more node, which has empty neighbor lists up to its level. -/
def grow (index : HnswIndex) (processed : List F32) (level : Nat) : HnswIndex :=
  { index with
    draws := index.draws + 1
    nodes := index.nodes ++ [⟨processed, List.replicate (level + 1) [], false⟩] }

/-- The entry point is the new node if it is on a new highest layer. -/
def raiseEntry (index : HnswIndex) (top : Nat) (point : EntryPoint) : HnswIndex :=
  if point.level > top then { index with entry := some point } else index

/-- Add a node for a processed vector and link it. -/
def addNode (index : HnswIndex) (processed : List F32) : Option (NodeId × HnswIndex) :=
  let level := index.assignLevel ops
  let id := index.nodes.length % nodeIdBound
  let grown := index.grow processed level
  match index.entry with
  | none => some (id, { grown with entry := some ⟨id, level⟩ })
  | some entry => do
    let start ← grown.descend ops processed level entry.level entry.node
    let linked ← grown.linkLayers ops processed id start (min level entry.level)
    some (id, linked.raiseEntry entry.level ⟨id, level⟩)

def insert (vector : List F32) : Prog Error HnswIndex NodeId := do
  establishDim vector
  let index ← Prog.get
  match ops.preprocessVector index.metric vector with
  | none =>
    Prog.throw (.invalidArgument ("cannot insert invalid vector " ++
      "(zero-norm for cosine, or contains non-finite values)"))
  | some processed => do
    let (id, index) ← Prog.ofOption (index.addNode ops processed)
    Prog.set index
    pure id

/-! ### Deletion -/

/-- Look at one node for the new entry point; of equal levels the later one is kept. -/
def considerEntry (best : Option EntryPoint) (item : Node × Nat) : Option (Option EntryPoint) :=
  if item.1.deleted then some best
  else if item.1.neighbors.isEmpty then none
  else
    let point : EntryPoint := ⟨item.2 % nodeIdBound, (item.1.neighbors.length - 1) % 256⟩
    match best with
    | some held => some (some (if held.level ≤ point.level then point else held))
    | none => some (some point)

/-- The live node with the highest level. -/
def pickNewEntry (index : HnswIndex) : Option (Option EntryPoint) :=
  index.nodes.zipIdx.foldlM considerEntry none

/-- The candidates of a beam search that are not deleted. -/
def searchLayerSkippingDeleted (index : HnswIndex) (query : List F32) (start : NodeId)
    (layer ef : Nat) : Option (List (Candidate D)) := do
  let raw ← index.searchLayer ops query start layer ef
  raw.filterM fun candidate => do
    let node ← index.nodes[candidate.id]?
    some (!node.deleted)

/-- Give one neighbor of a deleted node new edges. -/
def repairNeighbor (deletedId : NodeId) (layer : Nat) (index : HnswIndex) (id : NodeId) :
    Option HnswIndex := do
  let max := index.maxDegree layer
  let index ← index.modifyLayer id layer (List.filter (· ≠ deletedId))
  let node ← index.nodes[id]?
  let raw ← index.searchLayerSkippingDeleted ops node.vector id layer index.params.efConstruction
  let linked ← index.neighborsAt id layer
  let novel := raw.filter fun candidate => candidate.id ≠ id ∧ candidate.id ∉ linked
  let chosen ← index.chooseNeighbors ops novel index.params.m
  let wired ← chosen.foldlM (fun (index : HnswIndex) candidate => do
    let index ← index.modifyLayer id layer (· ++ [candidate.id])
    index.wire ops candidate.id layer max id) index
  wired.trimOver ops id layer max

def repairLayerAfterDelete (deletedId : NodeId) (index : HnswIndex) (layer : Nat) :
    Option HnswIndex := do
  let neighbors ← index.neighborsAt deletedId layer
  let affected ← neighbors.filterM fun neighbor => do
    let node ← index.nodes[neighbor]?
    some (!node.deleted)
  affected.foldlM (repairNeighbor ops deletedId layer) index

/-- Mark a node deleted and repair the edges of its neighbors. -/
def removeNode (index : HnswIndex) (id : NodeId) : Option HnswIndex := do
  let node ← index.nodes[id]?
  let marked := { index with nodes := index.nodes.set id { node with deleted := true } }
  if node.neighbors.isEmpty then none
  else
    let deletedLevel := (node.neighbors.length - 1) % 256
    let repaired ← (List.range (deletedLevel + 1)).foldlM (repairLayerAfterDelete ops id) marked
    if repaired.entry.map EntryPoint.node = some id then do
      let entry ← repaired.pickNewEntry
      some { repaired with entry := entry }
    else some repaired

def delete (id : NodeId) : Prog Error HnswIndex Unit := do
  let index ← Prog.get
  if id ≥ index.nodes.length then
    Prog.throw (.invalidArgument
      s!"delete: id {id} out of range (arena size {index.nodes.length})")
  else if index.isDeleted id then
    Prog.throw (.invalidArgument s!"delete: id {id} is already deleted")
  else do
    let index ← Prog.ofOption (index.removeNode ops id)
    Prog.set index

/-! ### Search -/

/-- The nearest live nodes to a processed query. -/
def searchFrom (index : HnswIndex) (processed : List F32) (entry : EntryPoint) (k : Nat) :
    Option (List (NodeId × D)) := do
  let start ← index.descend ops processed 0 entry.level entry.node
  if k * 2 ≥ u64Bound then none
  else
    let ef := max (max index.params.efSearch (k * 2)) k
    let filtered ← index.searchLayerSkippingDeleted ops processed start 0 ef
    some (((sortByDist filtered).take k).map fun candidate => (candidate.id, candidate.dist))

def search (query : List F32) (k : Nat) : Prog Error HnswIndex (List (NodeId × D)) := do
  let index ← Prog.get
  match index.entry with
  | none => pure []
  | some entry =>
    if index.isEmpty ∨ k = 0 then pure []
    else if query.length ≠ index.dim then
      Prog.throw (.invalidArgument
        s!"query dimension mismatch: expected {index.dim}, got {query.length}")
    else
      match ops.preprocessVector index.metric query with
      | none =>
        Prog.throw (.invalidArgument ("cannot search for invalid query vector " ++
          "(zero-norm for cosine, or contains non-finite values)"))
      | some processed => Prog.ofOption (index.searchFrom ops processed entry k)

end Search

end HnswIndex

end Sastran

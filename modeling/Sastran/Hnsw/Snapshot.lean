/-
The on-disk snapshot of the graph.

A snapshot holds the parameters, the marker of the engine (the first table id it does not reflect),
the entry point, and every node with its vector, its key and its neighbor lists, with a checksum
behind. Readers take bytes from the front of those not read yet. The result is `decode_encode`: what
was encoded is decoded, up to the generator, which starts over.
-/

import Sastran.Hnsw.Arena

namespace Sastran

open LittleEndian

namespace Snapshot

def MAGIC : Bytes := ascii "SASTHNS1"

def VERSION : Nat := 3

def HEADER_LEN : Nat := 8 + 4 + 4 + 8

def PARAMS_LEN : Nat := 1 + 4 + 4 + 4 + 4 + 4 + 8 + 8

def ENTRY_LEN : Nat := 1 + 4 + 1

def MIN_LEN : Nat := HEADER_LEN + PARAMS_LEN + ENTRY_LEN + 4 + 4

end Snapshot

namespace DistanceMetric

def toTag : DistanceMetric → UInt8
  | .cosine => 0x01
  | .euclideanSquared => 0x02
  | .innerProduct => 0x03

def fromTag (tag : UInt8) : Except Error DistanceMetric :=
  if tag = 0x01 then .ok .cosine
  else if tag = 0x02 then .ok .euclideanSquared
  else if tag = 0x03 then .ok .innerProduct
  else .error (.corruption s!"unknown distance metric tag {hex8 tag.toNat}")

theorem fromTag_toTag (metric : DistanceMetric) : fromTag metric.toTag = .ok metric := by
  cases metric <;> rfl

end DistanceMetric

/-! ### Encoding -/

namespace HnswIndex

/-- The key of a node; none for a node no key is registered for. -/
def keyOf (keys : SortedMap Key NodeId) (id : NodeId) : Key :=
  (((keys.entries.filter fun entry => entry.2 = id).getLast?).map Prod.fst).getD []

def encodeLayer (layer : List NodeId) : Bytes :=
  leBytes 4 layer.length ++ layer.flatMap (leBytes 4)

def encodeKey (key : Key) : Bytes := leBytes 4 key.length ++ key

def encodeOneNode (node : Node) (key : Key) : Bytes :=
  (if node.deleted then 1 else 0) :: (leBytes 4 node.vector.length ++
    (node.vector.flatMap F32.toLeBytes ++ (encodeKey key ++
      (UInt8.ofNat node.neighbors.length :: node.neighbors.flatMap encodeLayer))))

def encodeEntry : Option EntryPoint → Bytes
  | some entry => 1 :: (leBytes 4 entry.node ++ [UInt8.ofNat entry.level])
  | none => 0 :: (leBytes 4 0 ++ [0])

def encodeNodes (keys : SortedMap Key NodeId) (nodes : List Node) : Bytes :=
  nodes.zipIdx.flatMap fun (node, id) => encodeOneNode node (keyOf keys id)

def encodeParams (index : HnswIndex) (nextSstableId : Nat) : Bytes :=
  index.metric.toTag :: (leBytes 4 index.params.m ++ (leBytes 4 index.params.mMax0 ++
    (leBytes 4 index.params.efConstruction ++ (leBytes 4 index.params.efSearch ++
      (leBytes 4 index.dim ++ (leBytes 8 index.params.seed ++ leBytes 8 nextSstableId))))))

def encodeHeader : Bytes :=
  Snapshot.MAGIC ++ (leBytes 4 Snapshot.VERSION ++ (leBytes 4 0 ++ List.replicate 8 0))

/-- Everything in front of the checksum. -/
def encodeBody (index : HnswIndex) (nextSstableId : Nat) (keys : SortedMap Key NodeId) : Bytes :=
  encodeHeader ++ (index.encodeParams nextSstableId ++ (encodeEntry index.entry ++
    (leBytes 4 index.nodes.length ++ encodeNodes keys index.nodes)))

def encodeSnapshot (hashes : Hashes) (index : HnswIndex) (nextSstableId : Nat)
    (keys : SortedMap Key NodeId) : Bytes :=
  let body := index.encodeBody nextSstableId keys
  body ++ leBytes 4 (hashes.crc32 body).toNat

end HnswIndex

/-! ### Decoding -/

namespace Snapshot

/-- Take from the front of the bytes not read yet. -/
abbrev Reader (α : Type) := StateT Bytes (Except Error) α

def require (holds : Prop) [Decidable holds] (error : Error) : Reader Unit :=
  if holds then pure () else throw error

/-- The next bytes, when there are enough. -/
def readBytes (count : Nat) (error : Error) : Reader Bytes := do
  let rest ← get
  require (count ≤ rest.length) error
  set (rest.drop count)
  pure (rest.take count)

def readU8 : Reader UInt8 := do
  let bytes ← readBytes 1 (.corruption "unexpected end of snapshot (u8)")
  pure (bytes.headD 0)

def readU32 : Reader Nat := do
  let bytes ← readBytes 4 (.corruption "unexpected end of snapshot (u32)")
  pure (leNat bytes)

def readU64 : Reader Nat := do
  let bytes ← readBytes 8 (.corruption "unexpected end of snapshot (u64)")
  pure (leNat bytes)

def readF32 : Reader F32 := do
  let bytes ← readBytes 4 (.corruption "unexpected end of snapshot (f32)")
  pure (F32.fromLeBytes bytes)

def readMany {α : Type} (read : Reader α) : Nat → Reader (List α)
  | 0 => pure []
  | count + 1 => do
    let first ← read
    let rest ← readMany read count
    pure (first :: rest)

def readKey (nodeId : Nat) : Reader Key := do
  let keyLen ← readU32
  readBytes keyLen
    (.corruption s!"node {nodeId}: key bytes ({keyLen}) extend past end of body")

/-- Live nodes populate the key map; empty keys are legal for deleted nodes only. -/
def registerKey (nodeId : Nat) (deleted : Bool) (key : Key) (keys : SortedMap Key NodeId) :
    Reader (SortedMap Key NodeId) :=
  if deleted then pure keys
  else if key.isEmpty then throw (.corruption s!"node {nodeId}: live node has empty key")
  else if keys.find? key ≠ none then
    throw (.corruption s!"node {nodeId}: duplicate key in snapshot")
  else pure (keys.insert key nodeId)

def readNeighbor (nodeId layer nodeCount : Nat) : Reader NodeId := do
  let nid ← readU32
  require (nid < nodeCount) (.corruption (s!"node {nodeId} layer {layer}: neighbor id {nid} " ++
    s!"out of range (node_count {nodeCount})"))
  pure nid

def readLayers (nodeId nodeCount : Nat) : Nat → Nat → Reader (List (List NodeId))
  | 0, _ => pure []
  | count + 1, layer => do
    let nc ← readU32
    let ids ← readMany (readNeighbor nodeId layer nodeCount) nc
    let layers ← readLayers nodeId nodeCount count (layer + 1)
    pure (ids :: layers)

def readNode (dim nodeCount nodeId : Nat) (keys : SortedMap Key NodeId) :
    Reader (Node × SortedMap Key NodeId) := do
  let deleted ← readU8
  let vecLen ← readU32
  require (vecLen = dim)
    (.corruption s!"node {nodeId}: vector length {vecLen} != params dim {dim}")
  let vector ← readMany readF32 vecLen
  let key ← readKey nodeId
  let keys ← registerKey nodeId (deleted != 0) key keys
  let layerCount ← readU8
  let neighbors ← readLayers nodeId nodeCount layerCount.toNat 0
  pure (⟨vector, neighbors, deleted != 0⟩, keys)

/-- The nodes from `nodeId` on. -/
def readNodes (dim nodeCount : Nat) : Nat → Nat → SortedMap Key NodeId →
    Reader (List Node × SortedMap Key NodeId)
  | 0, _, keys => pure ([], keys)
  | count + 1, nodeId, keys => do
    let (node, keys) ← readNode dim nodeCount nodeId keys
    let (nodes, keys) ← readNodes dim nodeCount count (nodeId + 1) keys
    pure (node :: nodes, keys)

def readHeader : Reader Unit := do
  let magic ← readBytes 8 (.corruption "unexpected end of snapshot (u8)")
  require (magic = MAGIC) (.corruption s!"snapshot magic mismatch: got {magic}")
  let version ← readU32
  require (version = VERSION) (.corruption
    s!"unsupported snapshot version {version}, this build supports {VERSION}")
  let _flags ← readU32
  modify (List.drop 8)

/-- The parameters and the marker. -/
def readParams : Reader (HnswParams × Nat) := do
  let tag ← readU8
  let metric ← (DistanceMetric.fromTag tag : Except Error DistanceMetric)
  let m ← readU32
  let mMax0 ← readU32
  let efConstruction ← readU32
  let efSearch ← readU32
  let dim ← readU32
  let seed ← readU64
  let nextSstableId ← readU64
  pure (⟨metric, m, mMax0, efConstruction, efSearch, dim, seed⟩, nextSstableId)

def readEntry : Reader (Option EntryPoint) := do
  let present ← readU8
  let node ← readU32
  let level ← readU8
  pure (if present = 1 then some ⟨node, level.toNat⟩ else none)

/-- The entry point has to exist and to have its level. -/
def checkEntry (nodes : List Node) : Option EntryPoint → Reader Unit
  | none => pure ()
  | some entry => do
    require (entry.node < nodes.length) (.corruption
      s!"entry node {entry.node} out of range (node_count {nodes.length})")
    let layersPresent := ((nodes[entry.node]?).map fun node => node.neighbors.length).getD 0
    require (layersPresent ≠ 0 ∧ entry.level < layersPresent) (.corruption
      (s!"entry level {entry.level} inconsistent with node {entry.node}'s " ++
        s!"layer count {layersPresent}"))

/-- The parts of a snapshot: parameters, marker, entry point, nodes and keys. -/
def readParts : Reader (HnswParams × Nat × Option EntryPoint × List Node × SortedMap Key NodeId) := do
  readHeader
  let (params, nextSstableId) ← readParams
  let entry ← readEntry
  let nodeCount ← readU32
  let (nodes, keys) ← readNodes params.dim nodeCount nodeCount 0 SortedMap.empty
  pure (params, nextSstableId, entry, nodes, keys)

/-- Everything in front of the checksum. -/
def readBody (length : Nat) : Reader (HnswIndex × SortedMap Key NodeId × Nat) := do
  let (params, nextSstableId, entry, nodes, keys) ← readParts
  let rest ← get
  require (rest = []) (.corruption (s!"snapshot has trailing garbage: parsed " ++
    s!"{length - rest.length} of {length} body bytes"))
  checkEntry nodes entry
  pure (⟨params, params.metric, params.dim, nodes, entry, 0⟩, keys, nextSstableId)

end Snapshot

open Snapshot in
def HnswIndex.decodeSnapshot (hashes : Hashes) (bytes : Bytes) :
    Except Error (HnswIndex × SortedMap Key NodeId × Nat) :=
  if bytes.length < MIN_LEN then
    .error (.corruption (s!"snapshot shorter than minimum: {bytes.length} bytes, " ++
      s!"need at least {MIN_LEN}"))
  else
    let crcOffset := bytes.length - 4
    let storedCrc := UInt32.ofNat (leNat (bytes.drop crcOffset))
    let body := bytes.take crcOffset
    let computedCrc := hashes.crc32 body
    if storedCrc ≠ computedCrc then
      .error (.corruption (s!"snapshot CRC mismatch: stored {hex32 storedCrc.toNat}, " ++
        s!"computed {hex32 computedCrc.toNat}"))
    else (readBody body.length).run' body

/-! ### What readers do to encoded bytes -/

namespace Snapshot

section Readers

variable {α β : Type}

/-- **Reading two things**: the second one from what the first one left. -/
theorem Reader.bind_eq_ok {first : Reader α} {next : α → Reader β} {bytes rest : Bytes}
    {result : β} :
    (first >>= next) bytes = .ok (result, rest) ↔
      ∃ value middle, first bytes = .ok (value, middle) ∧ next value middle = .ok (result, rest) := by
  have unfolded : (first >>= next) bytes = (first bytes >>= fun pair => next pair.1 pair.2) := rfl
  rw [unfolded]
  cases first bytes with
  | error error => exact ⟨nofun, nofun⟩
  | ok pair => exact ⟨fun run => ⟨_, _, rfl, run⟩, fun ⟨_, _, same, run⟩ => by cases same; exact run⟩

theorem require_eq_ok {holds : Prop} [Decidable holds] {error : Error} {bytes rest : Bytes} :
    require holds error bytes = .ok ((), rest) ↔ holds ∧ rest = bytes := by
  by_cases holds' : holds
  · rw [require, if_pos holds']
    exact ⟨fun run => by cases run; exact ⟨holds', rfl⟩, fun same => by rw [same.2]; rfl⟩
  · rw [require, if_neg holds']
    exact ⟨nofun, fun same => absurd same.1 holds'⟩

/-- A reader takes `bytes` from the front for the value. -/
def Takes (read : Reader α) (bytes : Bytes) (value : α) : Prop :=
  ∀ rest, read.run (bytes ++ rest) = .ok (value, rest)

theorem Takes.bind {first : Reader α} {next : α → Reader β} {front back : Bytes} {value : α}
    {result : β} (one : Takes first front value) (two : Takes (next value) back result) :
    Takes (first >>= next) (front ++ back) result := by
  intro rest
  rw [List.append_assoc, StateT.run_bind, one]
  exact two rest

theorem Takes.pure (value : α) : Takes (Pure.pure value : Reader α) [] value := fun _ => rfl

/-- A reader that takes nothing, in front of another one. -/
theorem Takes.bind_nil {first : Reader α} {next : α → Reader β} {bytes : Bytes} {value : α}
    {result : β} (one : Takes first [] value) (two : Takes (next value) bytes result) :
    Takes (first >>= next) bytes result := one.bind two

/-- A reader in front of one that takes nothing. -/
theorem Takes.bind_pure {first : Reader α} {next : α → Reader β} {bytes : Bytes} {value : α}
    {result : β} (one : Takes first bytes value) (two : Takes (next value) [] result) :
    Takes (first >>= next) bytes result := by
  have both := one.bind two
  rwa [List.append_nil] at both

theorem require_takes {holds : Prop} [Decidable holds] (holds' : holds) (error : Error) :
    Takes (require holds error) [] () := by
  rw [require, if_pos holds']
  exact Takes.pure ()

theorem readBytes_takes (bytes : Bytes) {count : Nat} (length : bytes.length = count) (error : Error) :
    Takes (readBytes count error) bytes bytes := by
  intro rest
  simp [readBytes, require, ← length]
  rfl

theorem readU8_takes (byte : UInt8) : Takes readU8 [byte] byte :=
  (readBytes_takes [byte] rfl _).bind_pure (Takes.pure _)

theorem readU32_takes {value : Nat} (small : value < 2 ^ 32) :
    Takes readU32 (leBytes 4 value) value := by
  refine (readBytes_takes _ (leBytes_length 4 value) _).bind_pure ?_
  rw [leNat_leBytes_of_lt (by simpa using small)]
  exact Takes.pure value

theorem readU64_takes {value : Nat} (small : value < 2 ^ 64) :
    Takes readU64 (leBytes 8 value) value := by
  refine (readBytes_takes _ (leBytes_length 8 value) _).bind_pure ?_
  rw [leNat_leBytes_of_lt (by simpa using small)]
  exact Takes.pure value

theorem readF32_takes (component : F32) : Takes readF32 component.toLeBytes component := by
  refine (readBytes_takes _ (leBytes_length 4 component.toNat) _).bind_pure ?_
  rw [← F32.toLeBytes, F32.fromLeBytes_toLeBytes]
  exact Takes.pure component

theorem readMany_takes {read : Reader α} {encode : α → Bytes} {items : List α}
    (each : ∀ item ∈ items, Takes read (encode item) item) :
    Takes (readMany read items.length) (items.flatMap encode) items := by
  induction items with
  | nil => exact Takes.pure []
  | cons first rest ih =>
    rw [List.flatMap_cons]
    refine (each first (List.mem_cons_self ..)).bind ?_
    exact (ih fun item member => each item (List.mem_cons_of_mem _ member)).bind_pure (Takes.pure _)

end Readers

theorem readLayers_takes {nodeId nodeCount : Nat} (small : nodeCount ≤ 2 ^ 32) :
    ∀ (layers : List (List NodeId)) (layer : Nat),
      (∀ list ∈ layers, list.length < 2 ^ 32 ∧ ∀ id ∈ list, id < nodeCount) →
      Takes (readLayers nodeId nodeCount layers.length layer)
        (layers.flatMap HnswIndex.encodeLayer) layers := by
  intro layers
  induction layers with
  | nil => exact fun _ _ => Takes.pure []
  | cons first rest ih =>
    intro layer bounds
    obtain ⟨short, inside⟩ := bounds first (List.mem_cons_self ..)
    have each : ∀ id ∈ first, Takes (readNeighbor nodeId layer nodeCount) (leBytes 4 id) id := by
      intro id member
      have known := inside id member
      exact (readU32_takes (lt_of_lt_of_le known small)).bind_pure
        ((require_takes known _).bind_nil (Takes.pure id))
    rw [List.flatMap_cons, HnswIndex.encodeLayer, List.append_assoc]
    refine (readU32_takes short).bind ?_
    refine (readMany_takes each).bind ?_
    exact (ih (layer + 1) fun list member => bounds list (List.mem_cons_of_mem _ member)).bind_pure
      (Takes.pure _)

end Snapshot

/-! ### Keys of nodes -/

/-- A node one key names has this key. -/
theorem HnswIndex.keyOf_eq {keys : SortedMap Key NodeId} {key : Key} {id : NodeId}
    (found : keys.find? key = some id) (only : ∀ other, keys.find? other = some id → other = key) :
    HnswIndex.keyOf keys id = key := by
  have member : (key, id) ∈ keys.entries.filter fun entry => entry.2 = id :=
    List.mem_filter.mpr ⟨(keys.mem_entries_iff key id).mpr found, by simp⟩
  have all : ∀ entry ∈ keys.entries.filter fun entry => entry.2 = id, entry.1 = key := by
    intro entry here
    obtain ⟨here, same⟩ := List.mem_filter.mp here
    simp only [decide_eq_true_eq] at same
    refine only _ ((keys.mem_entries_iff entry.1 id).mp ?_)
    rw [← same]
    exact here
  unfold HnswIndex.keyOf
  cases last : (keys.entries.filter fun entry => entry.2 = id).getLast? with
  | none =>
    rw [List.getLast?_eq_none_iff.mp last] at member
    cases member
  | some entry => simpa using all entry (List.mem_of_getLast? last)

/-- Keys name the live nodes, each by one key. -/
structure Keyed (contents : List (List F32 × Bool)) (keys : SortedMap Key NodeId) : Prop where
  live : ∀ key id, keys.find? key = some id → ∃ vector, contents[id]? = some (vector, false)
  keyed : ∀ id vector, contents[id]? = some (vector, false) → ∃ key, keys.find? key = some id
  inj : ∀ key key' id, keys.find? key = some id → keys.find? key' = some id → key = key'
  nonempty : ∀ key id, keys.find? key = some id → key ≠ [] ∧ key.length < 2 ^ 32

namespace Keyed

variable {contents : List (List F32 × Bool)} {keys : SortedMap Key NodeId} {key : Key} {id : NodeId}

theorem keyOf_eq (keyed : Keyed contents keys) (found : keys.find? key = some id) :
    HnswIndex.keyOf keys id = key :=
  HnswIndex.keyOf_eq found fun _ found' => keyed.inj _ _ _ found' found

theorem keyOf_short (keyed : Keyed contents keys) (id : NodeId) :
    (HnswIndex.keyOf keys id).length < 2 ^ 32 := by
  unfold HnswIndex.keyOf
  cases last : (keys.entries.filter fun entry => entry.2 = id).getLast? with
  | none => simp
  | some entry =>
    have member := (List.mem_filter.mp (List.mem_of_getLast? last)).1
    simpa using (keyed.nonempty _ _ ((keys.mem_entries_iff entry.1 entry.2).mp member)).2

end Keyed

/-- The keys of the nodes below an id. -/
def keysBelow (keys : SortedMap Key NodeId) (id : NodeId) : SortedMap Key NodeId :=
  keys.filter fun entry => decide (entry.2 < id)

theorem find?_keysBelow (keys : SortedMap Key NodeId) (id : NodeId) (key : Key) :
    (keysBelow keys id).find? key = (keys.find? key).filter fun other => decide (other < id) :=
  keys.find?_filter _ key

theorem keysBelow_zero (keys : SortedMap Key NodeId) : keysBelow keys 0 = SortedMap.empty := by
  refine SortedMap.ext_find? fun key => ?_
  rw [find?_keysBelow]
  cases keys.find? key <;> simp

/-- Below the size of the arena are all keys. -/
theorem keysBelow_length {contents : List (List F32 × Bool)} {keys : SortedMap Key NodeId}
    (keyed : Keyed contents keys) : keysBelow keys contents.length = keys := by
  refine SortedMap.ext_find? fun key => ?_
  rw [find?_keysBelow]
  cases found : keys.find? key with
  | none => rfl
  | some id =>
    obtain ⟨vector, here⟩ := keyed.live key id found
    have inside := (List.getElem?_eq_some_iff.mp here).1
    simp [inside]

namespace Snapshot

theorem readKey_takes (nodeId : Nat) {key : Key} (short : key.length < 2 ^ 32) :
    Takes (readKey nodeId) (HnswIndex.encodeKey key) key :=
  (readU32_takes short).bind (readBytes_takes key rfl _)

theorem below_succ {other id : Nat} (away : other ≠ id) :
    decide (other < id + 1) = decide (other < id) := by
  simp only [decide_eq_decide]
  omega

/-- **The key of a node is registered** where the node is live. -/
theorem registerKey_takes {contents : List (List F32 × Bool)} {keys : SortedMap Key NodeId}
    (keyed : Keyed contents keys) {id : NodeId} {vector : List F32} {deleted : Bool}
    (here : contents[id]? = some (vector, deleted)) :
    Takes (registerKey id deleted (HnswIndex.keyOf keys id) (keysBelow keys id)) []
      (keysBelow keys (id + 1)) := by
  cases deleted with
  | true =>
    have same : keysBelow keys (id + 1) = keysBelow keys id := by
      refine SortedMap.ext_find? fun key => ?_
      rw [find?_keysBelow, find?_keysBelow]
      cases found : keys.find? key with
      | none => rfl
      | some other =>
        obtain ⟨vector', live⟩ := keyed.live key other found
        have away : other ≠ id := by
          rintro rfl
          rw [here] at live
          cases live
        rw [Option.filter_some, Option.filter_some, below_succ away]
    rw [registerKey, if_pos rfl, same]
    exact Takes.pure _
  | false =>
    obtain ⟨key, found⟩ := keyed.keyed id vector here
    have nonempty := (keyed.nonempty key id found).1
    have fresh : (keysBelow keys id).find? key = none := by
      rw [find?_keysBelow, found]
      simp [Option.filter_some]
    have grown : (keysBelow keys id).insert key id = keysBelow keys (id + 1) := by
      refine SortedMap.ext_find? fun other => ?_
      rw [SortedMap.find?_insert, find?_keysBelow, find?_keysBelow]
      split
      · rename_i same
        subst same
        simp [found, Option.filter_some]
      · rename_i away
        cases found' : keys.find? other with
        | none => rfl
        | some id' =>
          have different : id' ≠ id := by
            rintro rfl
            exact away (keyed.inj _ _ _ found found')
          rw [Option.filter_some, Option.filter_some, below_succ different]
    rw [registerKey, keyed.keyOf_eq found, if_neg Bool.false_ne_true,
      if_neg (by simpa using nonempty), if_neg (not_not.mpr fresh), grown]
    exact Takes.pure _

/-- What the format can hold of a node. -/
structure Fits (dim nodeCount : Nat) (node : Node) : Prop where
  sized : node.vector.length = dim
  layers : node.neighbors.length < 256
  lists : ∀ list ∈ node.neighbors, list.length < 2 ^ 32 ∧ ∀ id ∈ list, id < nodeCount

/-- **A node is decoded**, and its key with it. -/
theorem readNode_takes {contents : List (List F32 × Bool)} {keys : SortedMap Key NodeId}
    (keyed : Keyed contents keys) {dim nodeCount : Nat} (small : nodeCount ≤ 2 ^ 32)
    (dim_small : dim < 2 ^ 32) {id : NodeId} {node : Node} (fits : Fits dim nodeCount node)
    (here : contents[id]? = some (node.vector, node.deleted)) :
    Takes (readNode dim nodeCount id (keysBelow keys id))
      (HnswIndex.encodeOneNode node (HnswIndex.keyOf keys id)) (node, keysBelow keys (id + 1)) := by
  have flag : ((if node.deleted then 1 else 0 : UInt8) != 0) = node.deleted := by
    cases node.deleted <;> rfl
  have count : (UInt8.ofNat node.neighbors.length).toNat = node.neighbors.length := by
    have := fits.layers
    rw [UInt8.toNat_ofNat']
    omega
  refine (readU8_takes (if node.deleted then 1 else 0)).bind ?_
  refine (readU32_takes (fits.sized ▸ dim_small)).bind ?_
  refine (require_takes fits.sized _).bind_nil ?_
  refine (readMany_takes fun component _ => readF32_takes component).bind ?_
  refine (readKey_takes id (keyed.keyOf_short id)).bind ?_
  rw [flag]
  refine (registerKey_takes keyed here).bind_nil ?_
  refine (readU8_takes (UInt8.ofNat node.neighbors.length)).bind ?_
  rw [count]
  exact (readLayers_takes small node.neighbors 0 fits.lists).bind_pure (Takes.pure _)

theorem readNodes_takes {contents : List (List F32 × Bool)} {keys : SortedMap Key NodeId}
    (keyed : Keyed contents keys) {dim nodeCount : Nat} (small : nodeCount ≤ 2 ^ 32)
    (dim_small : dim < 2 ^ 32) : ∀ (nodes : List Node) (id : Nat),
      (∀ node ∈ nodes, Fits dim nodeCount node) →
      (∀ (offset : Nat) (node : Node), nodes[offset]? = some node →
        contents[id + offset]? = some (node.vector, node.deleted)) →
      Takes (readNodes dim nodeCount nodes.length id (keysBelow keys id))
        ((nodes.zipIdx id).flatMap fun (node, id) =>
          HnswIndex.encodeOneNode node (HnswIndex.keyOf keys id))
        (nodes, keysBelow keys (id + nodes.length)) := by
  intro nodes
  induction nodes with
  | nil => exact fun id _ _ => Takes.pure _
  | cons first rest ih =>
    intro id fits here
    rw [List.zipIdx_cons, List.flatMap_cons]
    refine (readNode_takes keyed small dim_small (fits first (List.mem_cons_self ..))
      (here 0 first rfl)).bind ?_
    have rest_here : ∀ (offset : Nat) (node : Node), rest[offset]? = some node →
        contents[id + 1 + offset]? = some (node.vector, node.deleted) := by
      intro offset node found
      rw [show id + 1 + offset = id + (offset + 1) by omega]
      exact here (offset + 1) node (by rw [List.getElem?_cons_succ, found])
    have tail := ih (id + 1) (fun node member => fits node (List.mem_cons_of_mem _ member)) rest_here
    rw [show id + (first :: rest).length = id + 1 + rest.length by simp only [List.length_cons]; omega]
    exact tail.bind_pure (Takes.pure _)

theorem readHeader_takes : Takes readHeader HnswIndex.encodeHeader () := by
  have version : Takes readU32 (leBytes 4 VERSION) VERSION := readU32_takes (by decide)
  have flags : Takes readU32 (leBytes 4 0) 0 := readU32_takes (by decide)
  refine (readBytes_takes _ (by decide) _).bind ?_
  refine (require_takes rfl _).bind_nil ?_
  refine version.bind ?_
  refine (require_takes rfl _).bind_nil ?_
  exact flags.bind fun rest => rfl

end Snapshot

open Snapshot in
/-- **What is decoded**: the parts in front of the checksum, with nothing behind them. -/
theorem HnswIndex.decodeSnapshot_parts {hashes : Hashes} {bytes : Bytes} {index : HnswIndex}
    {keys : SortedMap Key NodeId} {marker : Nat}
    (decoded : decodeSnapshot hashes bytes = .ok (index, keys, marker)) :
    MIN_LEN ≤ bytes.length ∧ ∃ params entry, readParts (bytes.take (bytes.length - 4)) =
        .ok ((params, marker, entry, index.nodes, keys), []) ∧
      index = ⟨params, params.metric, params.dim, index.nodes, entry, 0⟩ ∧
      ∀ point, entry = some point → ∃ node, index.nodes[point.node]? = some node ∧
        point.level < node.neighbors.length := by
  unfold decodeSnapshot at decoded
  split at decoded
  · cases decoded
  rename_i long
  simp only at decoded
  split at decoded
  · cases decoded
  refine ⟨not_lt.mp long, ?_⟩
  generalize bytes.take (bytes.length - 4) = body at decoded
  obtain ⟨rest, run⟩ : ∃ rest, readBody body.length body = .ok ((index, keys, marker), rest) := by
    cases ran : readBody body.length body with
    | error error => simp [StateT.run', ran, Functor.map, Except.map] at decoded
    | ok result =>
      simp only [StateT.run', ran, Functor.map, Except.map, Except.ok.injEq] at decoded
      exact ⟨result.2, by rw [← decoded]⟩
  obtain ⟨⟨params, next, entry, nodes, keys'⟩, behind, parts, run⟩ := Reader.bind_eq_ok.mp run
  obtain ⟨_, _, got, run⟩ := Reader.bind_eq_ok.mp run
  obtain ⟨rfl, rfl⟩ := Prod.mk.inj (Except.ok.inj got)
  obtain ⟨_, _, required, run⟩ := Reader.bind_eq_ok.mp run
  obtain ⟨rfl, rfl⟩ := require_eq_ok.mp required
  obtain ⟨_, _, checked, run⟩ := Reader.bind_eq_ok.mp run
  cases run
  refine ⟨params, entry, parts, rfl, ?_⟩
  rintro point rfl
  obtain ⟨_, _, required, checked⟩ := Reader.bind_eq_ok.mp checked
  obtain ⟨inside, rfl⟩ := require_eq_ok.mp required
  have level := (require_eq_ok.mp checked).1.2
  rw [List.getElem?_eq_getElem inside] at level ⊢
  exact ⟨_, rfl, level⟩

/-! ### Round trip -/

/-- The format has room for the parameters. -/
structure HnswParams.Small (params : HnswParams) : Prop where
  m : params.m < 2 ^ 32
  mMax0 : params.mMax0 < 2 ^ 32
  efConstruction : params.efConstruction < 2 ^ 32
  efSearch : params.efSearch < 2 ^ 32
  seed : params.seed < 2 ^ 64

namespace HnswIndex

open Snapshot

/-- The format has room for the graph. -/
structure Encodable (index : HnswIndex) : Prop where
  wf : index.Wf
  params : index.params.Small
  metric : index.params.metric = index.metric
  dim : index.dim < 2 ^ 32
  room : index.nodes.length < nodeIdBound

/-- What a decoded index is: the dimension is in its parameters, and the generator starts over. -/
def restored (index : HnswIndex) : HnswIndex :=
  { index with params := { index.params with dim := index.dim }, draws := 0 }

theorem Wf.restored {index : HnswIndex} (wf : index.Wf) : index.restored.Wf :=
  ⟨wf.layers, wf.dims, wf.sized, ⟨wf.linked.edges, wf.linked.degree⟩,
    fun entry found => ⟨(wf.top entry found).live, (wf.top entry found).highest⟩, wf.alive⟩

theorem Encodable.fits {index : HnswIndex} (encodable : index.Encodable) {node : Node}
    (member : node ∈ index.nodes) : Fits index.dim index.nodes.length node := by
  obtain ⟨id, here⟩ := List.mem_iff_getElem?.mp member
  refine ⟨encodable.wf.dims node member, ?_, ?_⟩
  · have := (encodable.wf.layers node member).2
    omega
  · intro list member'
    obtain ⟨layer, atLayer⟩ := List.mem_iff_getElem?.mp member'
    have found := neighborsAt_eq_some.mpr ⟨node, here, atLayer⟩
    refine ⟨?_, fun other listed => (encodable.wf.linked.edges id layer list found other listed).2.inside⟩
    have short := encodable.wf.linked.degree id layer list found nofun
    have m := encodable.params.m
    have mMax0 := encodable.params.mMax0
    unfold bound maxDegree at short
    split at short <;> omega

theorem encodeBody_length_ge (index : HnswIndex) (marker : Nat) (keys : SortedMap Key NodeId) :
    MIN_LEN ≤ (index.encodeBody marker keys).length + 4 := by
  have header : encodeHeader.length = 24 := by decide
  have entry : (encodeEntry index.entry).length = 6 := by
    cases index.entry <;> simp [encodeEntry]
  simp only [encodeBody, encodeParams, List.length_append, List.length_cons, leBytes_length, header,
    entry, MIN_LEN, HEADER_LEN, PARAMS_LEN, ENTRY_LEN]
  omega

/-- **Decoding undoes encoding.** -/
theorem decode_encode {hashes : Hashes} {index : HnswIndex} (encodable : index.Encodable)
    {keys : SortedMap Key NodeId} (keyed : Keyed index.contents keys) {marker : Nat}
    (small : marker < 2 ^ 64) :
    decodeSnapshot hashes (encodeSnapshot hashes index marker keys) =
      .ok (index.restored, keys, marker) := by
  have params : Takes readParams (index.encodeParams marker)
      ({ index.params with dim := index.dim }, marker) := by
    have metric : Takes (DistanceMetric.fromTag index.metric.toTag : Except Error DistanceMetric) []
        index.metric := by
      rw [DistanceMetric.fromTag_toTag]
      exact fun rest => rfl
    refine (readU8_takes index.metric.toTag).bind ?_
    refine metric.bind_nil ?_
    refine (readU32_takes encodable.params.m).bind ?_
    refine (readU32_takes encodable.params.mMax0).bind ?_
    refine (readU32_takes encodable.params.efConstruction).bind ?_
    refine (readU32_takes encodable.params.efSearch).bind ?_
    refine (readU32_takes encodable.dim).bind ?_
    refine (readU64_takes encodable.params.seed).bind ?_
    refine (readU64_takes small).bind_pure ?_
    rw [← encodable.metric]
    exact Takes.pure _
  have entry : Takes readEntry (encodeEntry index.entry) index.entry := by
    cases found : index.entry with
    | none =>
      refine (readU8_takes 0).bind ?_
      refine (readU32_takes (Nat.two_pow_pos 32)).bind ?_
      exact (readU8_takes 0).bind_pure (Takes.pure _)
    | some point =>
      obtain ⟨⟨node, here, _, level⟩, _⟩ := encodable.wf.top point found
      have inside := (List.getElem?_eq_some_iff.mp here).1
      have low := (encodable.wf.layers node (List.mem_of_getElem? here)).2
      have same_level : (UInt8.ofNat point.level).toNat = point.level := by
        rw [UInt8.toNat_ofNat']
        omega
      refine (readU8_takes 1).bind ?_
      refine (readU32_takes (lt_trans inside encodable.room : point.node < 2 ^ 32)).bind ?_
      refine (readU8_takes (UInt8.ofNat point.level)).bind_pure ?_
      rw [same_level]
      exact Takes.pure _
  have nodes : Takes
      (readNodes index.dim index.nodes.length index.nodes.length 0 (keysBelow keys 0))
      (encodeNodes keys index.nodes) (index.nodes, keysBelow keys (0 + index.nodes.length)) := by
    refine readNodes_takes keyed encodable.room.le encodable.dim index.nodes 0
      (fun node member => encodable.fits member) fun offset node here => ?_
    rw [Nat.zero_add, contents_getElem?, here]
    rfl
  have checked : Takes (checkEntry index.nodes index.entry) [] () := by
    cases found : index.entry with
    | none => exact Takes.pure ()
    | some point =>
      obtain ⟨⟨node, here, _, level⟩, _⟩ := encodable.wf.top point found
      have inside := (List.getElem?_eq_some_iff.mp here).1
      refine (require_takes inside _).bind_nil (require_takes ?_ _)
      rw [here]
      simp only [Option.map_some, Option.getD_some]
      omega
  rw [keysBelow_zero, Nat.zero_add, ← contents_length, keysBelow_length keyed, contents_length] at nodes
  obtain ⟨body, bodyDef⟩ : ∃ body, body = index.encodeBody marker keys := ⟨_, rfl⟩
  have parts : Takes readParts body
      ({ index.params with dim := index.dim }, marker, index.entry, index.nodes, keys) := by
    rw [bodyDef]
    refine readHeader_takes.bind ?_
    refine params.bind ?_
    refine entry.bind ?_
    refine (readU32_takes encodable.room).bind ?_
    exact nodes.bind_pure (Takes.pure _)
  have whole : (readBody body.length).run body = .ok ((index.restored, keys, marker), []) := by
    have parsed := parts []
    have same : (⟨{ index.params with dim := index.dim }, index.params.metric, index.dim, index.nodes,
        index.entry, 0⟩ : HnswIndex) = index.restored := by
      rw [restored, encodable.metric]
    have rest : Takes (do
        require (([] : Bytes) = []) (.corruption (s!"snapshot has trailing garbage: parsed " ++
          s!"{body.length - ([] : Bytes).length} of {body.length} body bytes"))
        checkEntry index.nodes index.entry
        pure (⟨{ index.params with dim := index.dim }, index.params.metric, index.dim, index.nodes,
          index.entry, 0⟩, keys, marker)) [] (index.restored, keys, marker) := by
      rw [same]
      exact (require_takes rfl _).bind_nil (checked.bind_nil (Takes.pure _))
    rw [List.append_nil] at parsed
    rw [readBody, StateT.run_bind, parsed]
    exact rest []
  have crc : (leBytes 4 (hashes.crc32 body).toNat).length = 4 := leBytes_length _ _
  have split : (body ++ leBytes 4 (hashes.crc32 body).toNat).length - 4 = body.length := by
    rw [List.length_append, crc]
    omega
  have stored : UInt32.ofNat (leNat (leBytes 4 (hashes.crc32 body).toNat)) = hashes.crc32 body := by
    rw [leNat_leBytes_of_lt (hashes.crc32 body).toNat_lt]
    exact UInt32.ofNat_toNat
  have long := encodeBody_length_ge index marker keys
  rw [← bodyDef] at long
  simp only [decodeSnapshot, encodeSnapshot, ← bodyDef, split, List.drop_left, List.take_left, stored]
  rw [if_neg (by rw [List.length_append, crc]; omega), if_neg (not_not.mpr rfl)]
  exact congrArg (Except.map Prod.fst) whole

end HnswIndex

end Sastran

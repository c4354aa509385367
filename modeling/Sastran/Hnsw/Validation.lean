/-
What a snapshot that decodes guarantees of its graph.

`NodeRecord` is a node as the bytes hold it, and `LaidOut` says which records a snapshot's bytes hold.
The decoder checks that neighbor ids are in range and that the entry point has its level, but neither
that a node has a layer nor that a neighbor has the layer it is listed at. `validates_iff` says
exactly when the decoded graph is one no call gets lost in: `Sound` is about the records alone.
-/

import Sastran.Library.PrefixCode
import Sastran.Hnsw.Navigable
import Sastran.Hnsw.Snapshot

namespace Sastran

open LittleEndian Snapshot Device

/-- A node as the bytes of a snapshot hold it. -/
structure NodeRecord where
  deleted : UInt8
  vector : List F32
  key : Key
  layers : List (List NodeId)

namespace NodeRecord

def bytes (record : NodeRecord) : Bytes :=
  record.deleted :: (leBytes 4 record.vector.length ++ (record.vector.flatMap F32.toLeBytes ++
    (HnswIndex.encodeKey record.key ++ (UInt8.ofNat record.layers.length ::
      record.layers.flatMap HnswIndex.encodeLayer))))

/-- Every length and id fits its field. -/
structure Fits (record : NodeRecord) : Prop where
  vector : record.vector.length < 2 ^ 32
  key : record.key.length < 2 ^ 32
  layers : record.layers.length < 256
  lists : ∀ list ∈ record.layers, list.length < 2 ^ 32 ∧ ∀ id ∈ list, id < 2 ^ 32

/-- The node of the record. -/
def node (record : NodeRecord) : Node := ⟨record.vector, record.layers, record.deleted != 0⟩

/-- Every record has a layer, and the neighbors listed at a layer are records that have it. -/
def Sound (records : List NodeRecord) : Prop :=
  ∀ record ∈ records, record.layers ≠ [] ∧
    ∀ (layer : Nat) (list : List NodeId), record.layers[layer]? = some list →
      ∀ id ∈ list, ∃ other, records[id]? = some other ∧ layer < other.layers.length

/-- The bytes of a snapshot hold the records: behind header, parameters and entry point, and in front
of the checksum. -/
def LaidOut (records : List NodeRecord) (bytes : Bytes) : Prop :=
  records.length < 2 ^ 32 ∧ (∀ record ∈ records, record.Fits) ∧
    ∃ front crc, bytes = front ++ (leBytes 4 records.length ++ (records.flatMap NodeRecord.bytes ++ crc)) ∧
      front.length = HEADER_LEN + PARAMS_LEN + ENTRY_LEN ∧ crc.length = 4

end NodeRecord

/-! ### What readers took -/

namespace Snapshot

section Readers

variable {α : Type} {bytes rest : Bytes}

theorem readBytes_took {count : Nat} {error : Error} {value : Bytes}
    (run : readBytes count error bytes = .ok (value, rest)) :
    bytes = value ++ rest ∧ value.length = count := by
  obtain ⟨_, _, got, run⟩ := Reader.bind_eq_ok.mp run
  obtain ⟨rfl, rfl⟩ := Prod.mk.inj (Except.ok.inj got)
  obtain ⟨_, _, required, run⟩ := Reader.bind_eq_ok.mp run
  obtain ⟨enough, rfl⟩ := require_eq_ok.mp required
  cases run
  exact ⟨(List.take_append_drop _ _).symm, List.length_take_of_le enough⟩

theorem readU8_took {value : UInt8} (run : readU8 bytes = .ok (value, rest)) :
    bytes = value :: rest := by
  obtain ⟨taken, _, run, run'⟩ := Reader.bind_eq_ok.mp run
  obtain ⟨split, length⟩ := readBytes_took run
  cases run'
  match taken, length with
  | [byte], _ => exact split

theorem readU32_took {value : Nat} (run : readU32 bytes = .ok (value, rest)) :
    bytes = leBytes 4 value ++ rest ∧ value < 2 ^ 32 := by
  obtain ⟨taken, _, run, run'⟩ := Reader.bind_eq_ok.mp run
  obtain ⟨split, length⟩ := readBytes_took run
  cases run'
  have same := leBytes_leNat taken
  have small := leNat_lt taken
  rw [length] at same small
  exact ⟨by rw [same]; exact split, by simpa using small⟩

theorem readF32_took {value : F32} (run : readF32 bytes = .ok (value, rest)) :
    bytes = value.toLeBytes ++ rest := by
  obtain ⟨taken, _, run, run'⟩ := Reader.bind_eq_ok.mp run
  obtain ⟨split, length⟩ := readBytes_took run
  cases run'
  have same := leBytes_leNat taken
  have small := leNat_lt taken
  rw [length] at same small
  have value : (UInt32.ofNat (leNat taken)).toNat = leNat taken := by
    rw [UInt32.toNat_ofNat']
    exact Nat.mod_eq_of_lt (by simpa using small)
  rw [F32.toLeBytes, F32.fromLeBytes, value, same]
  exact split

theorem readMany_took {read : Reader α} {encode : α → Bytes} {holds : α → Prop}
    (each : ∀ {bytes rest : Bytes} {value : α}, read bytes = .ok (value, rest) →
      bytes = encode value ++ rest ∧ holds value) :
    ∀ (count : Nat) {bytes rest : Bytes} {values : List α},
      readMany read count bytes = .ok (values, rest) →
      bytes = values.flatMap encode ++ rest ∧ values.length = count ∧ ∀ value ∈ values, holds value := by
  intro count
  induction count with
  | zero =>
    intro bytes rest values run
    cases run
    exact ⟨rfl, rfl, nofun⟩
  | succ count ih =>
    intro bytes rest values run
    obtain ⟨first, _, one, run⟩ := Reader.bind_eq_ok.mp run
    obtain ⟨others, _, two, run⟩ := Reader.bind_eq_ok.mp run
    cases run
    obtain ⟨rfl, good⟩ := each one
    obtain ⟨rfl, length, all⟩ := ih two
    refine ⟨by rw [List.flatMap_cons, List.append_assoc], by rw [List.length_cons, length], ?_⟩
    intro value member
    rcases List.mem_cons.mp member with rfl | member
    · exact good
    · exact all value member

theorem readLayers_took {nodeId nodeCount : Nat} : ∀ (count layer : Nat) {bytes rest : Bytes}
    {layers : List (List NodeId)}, readLayers nodeId nodeCount count layer bytes = .ok (layers, rest) →
    bytes = layers.flatMap HnswIndex.encodeLayer ++ rest ∧ layers.length = count ∧
      ∀ list ∈ layers, list.length < 2 ^ 32 ∧ ∀ id ∈ list, id < 2 ^ 32 := by
  intro count
  induction count with
  | zero =>
    intro layer bytes rest layers run
    cases run
    exact ⟨rfl, rfl, nofun⟩
  | succ count ih =>
    intro layer bytes rest layers run
    obtain ⟨nc, _, counted, run⟩ := Reader.bind_eq_ok.mp run
    obtain ⟨ids, _, listed, run⟩ := Reader.bind_eq_ok.mp run
    obtain ⟨others, _, following, run⟩ := Reader.bind_eq_ok.mp run
    cases run
    obtain ⟨rfl, small⟩ := readU32_took counted
    have neighbor : ∀ {bytes rest : Bytes} {value : NodeId},
        readNeighbor nodeId layer nodeCount bytes = .ok (value, rest) →
        bytes = leBytes 4 value ++ rest ∧ value < 2 ^ 32 := by
      intro bytes rest value run
      obtain ⟨nid, middle, read, run⟩ := Reader.bind_eq_ok.mp run
      obtain ⟨_, last, required, done⟩ := Reader.bind_eq_ok.mp run
      have same := (require_eq_ok.mp required).2
      obtain ⟨rfl, rfl⟩ := Prod.mk.inj (Except.ok.inj done)
      exact readU32_took (same ▸ read)
    obtain ⟨rfl, rfl, all⟩ := readMany_took neighbor nc listed
    obtain ⟨rfl, length, all'⟩ := ih (layer + 1) following
    refine ⟨?_, by rw [List.length_cons, length], ?_⟩
    · rw [List.flatMap_cons, HnswIndex.encodeLayer]
      simp only [List.append_assoc]
    · intro list member
      rcases List.mem_cons.mp member with rfl | member
      · exact ⟨small, all⟩
      · exact all' list member

theorem registerKey_rest {nodeId : Nat} {deleted : Bool} {key : Key} {keys keys' : SortedMap Key NodeId}
    (run : registerKey nodeId deleted key keys bytes = .ok (keys', rest)) : bytes = rest := by
  unfold registerKey at run
  split at run
  · cases run
    rfl
  · split at run
    · cases run
    · split at run
      · cases run
      · cases run
        rfl

/-- **A node that is read** is that of a record in front. -/
theorem readNode_took {dim nodeCount nodeId : Nat} {keys keys' : SortedMap Key NodeId} {node : Node}
    (run : readNode dim nodeCount nodeId keys bytes = .ok ((node, keys'), rest)) :
    node.vector.length = dim ∧
      ∃ record : NodeRecord, record.Fits ∧ bytes = record.bytes ++ rest ∧ node = record.node := by
  obtain ⟨deleted, _, flag, run⟩ := Reader.bind_eq_ok.mp run
  obtain ⟨vecLen, _, length, run⟩ := Reader.bind_eq_ok.mp run
  obtain ⟨_, _, required, run⟩ := Reader.bind_eq_ok.mp run
  obtain ⟨vector, _, components, run⟩ := Reader.bind_eq_ok.mp run
  obtain ⟨key, _, keyed, run⟩ := Reader.bind_eq_ok.mp run
  obtain ⟨_, _, registered, run⟩ := Reader.bind_eq_ok.mp run
  obtain ⟨layerCount, _, counted, run⟩ := Reader.bind_eq_ok.mp run
  obtain ⟨neighbors, _, lists, run⟩ := Reader.bind_eq_ok.mp run
  cases run
  obtain rfl := readU8_took flag
  obtain ⟨rfl, small⟩ := readU32_took length
  obtain ⟨sized, rfl⟩ := require_eq_ok.mp required
  have component : ∀ {bytes rest : Bytes} {value : F32}, readF32 bytes = .ok (value, rest) →
      bytes = value.toLeBytes ++ rest ∧ True := fun run => ⟨readF32_took run, trivial⟩
  obtain ⟨rfl, rfl, _⟩ := readMany_took component vecLen components
  obtain ⟨keyLen, _, keyLength, keyBytes⟩ := Reader.bind_eq_ok.mp keyed
  obtain ⟨rfl, smallKey⟩ := readU32_took keyLength
  obtain ⟨rfl, rfl⟩ := readBytes_took keyBytes
  obtain rfl := registerKey_rest registered
  obtain rfl := readU8_took counted
  obtain ⟨rfl, layers, all⟩ := readLayers_took layerCount.toNat 0 lists
  refine ⟨sized, ⟨deleted, vector, key, neighbors⟩, ⟨small, smallKey, ?_, all⟩, ?_, rfl⟩
  · show neighbors.length < 256
    rw [layers]
    exact layerCount.toNat_lt
  · have same : UInt8.ofNat neighbors.length = layerCount := by
      rw [layers]
      exact UInt8.ofNat_toNat
    simp only [NodeRecord.bytes, HnswIndex.encodeKey, same, List.cons_append, List.append_assoc]

theorem readNodes_took {dim nodeCount : Nat} : ∀ (count nodeId : Nat) {keys keys' : SortedMap Key NodeId}
    {bytes rest : Bytes} {nodes : List Node},
    readNodes dim nodeCount count nodeId keys bytes = .ok ((nodes, keys'), rest) →
    (∀ node ∈ nodes, node.vector.length = dim) ∧
      ∃ records : List NodeRecord, records.length = count ∧ (∀ record ∈ records, record.Fits) ∧
        bytes = records.flatMap NodeRecord.bytes ++ rest ∧ nodes = records.map NodeRecord.node := by
  intro count
  induction count with
  | zero =>
    intro nodeId keys keys' bytes rest nodes run
    cases run
    exact ⟨nofun, [], rfl, nofun, rfl, rfl⟩
  | succ count ih =>
    intro nodeId keys keys' bytes rest nodes run
    obtain ⟨⟨node, named⟩, _, one, run⟩ := Reader.bind_eq_ok.mp run
    obtain ⟨⟨others, named'⟩, _, two, run⟩ := Reader.bind_eq_ok.mp run
    cases run
    obtain ⟨sized, record, fits, rfl, rfl⟩ := readNode_took one
    obtain ⟨sized', records, rfl, all, rfl, rfl⟩ := ih (nodeId + 1) two
    refine ⟨List.forall_mem_cons.mpr ⟨sized, sized'⟩, record :: records, rfl,
      List.forall_mem_cons.mpr ⟨fits, all⟩, by rw [List.flatMap_cons, List.append_assoc], rfl⟩

/-- A reader takes a fixed number of bytes. -/
def Drops (read : Reader α) (count : Nat) : Prop :=
  ∀ (bytes rest : Bytes) (value : α), read bytes = .ok (value, rest) → rest = bytes.drop count

theorem Drops.bind {β : Type} {first : Reader α} {next : α → Reader β} {count count' : Nat}
    (one : Drops first count) (two : ∀ value, Drops (next value) count') :
    Drops (first >>= next) (count + count') := by
  intro bytes rest value run
  obtain ⟨middle, left, ran, run⟩ := Reader.bind_eq_ok.mp run
  rw [two middle _ _ _ run, one _ _ _ ran, List.drop_drop]

theorem readBytes_drops (count : Nat) (error : Error) : Drops (readBytes count error) count := by
  intro bytes rest value run
  obtain ⟨rfl, length⟩ := readBytes_took run
  rw [← length, List.drop_left]

theorem Drops.pure (value : α) : Drops (Pure.pure value : Reader α) 0 := by
  intro bytes rest value run
  cases run
  rfl

theorem Drops.require {holds : Prop} [Decidable holds] (error : Error) :
    Drops (Snapshot.require holds error) 0 := by
  intro bytes rest value run
  exact (require_eq_ok.mp run).2

theorem readU8_drops : Drops readU8 1 := (readBytes_drops 1 _).bind fun _ => Drops.pure _

theorem readU32_drops : Drops readU32 4 := (readBytes_drops 4 _).bind fun _ => Drops.pure _

theorem readU64_drops : Drops readU64 8 := (readBytes_drops 8 _).bind fun _ => Drops.pure _

theorem readHeader_drops : Drops readHeader HEADER_LEN := by
  have skip : Drops (modify (List.drop 8) : Reader Unit) 8 := by
    intro bytes rest value run
    cases run
    rfl
  exact (readBytes_drops 8 _).bind fun _ => (Drops.require _).bind fun _ => readU32_drops.bind fun _ =>
    (Drops.require _).bind fun _ => readU32_drops.bind fun _ => skip

theorem readParams_drops : Drops readParams PARAMS_LEN := by
  have metric : ∀ tag, Drops (DistanceMetric.fromTag tag : Except Error DistanceMetric) 0 := by
    intro tag bytes rest value run
    cases found : DistanceMetric.fromTag tag with
    | error error =>
      rw [found] at run
      cases run
    | ok metric =>
      rw [found] at run
      cases run
      rfl
  exact readU8_drops.bind fun tag => (metric tag).bind fun _ => readU32_drops.bind fun _ =>
    readU32_drops.bind fun _ => readU32_drops.bind fun _ => readU32_drops.bind fun _ =>
    readU32_drops.bind fun _ => readU64_drops.bind fun _ => readU64_drops.bind fun _ => Drops.pure _

theorem readEntry_drops : Drops readEntry ENTRY_LEN :=
  readU8_drops.bind fun _ => readU32_drops.bind fun _ => readU8_drops.bind fun _ => Drops.pure _

end Readers

end Snapshot

/-! ### The records of a snapshot -/

namespace NodeRecord

theorem toLeBytes_code : PrefixCode F32.toLeBytes fun _ => True :=
  PrefixCode.of_width (fun component => leBytes_length 4 component.toNat) fun one two _ _ same => by
    rw [← F32.fromLeBytes_toLeBytes one, ← F32.fromLeBytes_toLeBytes two, same]

/-- **Records are read from the front.** -/
theorem bytes_code : PrefixCode bytes Fits := by
  rintro ⟨deleted, vector, key, layers⟩ ⟨deleted', vector', key', layers'⟩ behind behind' fits fits' same
  simp only [bytes, HnswIndex.encodeKey, List.cons_append, List.append_assoc, List.cons.injEq] at same
  obtain ⟨rfl, same⟩ := same
  obtain ⟨components, inVector⟩ := PrefixCode.word 4 _ _ _ _ fits.vector fits'.vector same
  obtain ⟨rfl, inKey⟩ := toLeBytes_code.flatMap vector vector' _ _ components (fun _ _ => trivial)
    (fun _ _ => trivial) inVector
  obtain ⟨size, inKey⟩ := PrefixCode.word 4 _ _ _ _ fits.key fits'.key inKey
  obtain ⟨rfl, inLayers⟩ := List.append_inj inKey size
  obtain ⟨count, inLayers⟩ := List.cons.inj inLayers
  have height : layers.length = layers'.length := by
    have counts := congrArg UInt8.toNat count
    rw [UInt8.toNat_ofNat', UInt8.toNat_ofNat'] at counts
    have small := fits.layers
    have small' := fits'.layers
    simp only at small small'
    omega
  have code : PrefixCode HnswIndex.encodeLayer
      fun list => list.length < 2 ^ 32 ∧ ∀ id ∈ list, id < 2 ^ 32 := (PrefixCode.word 4).counted 4
  obtain ⟨rfl, last⟩ := code.flatMap layers layers' _ _ height fits.lists fits'.lists inLayers
  exact ⟨rfl, last⟩

/-- **A snapshot holds one list of records.** -/
theorem LaidOut.unique {records records' : List NodeRecord} {bytes : Bytes}
    (laid : LaidOut records bytes) (laid' : LaidOut records' bytes) : records = records' := by
  obtain ⟨few, fits, front, crc, split, length, _⟩ := laid
  obtain ⟨few', fits', front', crc', split', length', _⟩ := laid'
  obtain ⟨_, same⟩ := List.append_inj (split.symm.trans split') (length.trans length'.symm)
  obtain ⟨count, inRecords⟩ := PrefixCode.word 4 _ _ _ _ few few' same
  exact (bytes_code.flatMap records records' _ _ count fits fits' inRecords).1

end NodeRecord

namespace HnswIndex

open NodeRecord

variable {hashes : Hashes} {bytes : Bytes} {index : HnswIndex} {keys : SortedMap Key NodeId} {marker : Nat}

/-- **What decoding checks**: dimensions and the entry point; the nodes are those of the records. -/
theorem decodeSnapshot_records (decoded : decodeSnapshot hashes bytes = .ok (index, keys, marker)) :
    (∀ node ∈ index.nodes, node.vector.length = index.dim) ∧
    (∀ point, index.entry = some point → index.HasLayer point.node point.level) ∧
    ∃ records, LaidOut records bytes ∧ index.nodes = records.map NodeRecord.node := by
  obtain ⟨long, params, entry, parts, same, top⟩ := decodeSnapshot_parts decoded
  obtain ⟨_, _, header, parts⟩ := Reader.bind_eq_ok.mp parts
  obtain ⟨⟨params', marker'⟩, _, read, parts⟩ := Reader.bind_eq_ok.mp parts
  obtain ⟨entry', _, entered, parts⟩ := Reader.bind_eq_ok.mp parts
  obtain ⟨nodeCount, _, counted, parts⟩ := Reader.bind_eq_ok.mp parts
  obtain ⟨⟨nodes, keys'⟩, behind, listed, parts⟩ := Reader.bind_eq_ok.mp parts
  obtain ⟨fields, rfl⟩ := Prod.mk.inj (Except.ok.inj parts)
  simp only [Prod.mk.injEq] at fields
  obtain ⟨rfl, rfl, rfl, nodesDef, rfl⟩ := fields
  obtain ⟨sized, records, length, fits, split, image⟩ := readNodes_took nodeCount 0 listed
  rw [nodesDef] at sized image
  refine ⟨fun node member => ?_, fun point found => ?_, records, ⟨?_, fits, ?_⟩, image⟩
  · rw [same]
    exact sized node member
  · rw [same] at found
    obtain ⟨node, here, level⟩ := top point found
    exact hasLayer_iff.mpr ⟨node, here, level⟩
  · rw [length]
    exact (readU32_took counted).2
  · obtain ⟨counts, _⟩ := readU32_took counted
    have front := readEntry_drops _ _ _ entered
    rw [readParams_drops _ _ _ read, readHeader_drops _ _ _ header, List.drop_drop, List.drop_drop,
      counts, split, List.append_nil, ← length] at front
    obtain ⟨body, bodyDef⟩ : ∃ body, body = bytes.take (bytes.length - 4) := ⟨_, rfl⟩
    rw [← bodyDef] at front
    refine ⟨body.take (HEADER_LEN + (PARAMS_LEN + ENTRY_LEN)), bytes.drop (bytes.length - 4), ?_, ?_, ?_⟩
    · rw [← List.append_assoc (leBytes 4 records.length), front, ← List.append_assoc,
        List.take_append_drop, bodyDef, List.take_append_drop]
    · rw [bodyDef, List.length_take, List.length_take]
      simp only [MIN_LEN, HEADER_LEN, PARAMS_LEN, ENTRY_LEN] at long ⊢
      omega
    · rw [List.length_drop]
      simp only [MIN_LEN] at long
      omega

/-- Records without gaps are nodes no call gets lost in. -/
theorem navigable_iff {records : List NodeRecord} (image : index.nodes = records.map NodeRecord.node)
    (entry : ∀ point, index.entry = some point → index.HasLayer point.node point.level) :
    index.Navigable ↔ NodeRecord.Sound records := by
  have listed : ∀ (id : NodeId) (layer : Nat), index.HasLayer id layer ↔
      ∃ other, records[id]? = some other ∧ layer < other.layers.length := by
    intro id layer
    rw [hasLayer_iff, image]
    simp only [List.getElem?_map, Option.map_eq_some_iff]
    constructor
    · rintro ⟨_, ⟨other, here, rfl⟩, level⟩
      exact ⟨other, here, level⟩
    · rintro ⟨other, here, level⟩
      exact ⟨_, ⟨other, here, rfl⟩, level⟩
  constructor
  · intro navigable record member
    have inside : record.node ∈ index.nodes := by
      rw [image]
      exact List.mem_map_of_mem member
    refine ⟨navigable.layers record.node inside, fun layer list found id member' => ?_⟩
    obtain ⟨position, here⟩ := List.getElem?_of_mem inside
    rw [← listed]
    exact navigable.edged position layer list (neighborsAt_eq_some.mpr ⟨_, here, found⟩) id member'
  · intro sound
    refine ⟨fun node member => ?_, fun id layer list found other member => ?_, entry⟩
    · rw [image] at member
      obtain ⟨record, inside, rfl⟩ := List.mem_map.mp member
      exact (sound record inside).1
    · obtain ⟨node, here, atLayer⟩ := neighborsAt_eq_some.mp found
      rw [image, List.getElem?_map, Option.map_eq_some_iff] at here
      obtain ⟨record, here, rfl⟩ := here
      rw [listed]
      exact (sound record (List.mem_of_getElem? here)).2 layer list atLayer other member

section Calls

variable {D : Type} [LinearOrder D] (ops : FloatOps D)

/-- What a validated graph is: navigable, with vectors of its dimension, and no insertion, deletion or
search on it or on a graph made of it hangs. -/
structure Validated (index : HnswIndex) : Prop where
  navigable : index.Navigable
  dims : ∀ node ∈ index.nodes, node.vector.length = index.dim
  calls : ∀ later, Continued ops index later →
    (∀ vector, later.nodes.length < nodeIdBound → HnswIndex.insert ops vector later ≠ .stuck) ∧
    (∀ id, HnswIndex.delete ops id later ≠ .stuck) ∧
    ∀ query k, k * 2 < u64Bound → search ops query k later ≠ .stuck

/-- **When decoding validates the graph**: if and only if every node record has a layer and lists at
each layer records that have it. -/
theorem validates_iff (decoded : decodeSnapshot hashes bytes = .ok (index, keys, marker)) :
    Validated ops index ↔ ∃ records, LaidOut records bytes ∧ NodeRecord.Sound records := by
  obtain ⟨sized, entry, records, laid, image⟩ := decodeSnapshot_records decoded
  have room : index.nodes.length ≤ nodeIdBound := by
    rw [image, List.length_map]
    exact laid.1.le
  constructor
  · intro validated
    exact ⟨records, laid, (navigable_iff image entry).mp validated.navigable⟩
  · rintro ⟨records', laid', sound⟩
    obtain rfl := laid.unique laid'
    have navigable := (navigable_iff image entry).mpr sound
    exact ⟨navigable, sized, fun later continued => continued.calls ops navigable room⟩

end Calls

/-- Three linked nodes, of which the entry point and one other have a second layer and one is deleted. -/
theorem validates_iff_linked :
    let hashes : Hashes := ⟨fun _ => 0, fun _ => (0, 0)⟩
    let graph : HnswIndex := { new ⟨.euclideanSquared, 1, 2, 1, 1, 1, 0⟩ with
      nodes := [⟨[0], [[1, 2], [2]], false⟩, ⟨[F32.one], [[0]], true⟩, ⟨[F32.one], [[0], [0]], false⟩]
      entry := some ⟨2, 1⟩ }
    ∃ index keys marker, decodeSnapshot hashes (encodeSnapshot hashes graph 0
        ((SortedMap.empty.insert [7] 0).insert [9] 2)) = .ok (index, keys, marker) ∧
      index.nodes = graph.nodes ∧ index.entry = some ⟨2, 1⟩ ∧ Validated FloatOps.zeroOne index := by
  intro hashes graph
  obtain ⟨bytes, bytesDef⟩ : ∃ bytes, bytes = encodeSnapshot hashes graph 0
    ((SortedMap.empty.insert [7] 0).insert [9] 2) := ⟨_, rfl⟩
  have decodes : ((decodeSnapshot hashes bytes).toOption.map fun decoded =>
      (decoded.1.nodes, decoded.1.entry)) = some (graph.nodes, some ⟨2, 1⟩) := by
    rw [bytesDef]
    decide +kernel
  obtain ⟨records, recordsDef⟩ : ∃ records : List NodeRecord, records =
    [⟨0, [0], [7], [[1, 2], [2]]⟩, ⟨1, [F32.one], [], [[0]]⟩, ⟨0, [F32.one], [9], [[0], [0]]⟩] := ⟨_, rfl⟩
  have laid : LaidOut records bytes := by
    refine ⟨by rw [recordsDef]; decide, fun record member => ?_, bytes.take 67,
      bytes.drop (bytes.length - 4), ?_, ?_, ?_⟩
    · subst recordsDef
      simp only [List.mem_cons, List.not_mem_nil, or_false] at member
      rcases member with rfl | rfl | rfl <;> exact ⟨by decide, by decide, by decide, by decide⟩
    all_goals
      rw [bytesDef]
      try rw [recordsDef]
      decide +kernel
  have sound : NodeRecord.Sound records := by
    subst recordsDef
    intro record member
    simp only [List.mem_cons, List.not_mem_nil, or_false] at member
    rcases member with rfl | rfl | rfl <;> refine ⟨List.cons_ne_nil _ _, fun layer list found id inside => ?_⟩ <;>
      rcases layer with _ | _ | layer <;> cases found <;>
      simp only [List.mem_cons, List.not_mem_nil, or_false] at inside
    · rcases inside with rfl | rfl <;> exact ⟨_, rfl, by decide⟩
    · rw [inside]
      exact ⟨_, rfl, by decide⟩
    · rw [inside]
      exact ⟨_, rfl, by decide⟩
    · rw [inside]
      exact ⟨_, rfl, by decide⟩
    · rw [inside]
      exact ⟨_, rfl, by decide⟩
  rw [← bytesDef]
  cases run : decodeSnapshot hashes bytes with
  | error error =>
    rw [run] at decodes
    cases decodes
  | ok decoded =>
    obtain ⟨index, keys, marker⟩ := decoded
    rw [run] at decodes
    obtain ⟨nodes, entry⟩ := Prod.mk.inj (Option.some.inj decodes)
    exact ⟨index, keys, marker, rfl, nodes, entry,
      (validates_iff FloatOps.zeroOne run).mpr ⟨records, laid, sound⟩⟩

/-- A live node without layers decodes, and deleting it hangs. -/
theorem validates_fails : ¬ ∀ bytes index keys marker,
    decodeSnapshot ⟨fun _ => 0, fun _ => (0, 0)⟩ bytes = .ok (index, keys, marker) →
      Validated FloatOps.zeroOne index := by
  obtain ⟨hashes, hashesDef⟩ : ∃ hashes : Hashes, hashes = ⟨fun _ => 0, fun _ => (0, 0)⟩ := ⟨_, rfl⟩
  obtain ⟨bytes, bytesDef⟩ : ∃ bytes, bytes = encodeSnapshot hashes
    { new ⟨.euclideanSquared, 1, 2, 1, 1, 1, 0⟩ with nodes := [⟨[0], [], false⟩] } 0
      (SortedMap.empty.insert [7] 0) := ⟨_, rfl⟩
  have decodes : ((decodeSnapshot hashes bytes).toOption.map fun decoded =>
      (HnswIndex.delete FloatOps.zeroOne 0 decoded.1).result.isNone) = some true := by
    rw [bytesDef, hashesDef]
    decide +kernel
  rw [← hashesDef]
  intro always
  cases run : decodeSnapshot hashes bytes with
  | error error =>
    rw [run] at decodes
    cases decodes
  | ok decoded =>
    obtain ⟨index, keys, marker⟩ := decoded
    rw [run] at decodes
    have hangs := Option.some.inj decodes
    have returns := ((always bytes index keys marker run).calls index .start).2.1 0
    cases ended : HnswIndex.delete FloatOps.zeroOne 0 index with
    | ok value after =>
      simp only [ended] at hangs
      cases hangs
    | err error after =>
      simp only [ended] at hangs
      cases hangs
    | stuck => exact returns ended

end HnswIndex

end Sastran

/-
That calls return.

On a device that works a running engine takes the calls it has room for: no step panics, no table is reported
as corrupt, and the only errors are those of arguments (`calls_return`). So the histories of the other modules
go on from each of their states.

* `Lsm.room` - what the entries of a state take in data blocks; a table of them takes at most three times
  that, its filter and a footer (`tableRoom_le`).
* `flushInner_succeeds`, `compactL0L1_succeeds` - the steps of the tables; a merge needs a round for each
  entry of its inputs at most (`InMemory.inputSize_le`).
* `Call.Admissible` - the calls that are taken; `Call.Roomy` - that there is room for what one writes; and
  `Call.ends`, what becomes of a call either way.
-/

import Sastran.Engine.History
import Sastran.Engine.Split
import Sastran.SsTable.RoundTrip
import Mathlib.Algebra.BigOperators.Ring.List
import Mathlib.Algebra.Order.BigOperators.Group.List

namespace Sastran

open Device SsTable VectorIndex

variable {D : Type} {env : Env D} {world : World Fs} {inner : EngineInner} {lsm : Lsm} {log : Bytes}
  {snapshots : List (Nat × Bytes)}

/-! ### Room -/

/-- A write fails only for want of room, so it returns where there is room. -/
theorem Ends.of_room {σ α : Type} {room : Nat} {program : Prog Error σ α} {state : σ} {post : α → σ → Prop}
    (ends : Ends (TooLarge room) program state post) (fits : room ≤ maxFileLen) :
    Succeeds program state post := by
  rcases ends.cases with ⟨value, after, run, holds⟩ | ⟨_, _, _, _, large⟩
  · exact ⟨value, after, run, holds⟩
  · exact absurd large (not_lt.mpr fits)

/-- What entries may take in data blocks at most, so that no table of them is too large. -/
def roomBound : Nat := 2 ^ 60

theorem indexRoom_le (entries : List (Key × Entry)) : indexRoom entries ≤ 2 * dataRoom entries := by
  induction entries with
  | nil => exact Nat.zero_le _
  | cons entry rest ih =>
    simp only [indexRoom, dataRoom, encodedEntrySize, List.map_cons, List.sum_cons] at ih ⊢
    omega

/-- **A table is not too large**, whatever its filter. -/
theorem tableRoom_le {bloom : Option BloomFilter} (wf : ∀ filter, bloom = some filter → filter.Wf)
    {entries : List (Key × Entry)} (small : dataRoom entries ≤ roomBound) :
    tableRoom bloom entries ≤ maxFileLen := by
  have keys := indexRoom_le entries
  have filter : filterRoom bloom ≤ 2 ^ 61 + 13 := by
    cases bloom with
    | none => exact Nat.zero_le _
    | some filter =>
      have bits := (wf filter rfl).m_lt
      simp only [u64Bound] at bits
      rw [filterRoom]
      omega
  simp only [tableRoom, FOOTER_LEN, maxFileLen, roomBound] at small ⊢
  omega

/-- What the entries of all layers take in data blocks. -/
def Lsm.room (lsm : Lsm) : Nat := (lsm.layers.map fun map => dataRoom map.entries).sum

theorem Lsm.room_eq (lsm : Lsm) : lsm.room =
    dataRoom lsm.memtable.entries + (lsm.tables.map fun table => dataRoom table.2.entries).sum := by
  rw [room, layers, List.map_cons, List.sum_cons, List.map_map]
  rfl

theorem Lsm.room_flush (lsm : Lsm) : lsm.flush.room = lsm.room := by
  unfold flush
  split
  · rfl
  · rw [room_eq, room_eq]
    simp only [tables, List.cons_append, List.map_cons, List.sum_cons]
    exact Nat.zero_add _

theorem Flushed.room {records records' : List Record} {lsm' : Lsm}
    (flushed : Flushed lsm records lsm' records') : lsm'.room = lsm.room := by
  cases flushed with
  | kept => rfl
  | moved => exact lsm.room_flush

theorem Lsm.room_write_le (lsm : Lsm) (key : Key) (entry : Entry) :
    (lsm.write key entry).room ≤ lsm.room + dataRoom [(key, entry)] := by
  have added : dataRoom (lsm.memtable.insert key entry).entries ≤
      dataRoom lsm.memtable.entries + dataRoom [(key, entry)] := lsm.memtable.total_insert_le _ key entry
  rw [room_eq, room_eq]
  show dataRoom (lsm.memtable.insert key entry).entries +
    (lsm.tables.map fun table => dataRoom table.2.entries).sum ≤ _
  omega

/-- **A merge takes no more** than its inputs. -/
theorem Lsm.room_merged_le (lsm : Lsm) : dataRoom lsm.merged.entries ≤ lsm.room := by
  have whole : dataRoom lsm.merged.entries ≤
      (lsm.tables.map fun table => dataRoom table.2.entries).sum := by
    refine (SortedMap.total_filter_le _ _ _).trans ((SortedMap.total_union_le _ _).trans_eq ?_)
    rw [List.map_map]
    rfl
  rw [room_eq]
  omega

/-! ### Flushes -/

theorem Io.rename_succeeds (calm : world.Calm) (wf : world.now.Wf) {source : FileName}
    (target : FileName) (present : world.now.content source ≠ none) :
    Succeeds (Io.rename source target) world fun _ _ => True := by
  have linked : world.now.dir.find? source ≠ none := fun gone => present ((Fs.content_eq_none wf).mpr gone)
  obtain ⟨ino, found⟩ := Option.ne_none_iff_exists'.mp linked
  have moved : Succeeds (Io.rename source target) world fun _ after =>
      () = () ∧ after.now = world.now.move source target ino ∧
        Passes (· = world.now.move source target ino) world after :=
    ioCall_succeeds calm (by simp only [found]; rfl)
  exact moved.mono fun _ _ _ => trivial

theorem nextId_succeeds {id : Nat} (small : id + 1 < u64Bound) {state : EngineInner × World Fs} :
    Succeeds (nextId id) state fun next after => next = id + 1 ∧ after = state := by
  refine ⟨id + 1, state, ?_, rfl, rfl⟩
  rw [nextId, if_pos small]
  rfl

/-- A finished table is published. -/
theorem publishTable_succeeds (calm : world.Calm) (wf : world.now.Wf) {filename : FileName}
    {bytes : Bytes} {map : SortedMap Key Entry}
    (stored : world.now.content (tmpName filename) = some bytes)
    (isTable : IsTable env.hashes bytes map) :
    Succeeds (EngineInner.publishTable env filename) world fun _ _ => True := by
  have present : world.now.content (tmpName filename) ≠ none := by
    rw [stored]
    exact Option.some_ne_none bytes
  refine Succeeds.bind (((Io.rename_succeeds calm wf filename present).of_ensures
    (Io.rename_frame wf (tmpName_ne filename))).mono fun _ renamed facts => ?_)
  obtain ⟨_, held, _, passes⟩ := facts
  have calm' := passes.calm calm
  refine Succeeds.bind (((Io.syncDir_succeeds calm').of_ensures Io.syncDir_ensures).mono
    fun _ synced quiet => ?_)
  have held' : synced.now.content filename = some bytes := by rw [quiet.now, held, stored]
  exact (SsTableReader.open_succeeds (quiet.calm calm') held' isTable).mono fun _ _ _ => trivial

theorem rotateLog_succeeds (calm : world.Calm) (wf : world.now.Wf)
    (present : world.now.content WAL_FILENAME ≠ none) :
    Succeeds EngineInner.rotateLog (inner, world) fun _ _ => True := by
  refine Succeeds.bind (Succeeds.zoom (Succeeds.bind (((Io.removeFile_succeeds calm wf present).of_ensures
    (Io.removeFile_frame wf WAL_FILENAME)).mono fun _ removed facts => ?_)))
  obtain ⟨frame, _, passes⟩ := facts
  refine (WalWriter.open_succeeds frame.wf (passes.calm calm) WAL_FILENAME).mono fun writer opened _ => ?_
  exact ⟨(), _, rfl, trivial⟩

/-- **A flush of a memtable that holds something** returns, if nothing is left in its temporary file, there
is a log to replace, another table id, and room for the table. -/
theorem InMemory.flush_succeeds {dir : Dir} (calm : world.Calm) (memory : InMemory env.hashes inner lsm)
    (described : Describes env.hashes world.now dir) (full : inner.memtable.isEmpty = false)
    (unwritten : (world.now.content (tmpName (sstFilename 0 lsm.nextId))).getD [] = [])
    (present : dir.log ≠ none) (small : lsm.nextId + 1 < u64Bound) (roomy : lsm.room ≤ roomBound) :
    Succeeds (EngineInner.flushInner env) (inner, world) fun _ _ => True := by
  have wf := described.wf
  refine Succeeds.bind_ok rfl ?_
  rw [if_neg (by rw [full]; exact Bool.false_ne_true)]
  have entries : inner.memtable.iter = lsm.memtable.entries := by rw [← memory.memtable]; rfl
  simp only [entries, memory.next]
  have fits : tableRoom (if env.options.bloomBitsPerKey > 0 then
      some (BloomFilter.new inner.memtable.len env.options.bloomBitsPerKey) else none)
      lsm.memtable.entries ≤ maxFileLen := by
    refine tableRoom_le (fun filter chosen => ?_) ?_
    · split at chosen
      · exact Option.some.inj chosen ▸ BloomFilter.new_wf _ _
      · cases chosen
    · rw [Lsm.room_eq] at roomy
      omega
  refine Succeeds.bind (Succeeds.zoom (((Ends.of_room (writeTable_ends calm wf unwritten _ _
    memory.valid) fits).of_ensures (writeTable_ensures wf _ _ memory.valid)).mono
    fun _ written facts => ?_))
  obtain ⟨⟨bytes, stored, isTable⟩, frame, passes⟩ := facts
  have calm' := passes.calm calm
  refine Succeeds.bind (Succeeds.zoom (((publishTable_succeeds calm' frame.wf stored isTable).of_ensures
    (publishTable_ensures calm' frame.wf stored isTable)).mono fun reader published facts => ?_))
  obtain ⟨_, pub, passes'⟩ := facts
  refine Succeeds.bind ((nextId_succeeds small).mono fun next _ facts => ?_)
  obtain ⟨_, rfl⟩ := facts
  have grown : Describes env.hashes published.now (dir.pushL0 (lsm.nextId, lsm.memtable)) :=
    described.publishL0 small frame isTable pub
  have logged : published.now.content WAL_FILENAME ≠ none := by
    rw [grown.log]
    exact present
  exact Succeeds.bind_ok rfl (rotateLog_succeeds (passes'.calm calm') grown.wf logged)

/-- **A flush** returns, if there is another table id and room for the table. -/
theorem flushInner_succeeds (calm : world.Calm)
    (holds : Holds env.hashes world.now inner lsm log snapshots) (small : lsm.nextId + 1 < u64Bound)
    (roomy : lsm.room ≤ roomBound) :
    Succeeds (EngineInner.flushInner env) (inner, world) fun _ _ => True := by
  cases empty : inner.memtable.isEmpty with
  | true =>
    refine Succeeds.bind_ok rfl ?_
    rw [if_pos empty]
    exact Succeeds.zoom ((FileAppend.sync_succeeds calm).mono fun _ _ _ => trivial)
  | false =>
    refine holds.flush_succeeds calm holds.described empty ?_ (Option.some_ne_none _) small roomy
    rw [holds.tidy _ (tmp_of_sst 0 _)]
    rfl

/-! ### Compactions -/

/-- The merge will give these entries. -/
def Merges (hashes : Hashes) (count : Nat) (merge : MergingIterator SsTableIterator)
    (left : List (Key × Entry)) : Prop :=
  ∃ layers, layers.length = count ∧ Layered layers ∧
    MergingIterator.Merging (SsTableIterator.Yields hashes) merge layers [] ∧ IsMerge layers left

/-- What a round of a merge is in front of: `left` is still to come, and its live entries are those of the
output that are not written yet. -/
structure Writes (hashes : Hashes) (count : Nat) (name : FileName) (entries : List (Key × Entry))
    (left : List (Key × Entry)) (state : MergingIterator SsTableIterator × SsTableWriter × Bool)
    (world : World Fs) : Prop where
  calm : world.Calm
  merges : Merges hashes count state.1 left
  writing : ∃ blocks current, SsTableWriter.Writing hashes state.2.1 name blocks current world.now ∧
    (blocks.flatten ++ current) ++ left.filter kept = entries

/-- **A round** ends, and leaves fewer entries. -/
theorem mergeRound_ends {count rounds : Nat} (enough : count ≤ rounds) {name : FileName}
    {map : SortedMap Key Entry} (valid : ValidMap map) {left : List (Key × Entry)}
    {state : MergingIterator SsTableIterator × SsTableWriter × Bool}
    (writes : Writes env.hashes count name map.entries left state world) :
    Ends (TooLarge (dataRoom map.entries)) (EngineInner.mergeRound env rounds state) world fun result after =>
      match result with
      | .inl next => ∃ left', left'.length < left.length ∧
          Writes env.hashes count name map.entries left' next after
      | .inr _ => True := by
  obtain ⟨calm, ⟨layers, length, layered, merging, isMerge⟩, blocks, current, writing, split⟩ := writes
  obtain ⟨merge, writer, wroteAny⟩ := state
  refine Ends.bind ((MergingIterator.next_succeeds sourced layered merging calm isMerge
    (length ▸ enough)).mono fun result middle facts => ?_).ends
  obtain ⟨yielded, quiet⟩ := facts
  obtain ⟨item, merge'⟩ := result
  have writing' : SsTableWriter.Writing env.hashes writer name blocks current middle.now :=
    quiet.now ▸ writing
  have calm' := quiet.calm calm
  cases left with
  | nil =>
    obtain rfl : item = none := yielded
    exact Ends.pure trivial
  | cons entry rest =>
    obtain ⟨same, layers', length', layered', merging', isMerge'⟩ := yielded
    obtain rfl : item = some (.ok entry) := same
    obtain ⟨key, entry⟩ := entry
    have merges' : Merges env.hashes count merge' rest :=
      ⟨layers', length'.trans length, layered', merging', isMerge'⟩
    have next : ∀ (entry : Entry),
        (blocks.flatten ++ current) ++ (key, entry) :: rest.filter kept = map.entries →
        Ends (TooLarge (dataRoom map.entries)) (writer.add env.hashes key entry >>= fun writer =>
          pure (Sum.inl (merge', writer, true))) middle fun result after =>
          match result with
          | .inl next => ∃ left', left'.length < ((key, entry) :: rest).length ∧
              Writes env.hashes count name map.entries left' next after
          | .inr (_ : SsTableWriter × Bool) => True := by
      intro entry split
      have member : (key, entry) ∈ map.entries := by
        rw [← split]
        exact List.mem_append_right _ (List.mem_cons_self ..)
      have fits := valid key entry ((map.mem_entries_iff key entry).mp member)
      have behind : ∀ held ∈ blocks.flatten ++ current, held.1 < key := by
        have ascending := map.ascending
        rw [← split] at ascending
        exact fun held inside =>
          (List.pairwise_append.mp ascending).2.2 held inside _ (List.mem_cons_self ..)
      have room : dataRoom (blocks.flatten ++ current) ≤ dataRoom map.entries := by
        rw [← split, dataRoom_append (blocks.flatten ++ current)]
        exact Nat.le_add_right _ _
      refine Ends.bind ((((SsTableWriter.add_ends calm' writing' fits behind).weaken
        (TooLarge.mono room)).of_ensures (SsTableWriter.add_ensures writing' fits)).mono
        fun writer' after facts => ?_)
      obtain ⟨blocks', current', added, grown, _, passed⟩ := facts
      refine Ends.pure ⟨rest, Nat.lt_succ_self _, passed.calm calm', merges', blocks', current', added, ?_⟩
      rw [grown, List.append_assoc]
      exact split
    cases entry with
    | tombstone =>
      exact Ends.pure ⟨rest, Nat.lt_succ_self _, calm', merges', blocks, current, writing', split⟩
    | put value => exact next (.put value) split
    | vector bytes => exact next (.vector bytes) split

/-- A merge gives no more entries than its inputs have. -/
theorem IsMerge.length_le {layers : List Layer} {merged : List (Key × Entry)}
    (isMerge : IsMerge layers merged) :
    merged.length ≤ (layers.map fun layer => layer.2.length).sum := by
  have distinct : merged.Nodup :=
    isMerge.ascending.imp fun less same => absurd (congrArg Prod.fst same) less.ne
  have inside : merged ⊆ layers.flatMap Prod.snd := by
    intro entry member
    obtain ⟨layer, listed, found, _⟩ := (isMerge.newest entry.1 entry.2).mp
      (SortedMap.lookupIn_of_mem isMerge.ascending member)
    exact List.mem_flatMap.mpr ⟨layer, listed, SortedMap.mem_of_lookupIn found⟩
  have few := distinct.length_le_of_subset inside
  rwa [List.length_flatMap] at few

/-- An entry takes four bytes at least. -/
theorem length_le_blockBody (block : Block) : 4 * block.length ≤ (blockBody block).length := by
  induction block with
  | nil => exact Nat.zero_le _
  | cons entry block ih =>
    obtain ⟨key, entry⟩ := entry
    rw [blockBody_cons, List.length_append, encodeEntry_length, encodedEntrySize, List.length_cons]
    omega

theorem length_le_dataBytes (hashes : Hashes) (blocks : List Block) :
    blocks.flatten.length ≤ (dataBytes hashes blocks).length := by
  induction blocks with
  | nil => exact Nat.zero_le _
  | cons block blocks ih =>
    have first := length_le_blockBody block
    rw [dataBytes_cons, List.flatten_cons, List.length_append, List.length_append, blockBytes,
      checked_length]
    omega

theorem dataRoom_le_dataBytes (hashes : Hashes) (blocks : List Block) :
    dataRoom blocks.flatten ≤ 2 * (dataBytes hashes blocks).length := by
  induction blocks with
  | nil => exact Nat.zero_le _
  | cons block blocks ih =>
    have entries := length_le_blockBody block
    have first := blockBody_le block
    rw [dataBytes_cons, List.flatten_cons, dataRoom_append, List.length_append, blockBytes, checked_length]
    omega

theorem SsTableReader.Reads.room_le {hashes : Hashes} {reader : SsTableReader}
    {map : SortedMap Key Entry} (reads : reader.Reads hashes map) :
    dataRoom map.entries ≤ 2 * reader.file.bytes.length := by
  obtain ⟨blocks, back, flat, _, _, bytes⟩ := reads.layout
  have layout := dataRoom_le_dataBytes hashes blocks
  rw [← flat, bytes, List.length_append]
  omega

theorem SsTableReader.Reads.length_le {hashes : Hashes} {reader : SsTableReader}
    {map : SortedMap Key Entry} (reads : reader.Reads hashes map) :
    map.entries.length ≤ reader.file.bytes.length := by
  obtain ⟨blocks, back, flat, _, _, bytes⟩ := reads.layout
  rw [← flat, bytes, List.length_append]
  exact (length_le_dataBytes hashes blocks).trans (Nat.le_add_right _ _)

/-- **The loop of a merge is long enough.** -/
theorem InMemory.inputSize_le (memory : InMemory env.hashes inner lsm)
    {left : List (Key × Entry)} (isMerge : IsMerge (inputLayers lsm.inputs) left) :
    left.length ≤ EngineInner.inputSize (inner.levels.l1 ++ inner.levels.l0) := by
  refine isMerge.length_le.trans ?_
  unfold inputLayers EngineInner.inputSize
  rw [List.map_map]
  refine List.Forall₂.sum_le_sum ?_
  rw [List.forall₂_map_left_iff, List.forall₂_map_right_iff]
  exact memory.inputs.flip.imp fun entry table read => read.2.length_le

/-- **Merging the inputs** ends. -/
theorem mergeInputs_ends (calm : world.Calm)
    (holds : Holds env.hashes world.now inner lsm log snapshots) {filename : FileName}
    (absent : world.now.content (tmpName filename) = none) (expectedKeys : Nat) :
    Ends (TooLarge (dataRoom lsm.merged.entries))
      (EngineInner.mergeInputs env filename expectedKeys (inner.levels.l1 ++ inner.levels.l0)) world
      fun _ _ => True := by
  refine Ends.bind (((holds.merging calm).mono fun merge opened facts => ?_).ends)
  obtain ⟨merging, quiet⟩ := facts
  have calm' := quiet.calm calm
  have wf : opened.now.Wf := quiet.now ▸ holds.fs_wf
  refine Ends.bind ((((SsTableWriter.create_succeeds calm' wf (by rw [quiet.now, absent]; rfl) expectedKeys
    env.options.bloomBitsPerKey).of_ensures (SsTableWriter.create_ensures env.hashes wf expectedKeys
    env.options.bloomBitsPerKey)).mono fun writer created facts => ?_).ends)
  obtain ⟨writing, _, passes, _⟩ := facts
  have isMerge := inputLayers_merge holds.ordered
  have merges : Merges env.hashes (inputLayers lsm.inputs).length merge
      (SortedMap.union (lsm.tables.map Prod.snd)).entries :=
    ⟨_, rfl, inputLayers_layered holds.ordered, merging, isMerge⟩
  refine Ends.loop (fun bound state after => ∃ left, left.length = bound ∧
    Writes env.hashes (inputLayers lsm.inputs).length (tmpName filename) lsm.merged.entries left state after)
    ?_ _ _ _ _ (Nat.lt_succ_of_le (holds.inputSize_le isMerge))
    ⟨_, rfl, passes.calm calm', merges, [], [], writing, rfl⟩
  rintro bound state after ⟨left, rfl, writes⟩
  refine (mergeRound_ends holds.inputs_length.le (Lsm.merged_valid holds.tables_valid) writes).mono
    fun result last facts => ?_
  cases result with
  | inl next =>
    obtain ⟨left', less, writes'⟩ := facts
    exact ⟨_, less, left', rfl, writes'⟩
  | inr done => exact trivial

/-- **Installing the output** returns. -/
theorem installOutput_succeeds (calm : world.Calm) (small : lsm.nextId + 1 < u64Bound) (wf : world.now.Wf)
    {writer : SsTableWriter} {blocks : List Block} {current : Block}
    (writing : SsTableWriter.Writing env.hashes writer (tmpName (sstFilename 1 lsm.nextId)) blocks
      current world.now)
    (written : blocks.flatten ++ current = lsm.merged.entries) (roomy : lsm.room ≤ roomBound)
    (wroteAny : Bool) : Succeeds (EngineInner.installOutput env lsm.nextId writer wroteAny) (inner, world)
      fun _ _ => True := by
  unfold EngineInner.installOutput
  cases wroteAny with
  | false =>
    rw [if_neg Bool.false_ne_true]
    refine Succeeds.bind (Succeeds.zoom ((Io.ignore_removeFile_frame calm wf _).mono
      fun _ removed _ => ?_))
    refine Succeeds.bind ((nextId_succeeds small).mono fun next _ facts => ?_)
    exact ⟨(), _, rfl, trivial⟩
  | true =>
    rw [if_pos rfl]
    have fits : tableRoom writer.bloom (blocks.flatten ++ current) ≤ maxFileLen :=
      tableRoom_le (fun filter chosen => (writing.reports filter chosen).1)
        (written ▸ lsm.room_merged_le.trans roomy)
    refine Succeeds.bind (Succeeds.zoom (((Ends.of_room (SsTableWriter.finish_ends calm writing)
      fits).of_ensures (SsTableWriter.finish_ensures writing written)).mono fun _ finished facts => ?_))
    obtain ⟨⟨bytes, stored, isTable⟩, frame, passes⟩ := facts
    refine Succeeds.bind (Succeeds.zoom ((publishTable_succeeds (passes.calm calm) frame.wf stored
      isTable).mono fun reader published _ => ?_))
    refine Succeeds.bind ((nextId_succeeds small).mono fun next _ facts => ?_)
    exact ⟨(), _, rfl, trivial⟩

/-- **A compaction** returns, if there is another table id and room for the output. -/
theorem compactL0L1_succeeds (calm : world.Calm)
    (holds : Holds env.hashes world.now inner lsm log snapshots) (small : lsm.nextId + 1 < u64Bound)
    (roomy : lsm.room ≤ roomBound) :
    Succeeds (EngineInner.compactL0L1 env) (inner, world) fun _ _ => True := by
  have absent : world.now.content (tmpName (sstFilename 1 lsm.nextId)) = none :=
    holds.tidy _ (tmp_of_sst 1 _)
  refine Succeeds.bind_ok rfl ?_
  simp only [holds.next]
  have fits : dataRoom lsm.merged.entries ≤ maxFileLen :=
    (lsm.room_merged_le.trans roomy).trans (by decide)
  refine Succeeds.bind (Succeeds.zoom (((Ends.of_room (mergeInputs_ends calm holds absent _) fits).of_ensures
    (holds.mergeInputs_ensures calm holds.fs_wf holds.tables_valid _ _)).mono fun result merged facts => ?_))
  obtain ⟨blocks, current, writing, written, wrote, frame, passes⟩ := facts
  obtain ⟨writer, wroteAny⟩ := result
  obtain rfl : wroteAny = !lsm.merged.entries.isEmpty := wrote
  have calm' := passes.calm calm
  refine Succeeds.bind (((installOutput_succeeds calm' small frame.wf writing written roomy _).of_ensures
    (installOutput_ensures calm' holds.described holds.ordered.fresh_l1 writing written frame)).mono
      fun _ installed facts => ?_)
  obtain ⟨facts, passes'⟩ := facts
  obtain ⟨inner', world'⟩ := installed
  have published : Describes env.hashes world'.now (lsm.remaining [] log snapshots) :=
    lsm.stored_output log snapshots ▸ facts.described
  rw [holds.inputs_ids]
  refine Succeeds.bind (Succeeds.zoom ((removeInputs_succeeds holds.ordered holds.small
    (lsm.inputs.map Prod.fst) [] (passes'.calm calm') rfl published).mono
    fun _ removed done => ?_))
  obtain ⟨_, _, passes''⟩ := done
  exact Succeeds.zoom (ignore_succeeds ((Io.syncDir_succeeds
    (passes''.calm (passes'.calm calm'))).mono fun _ _ _ => trivial))

/-! ### The steps of a call -/

variable {records records' : List Record} {lsm' : Lsm}

theorem logRecord_succeeds (calm : world.Calm) (holds : Holds env.hashes world.now inner lsm log snapshots)
    {kind : RecordKind} {key value : Bytes} (valid : Record.Valid ⟨kind, key, value⟩)
    (fits : (Wal.fileHeader ++ log).length + Record.encodedLen key.length value.length ≤ maxFileLen) :
    Succeeds (Engine.logRecord env kind key value) (inner, world) fun _ _ => True := by
  have encoded := Record.encode_eq_ok_iff.mpr (⟨valid, rfl⟩ :
    Record.Valid ⟨kind, key, value⟩ ∧ Record.bytes env.hashes ⟨kind, key, value⟩ = _)
  have appends : Succeeds (inner.writer.append env.hashes kind key value) world fun _ after => after.Calm := by
    unfold WalWriter.append
    rw [encoded]
    refine Succeeds.bind_ok rfl (((Ends.of_room (FileAppend.append_ends_linked calm holds.linked holds.logged
      _) ?_).of_ensures (FileAppend.append_ensures _)).mono fun _ after facts => facts.2.2.calm calm)
    rwa [Record.bytes_length]
  refine Succeeds.bind_ok (Engine.lockInner_running holds.running) (Succeeds.bind (Succeeds.zoom
    (appends.mono fun _ appended calm' => ?_)))
  refine Succeeds.bind (Succeeds.zoom ((FileAppend.sync_succeeds calm').mono fun _ synced _ => ?_))
  exact ⟨_, _, rfl, trivial⟩

theorem maybeAutoFlush_succeeds (calm : world.Calm)
    (holds : Holds env.hashes world.now inner lsm log snapshots) (small : lsm.nextId + 1 < u64Bound)
    (roomy : lsm.room ≤ roomBound) :
    Succeeds (EngineInner.maybeAutoFlush env) (inner, world) fun _ _ => True := by
  refine Succeeds.bind_ok rfl ?_
  by_cases large : inner.memtable.approximateSize ≥ env.options.memtableMaxSizeBytes
  · rw [if_pos large]
    exact flushInner_succeeds calm holds small roomy
  · rw [if_neg large]
    exact Succeeds.pure trivial

theorem maybeCompact_succeeds (calm : world.Calm)
    (holds : Holds env.hashes world.now inner lsm log snapshots) (small : lsm.nextId + 1 < u64Bound)
    (roomy : lsm.room ≤ roomBound) :
    Succeeds (EngineInner.maybeCompact env) (inner, world) fun _ _ => True := by
  refine Succeeds.bind_ok rfl ?_
  by_cases few : inner.levels.l0.length < env.options.l0CompactionTrigger
  · rw [if_pos few]
    exact Succeeds.pure trivial
  · rw [if_neg few]
    exact compactL0L1_succeeds calm holds small roomy

theorem Flushed.nextId_le_succ (flushed : Flushed lsm records lsm' records') :
    lsm'.nextId ≤ lsm.nextId + 1 := by
  cases flushed with
  | kept => exact Nat.le_succ _
  | moved =>
    rcases lsm.flush_eq_or with same | next
    · rw [same]
      exact Nat.le_succ _
    · exact next.le

/-- A flush, a compaction, and the id behind them. -/
theorem settle_succeeds {flush : InnerM Unit} (before : Nat)
    (returns : Succeeds flush (inner, world) fun _ _ => True)
    (flushes : Ensures flush (inner, world) fun _ after =>
      (∃ lsm' records', Flushed lsm records lsm' records' ∧
        Running env.hashes after.2.now after.1 lsm' records' snapshots) ∧ after.2.Calm)
    (small : lsm.nextId + 2 < u64Bound) (roomy : lsm.room ≤ roomBound) :
    Succeeds (do flush; EngineInner.maybeCompact env; Engine.changedId before) (inner, world)
      fun _ _ => True := by
  refine Succeeds.bind ((returns.of_ensures flushes).mono fun _ flushed facts => ?_)
  obtain ⟨⟨lsm', records', step, running⟩, calm⟩ := facts
  obtain ⟨inner', world'⟩ := flushed
  have next := step.nextId_le_succ
  refine Succeeds.bind ((maybeCompact_succeeds calm running.holds (by omega)
    (step.room.trans_le roomy)).mono fun _ settled _ => ?_)
  exact ⟨_, _, rfl, trivial⟩

/-- A record that is not valid is not logged. -/
theorem Record.encode_refused {hashes : Hashes} {record : Record} (invalid : ¬ record.Valid) :
    ∃ error, Record.encode hashes record.kind record.key record.value = .error error ∧
      error.IsArgument := by
  cases encoded : Record.encode hashes record.kind record.key record.value with
  | ok image => exact absurd (Record.encode_eq_ok_iff.mp encoded).1 invalid
  | error error =>
    refine ⟨error, rfl, ?_⟩
    unfold Record.encode at encoded
    split_ifs at encoded
    all_goals exact ⟨_, (Except.error.inj encoded).symm⟩

theorem Call.lsmStep_refused [LinearOrder D] {call : Call} (running : inner.closed = false)
    {record : Record} (written : call.record = some record) (invalid : ¬ record.Valid) :
    ∃ error, call.lsmStep env (inner, world) = .err error (inner, world) ∧ error.IsArgument := by
  obtain ⟨error, refused, argument⟩ :
      ∃ error, Record.encode env.hashes record.kind record.key record.value = .error error ∧
        error.IsArgument := Record.encode_refused invalid
  refine ⟨error, ?_, argument⟩
  have appended : inner.writer.append env.hashes record.kind record.key record.value world =
      .err error world := by
    unfold WalWriter.append
    rw [refused]
    rfl
  have logged : Engine.logRecord env record.kind record.key record.value (inner, world) =
      .err error (inner, world) := by
    unfold Engine.logRecord
    rw [bind_ok (Engine.lockInner_running running)]
    exact bind_err (zoom_err appended) _
  unfold Call.lsmStep
  rw [written]
  exact bind_err logged _

/-- **The LSM step of a call with a valid record** returns, if there are two more table ids and room. -/
theorem Call.lsmStep_succeeds [LinearOrder D] (call : Call) (calm : world.Calm)
    (running : Running env.hashes world.now inner lsm records snapshots)
    (small : lsm.nextId + 2 < u64Bound)
    (valid : ∀ record, call.record = some record → record.Valid)
    (fits : ∀ record, call.record = some record → (Wal.fileHeader ++ logBytes env.hashes records).length +
      Record.encodedLen record.key.length record.value.length ≤ maxFileLen)
    (roomy : (lsm.log call.record).room ≤ roomBound) :
    Succeeds (call.lsmStep env) (inner, world) fun _ _ => True := by
  unfold Call.lsmStep
  cases written : call.record with
  | some record =>
    rw [written] at roomy
    refine Succeeds.bind (((logRecord_succeeds calm running.holds (valid record written)
      (fits record written)).of_ensures (logRecord_running running _ _ _)).mono fun before logged facts => ?_)
    obtain ⟨same, _, running', passes⟩ := facts
    obtain ⟨inner', world'⟩ := logged
    have calm' := passes.calm calm
    have flushes := (maybeAutoFlush_running calm' running').mono fun _ _ facts =>
      (⟨facts.1, facts.2.calm calm'⟩ : _ ∧ World.Calm _)
    exact settle_succeeds before (maybeAutoFlush_succeeds calm' running'.holds
      (by show lsm.nextId + 1 < _; omega) roomy) flushes small roomy
  | none =>
    rw [written] at roomy
    refine Succeeds.bind_ok (Engine.lockInner_running running.holds.running) ?_
    have flushes := (flushInner_running calm running).mono fun _ after facts =>
      (⟨⟨lsm.flush, facts.1⟩, facts.2.calm calm⟩ :
        (∃ lsm' records', Flushed lsm records lsm' records' ∧
          Running env.hashes after.2.now after.1 lsm' records' snapshots) ∧ after.2.Calm)
    exact settle_succeeds _ (flushInner_succeeds calm running.holds (by omega) roomy) flushes small roomy

/-! ### Snapshots -/

theorem snapshotBytes_length (env : Env D) (index : VectorIndex) (marker : Nat) :
    (snapshotBytes env index marker).length = (snapshotBytes env index 0).length := by
  simp only [snapshotBytes, HnswIndex.encodeSnapshot, HnswIndex.encodeBody, HnswIndex.encodeParams,
    List.length_append, List.length_cons, LittleEndian.leBytes_length]

theorem installSnapshot_succeeds (calm : world.Calm) {dir : Dir}
    (described : Describes env.hashes world.now dir) (tidy : world.now.Tidy) (id : Nat) {bytes : Bytes}
    (fits : bytes.length ≤ maxFileLen) :
    Succeeds (Engine.installSnapshot id bytes) world fun _ _ => True := by
  refine Succeeds.bind (((Io.openAppend_succeeds calm _).of_ensures
    (Io.openAppend_frame described.wf _)).mono fun writer created facts => ?_)
  obtain ⟨frame, here, linked, passes⟩ := facts
  rw [tidy _ (Or.inr ⟨id, rfl⟩), Option.getD_none] at here
  have calm' := passes.calm calm
  refine Succeeds.bind (((Ends.of_room (FileAppend.append_ends_linked calm' linked here bytes)
    ((Nat.zero_add _).trans_le fits)).of_ensures
    (FileAppend.append_frame frame.wf linked here bytes)).mono fun _ appended facts => ?_)
  obtain ⟨frame', held, _, _, passes'⟩ := facts
  refine Succeeds.bind (((FileAppend.sync_succeeds (passes'.calm calm')).of_ensures
    FileAppend.sync_ensures).mono fun _ synced quiet => ?_)
  have present : synced.now.content (tmpName (snapshotFilename id)) ≠ none := by
    rw [quiet.now, held]
    exact Option.some_ne_none _
  have wf : synced.now.Wf := quiet.now ▸ frame'.wf
  have calm'' := quiet.calm (passes'.calm calm')
  refine Succeeds.bind (((Io.rename_succeeds calm'' wf _ present).of_ensures
    (Io.rename_frame wf (tmpName_ne _))).mono fun _ renamed facts => ?_)
  exact Io.syncDir_succeeds (facts.2.2.2.calm calm'')

theorem cleanSnapshots_succeeds (calm : world.Calm) (wf : world.now.Wf) (id : Nat) :
    Succeeds (Engine.cleanSnapshots id) world fun _ _ => True := by
  obtain ⟨names, listed, run, _, quiet⟩ :=
    Succeeds.of_ensures (Io.listDir_succeeds calm) Io.listDir_ensures
  refine Succeeds.bind ⟨_, listed, attempt_ok run, ?_⟩
  refine (Succeeds.forEach (fun _ after => after.Calm ∧ after.now.Wf) ?_ names listed
    ⟨quiet.calm calm, quiet.now ▸ wf⟩).mono fun _ _ _ => trivial
  rintro path rest before ⟨calm, wf⟩
  unfold Engine.removeOlder
  split
  · exact Succeeds.pure ⟨calm, wf⟩
  · split
    · exact Succeeds.pure ⟨calm, wf⟩
    · split
      · refine (Io.ignore_removeFile_frame calm wf path).mono fun _ after facts => ?_
        obtain ⟨frame, _, passes⟩ := facts
        exact ⟨passes.calm calm, frame.wf⟩
      · exact Succeeds.pure ⟨calm, wf⟩

theorem writeSnapshotAfter_succeeds [LinearOrder D] {engine : Engine} (calm : world.Calm)
    (holds : Holds env.hashes world.now engine.inner lsm log snapshots) {marker : Option Nat}
    (small : ∀ id, marker = some id → id < u64Bound)
    (fits : ∀ id, (snapshotBytes env engine.vectorIndex id).length ≤ maxFileLen) :
    Succeeds (Engine.writeSnapshotAfter env marker) (engine, world) fun _ _ => True := by
  cases marker with
  | none => exact Succeeds.pure trivial
  | some id =>
    refine Succeeds.bind_ok rfl (Succeeds.bind (Succeeds.zoom (((installSnapshot_succeeds calm holds.described
      holds.tidy id (fits id)).of_ensures (installSnapshot_ensures holds.described (holds.unsnapped id)
      (small id rfl) _)).mono fun _ installed facts => ?_)))
    obtain ⟨described, _, _, passes⟩ := facts
    exact Succeeds.zoom ((cleanSnapshots_succeeds (passes.calm calm) described.wf id).mono
      fun _ _ _ => trivial)

/-! ### Calls -/

variable [LinearOrder D]

/-- **The calls that are taken**: their record fits the log, and their vector the index. -/
structure Call.Admissible (env : Env D) (call : Call) (index : VectorIndex) : Prop where
  valid : ∀ record, call.record = some record → record.Valid
  vector : ∀ key embedding, call = .putIndexed key embedding → embedding.all F32.isFinite = true ∧
    ∃ processed, index.Admits env.ops embedding processed

/-- What the entries of an engine take in data blocks at most, read off its memtable and its files. -/
def EngineInner.room (inner : EngineInner) : Nat :=
  dataRoom inner.memtable.iter + 2 * EngineInner.inputSize (inner.levels.l1 ++ inner.levels.l0)

omit [LinearOrder D] in
theorem InMemory.room_le (memory : InMemory env.hashes inner lsm) : lsm.room ≤ inner.room := by
  have tables : (lsm.inputs.map fun table => dataRoom table.2.entries).sum ≤
      2 * EngineInner.inputSize (inner.levels.l1 ++ inner.levels.l0) := by
    refine le_of_le_of_eq (List.Forall₂.sum_le_sum ?_) (List.sum_map_mul_left _ _ _)
    rw [List.forall₂_map_left_iff, List.forall₂_map_right_iff]
    exact memory.inputs.flip.imp fun entry table read => read.2.room_le
  have memtable : lsm.memtable.entries = inner.memtable.iter := by rw [← memory.memtable]; rfl
  have order : (lsm.tables.map fun table => dataRoom table.2.entries).sum =
      (lsm.inputs.map fun table => dataRoom table.2.entries).sum := by
    rw [Lsm.tables, Lsm.inputs, List.map_append, List.map_append, List.sum_append, List.sum_append]
    exact Nat.add_comm _ _
  rw [Lsm.room_eq, EngineInner.room, memtable, order]
  exact Nat.add_le_add_left tables _

/-- **There is room** for what a call writes: for its record in the log, for its entry in the tables, and
for the snapshot behind it. -/
structure Call.Roomy (env : Env D) (call : Call) (engine : Engine) (fs : Fs) : Prop where
  log : ∀ record, call.record = some record → ((fs.content WAL_FILENAME).getD []).length +
    Record.encodedLen record.key.length record.value.length ≤ maxFileLen
  data : engine.inner.room + (call.record.elim 0 fun record => dataRoom [(record.key, record.entry)]) ≤
    roomBound
  snapshot : ∀ index, call.indexStep env engine.vectorIndex = .ok () index →
    ∀ marker, (snapshotBytes env index marker).length ≤ maxFileLen

namespace Call

variable {index : VectorIndex}

instance Roomy.decidable (env : Env D) (call : Call) (engine : Engine) (fs : Fs) :
    Decidable (call.Roomy env engine fs) :=
  decidable_of_iff ((∀ record ∈ call.record, ((fs.content WAL_FILENAME).getD []).length +
      Record.encodedLen record.key.length record.value.length ≤ maxFileLen) ∧
    engine.inner.room + (call.record.elim 0 fun record => dataRoom [(record.key, record.entry)]) ≤ roomBound ∧
    ∀ index ∈ (call.indexStep env engine.vectorIndex).left, (snapshotBytes env index 0).length ≤ maxFileLen)
    ⟨fun ⟨log, data, snapshot⟩ => ⟨log, data, fun index run marker => by
      rw [snapshotBytes_length]
      exact snapshot index (Outcome.left_eq_some.mpr ⟨(), run⟩)⟩,
    fun ⟨log, data, snapshot⟩ => ⟨log, data, fun index left => by
      obtain ⟨_, run⟩ := Outcome.left_eq_some.mp left
      exact snapshot index run 0⟩⟩

omit [LinearOrder D] in
theorem room_log_le (lsm : Lsm) (record : Option Record) : (lsm.log record).room ≤
    lsm.room + (record.elim 0 fun record => dataRoom [(record.key, record.entry)]) := by
  cases record with
  | none => exact Nat.le_refl _
  | some record => exact lsm.room_write_le record.key record.entry

theorem Roomy.log_le {call : Call} {engine : Engine} (roomy : call.Roomy env engine world.now)
    (running : Running env.hashes world.now engine.inner lsm records snapshots) :
    ∀ record, call.record = some record → (Wal.fileHeader ++ logBytes env.hashes records).length +
      Record.encodedLen record.key.length record.value.length ≤ maxFileLen := by
  intro record written
  have log := roomy.log record written
  rwa [running.holds.logged] at log

theorem Roomy.data_le {call : Call} {engine : Engine} (roomy : call.Roomy env engine world.now)
    (running : Running env.hashes world.now engine.inner lsm records snapshots) :
    (lsm.log call.record).room ≤ roomBound :=
  (room_log_le lsm call.record).trans ((Nat.add_le_add_right running.holds.room_le _).trans roomy.data)

/-- A check ends, and passes finite components only. -/
theorem check_ends (call : Call) (index : VectorIndex) :
    Ends Error.IsArgument call.check index fun _ after => after = index ∧
      ∀ key embedding, call = .putIndexed key embedding → embedding.all F32.isFinite = true := by
  have plain : (∀ key embedding, call ≠ .putIndexed key embedding) → call.check = pure () →
      Ends Error.IsArgument call.check index fun _ after => after = index ∧
        ∀ key embedding, call = .putIndexed key embedding → embedding.all F32.isFinite = true := by
    intro other same
    rw [same]
    exact Ends.pure ⟨rfl, fun key embedding same => absurd same (other key embedding)⟩
  cases call with
  | put key value => exact plain (fun _ _ => Call.noConfusion) rfl
  | delete key => exact plain (fun _ _ => Call.noConfusion) rfl
  | flush => exact plain (fun _ _ => Call.noConfusion) rfl
  | putIndexed key embedding =>
    refine Ends.bind_ok rfl ?_
    by_cases empty : embedding.isEmpty = true
    · rw [if_pos empty]
      exact ⟨_, rfl⟩
    by_cases finite : embedding.all F32.isFinite = true
    · rw [if_neg empty, if_neg (not_not_intro finite)]
      have passed : index = index ∧ ∀ key' embedding', putIndexed key embedding = putIndexed key' embedding' →
          embedding'.all F32.isFinite = true := by
        refine ⟨rfl, fun key' embedding' same => ?_⟩
        cases same
        exact finite
      split
      · exact Ends.pure passed
      · split
        · exact ⟨_, rfl⟩
        · exact Ends.pure passed
    · rw [if_neg empty, if_pos finite]
      exact ⟨_, rfl⟩

omit [LinearOrder D] in
theorem Admissible.check {call : Call} (admissible : call.Admissible env index) :
    call.check index = .ok () index := by
  cases call with
  | put key value => rfl
  | delete key => rfl
  | flush => rfl
  | putIndexed key embedding =>
    obtain ⟨finite, processed, admits⟩ := admissible.vector key embedding rfl
    have filled : ¬ embedding.isEmpty = true := fun empty =>
      admits.graph.1 (List.isEmpty_iff.mp empty)
    show Engine.checkEmbedding embedding index = _
    unfold Engine.checkEmbedding
    rw [bind_ok (get_eq index), if_neg filled, if_neg (not_not_intro finite)]
    cases expected : index.expectedDim with
    | none => rfl
    | some dim =>
      have fits := admits.expected dim expected
      show (if embedding.length ≠ dim then _ else _ : IndexM Unit) index = _
      rw [if_neg (not_not_intro fits)]
      rfl

/-- The key and the vector of a valid record. -/
theorem putIndexed_sized {key : Key} {embedding : List F32}
    (valid : ∀ record, (putIndexed key embedding).record = some record → record.Valid) :
    key ≠ [] ∧ key.length < 2 ^ 32 ∧ embedding.length < 2 ^ 32 := by
  obtain ⟨named, key_le, value_le, _⟩ := valid _ rfl
  have bound : 4 * embedding.length ≤ Wal.MAX_VALUE_LEN := encodeVector_length embedding ▸ value_le
  simp only [Wal.MAX_VALUE_LEN] at bound
  exact ⟨named, lt_of_le_of_lt key_le (by decide), by omega⟩

/-- **An index step** is that of a call that is taken, or it ends with an argument error. -/
theorem indexStep_decides {call : Call} (valid : ∀ record, call.record = some record → record.Valid)
    (finite : ∀ key embedding, call = .putIndexed key embedding → embedding.all F32.isFinite = true)
    (sound : index.Sound env.options.hnswParams) (room : index.hnsw.nodes.length < nodeIdBound) :
    (call.Admissible env index ∧ Succeeds (call.indexStep env) index fun _ _ => True) ∨
    ¬ call.Admissible env index ∧ ∃ error after, call.indexStep env index = .err error after ∧
      error.IsArgument := by
  have plain : (∀ key embedding, call ≠ .putIndexed key embedding) → call.Admissible env index :=
    fun other => ⟨valid, fun key embedding same => absurd same (other key embedding)⟩
  cases call with
  | put key value => exact Or.inl ⟨plain fun _ _ => Call.noConfusion, Succeeds.pure trivial⟩
  | flush => exact Or.inl ⟨plain fun _ _ => Call.noConfusion, Succeeds.pure trivial⟩
  | delete key =>
    exact Or.inl ⟨plain fun _ _ => Call.noConfusion,
      (dropKey_sound env.ops sound room.le key).mono fun _ _ _ => trivial⟩
  | putIndexed key embedding =>
    obtain ⟨named, short, sized⟩ := putIndexed_sized valid
    rcases replaceKey_outcome env.ops sound room named short sized
        (Engine.dimensionError embedding.length) with
      ⟨processed, after, admits, run, _⟩ | ⟨error, after, refused, run, _⟩
    · refine Or.inl ⟨⟨valid, fun key' embedding' same => ?_⟩, (), after, run, trivial⟩
      cases same
      exact ⟨finite _ _ rfl, processed, admits⟩
    · refine Or.inr ⟨fun admissible => ?_, error, after, run,
        indexStep_fails (putIndexed key embedding) index error after run⟩
      obtain ⟨_, processed, admits⟩ := admissible.vector key embedding rfl
      exact refused processed admits

/-- **How a call ends** on a running engine with room for it: one that is taken returns, and any other one
ends with an argument error. -/
theorem ends {engine : Engine} (call : Call) (calm : world.Calm)
    (running : Running env.hashes world.now engine.inner lsm records snapshots)
    (sound : engine.vectorIndex.Sound env.options.hnswParams)
    (room : engine.vectorIndex.hnsw.nodes.length < nodeIdBound) (small : lsm.nextId + 2 < u64Bound)
    (roomy : call.Roomy env engine world.now) :
    Ends (fun error => ¬ call.Admissible env engine.vectorIndex ∧ error.IsArgument) (call.run env)
      (engine, world) fun _ _ => call.Admissible env engine.vectorIndex := by
  have data := roomy.data_le running
  have fits := roomy.log_le running
  rw [run_eq]
  refine Ends.bind (Ends.zoom ?_)
  by_cases admissible : call.Admissible env engine.vectorIndex
  · refine Succeeds.ends ⟨(), _, admissible.check, ?_⟩
    refine Ends.bind (Ends.zoom (Succeeds.ends (((lsmStep_succeeds call calm running small admissible.valid
      fits data).of_ensures (call.lsmStep_running calm running)).mono fun marker logged facts => ?_)))
    obtain ⟨_, ⟨lsm', records', _, running', rfl⟩, passes⟩ := facts
    obtain ⟨inner', world'⟩ := logged
    rcases indexStep_decides admissible.valid (fun key embedding same =>
      (admissible.vector key embedding same).1) sound room with ⟨_, _, index', run, _⟩ | ⟨refused, _⟩
    · refine Ends.bind (Ends.zoom (Succeeds.ends ⟨(), index', run, ?_⟩))
      refine ((?_ : Succeeds _ _ fun _ _ => True).mono fun _ _ _ => admissible).ends
      exact writeSnapshotAfter_succeeds (passes.calm calm) running'.holds
        (Lsm.marker_small running'.holds.small) (roomy.snapshot index' run)
    · exact absurd admissible refused
  · have refuse : ∀ {α : Type} {program : EngineM α} {state : Engine × World Fs}
        {post : α → Engine × World Fs → Prop},
        Ends Error.IsArgument program state (fun _ _ => False) →
        Ends (fun error => ¬ call.Admissible env engine.vectorIndex ∧ error.IsArgument) program state post :=
      fun ends => (ends.weaken fun _ argument => ⟨admissible, argument⟩).mono fun _ _ => False.elim
    refine ((call.check_ends engine.vectorIndex).weaken fun _ argument => ⟨admissible, argument⟩).mono
      fun _ index facts => ?_
    obtain ⟨rfl, finite⟩ := facts
    refine refuse ?_
    by_cases valid : ∀ record, call.record = some record → record.Valid
    · refine Ends.bind (Ends.zoom (Succeeds.ends ((lsmStep_succeeds call calm running small valid
        fits data).mono fun marker logged _ => ?_)))
      rcases indexStep_decides valid finite sound room with ⟨taken, _⟩ | ⟨_, error, index', run, argument⟩
      · exact absurd taken admissible
      · refine Ends.bind (Ends.zoom ?_)
        show Ends _ (call.indexStep env) engine.vectorIndex _
        unfold Ends
        rw [run]
        exact argument
    · obtain ⟨record, written, invalid⟩ : ∃ record, call.record = some record ∧ ¬ record.Valid := by
        simpa using valid
      obtain ⟨error, refused, argument⟩ : ∃ error,
          call.lsmStep env (engine.inner, world) = .err error (engine.inner, world) ∧ error.IsArgument :=
        lsmStep_refused running.holds.running written invalid
      refine Ends.bind (Ends.zoom ?_)
      show Ends _ (call.lsmStep env) (engine.inner, world) _
      rw [Ends, refused]
      exact argument

end Call

variable {events : List Event} {engine : Engine}

omit [LinearOrder D] in
theorem close_succeeds (calm : world.Calm) (running : engine.inner.closed = false) :
    Succeeds (Engine.onInner Engine.close) (engine, world) fun _ _ => True := by
  refine Succeeds.zoom ?_
  refine Succeeds.bind ⟨engine.inner, (engine.inner, world), rfl, ?_⟩
  show Succeeds (if engine.inner.closed = true then _ else _) (engine.inner, world) _
  rw [running, if_neg Bool.false_ne_true]
  refine Succeeds.bind (Succeeds.zoom ((FileAppend.sync_succeeds calm).mono fun _ synced _ => ?_))
  exact ⟨(), _, rfl, trivial⟩

/-- **Reopening** succeeds in every state of a run. -/
theorem Runs.reopens (storable : env.options.hnswParams.Storable) (runs : Runs env events (engine, world))
    (few : Throughout env events Engine.Few) :
    Succeeds (Engine.reopen env) (engine, world) fun _ _ => True := by
  have any : False → SparesVectors events := False.elim
  obtain ⟨lsm, records, snapshots, refines, indexed⟩ := runs.indexed storable few any
  have running := refines.running
  refine Succeeds.bind (((close_succeeds refines.calm running.holds.running).of_ensures
    (close_ensures world running.holds.running)).mono fun _ closed quiet => ?_)
  obtain ⟨engine', world'⟩ := closed
  have described : Describes env.hashes world'.now (lsm.stored (logBytes env.hashes records) snapshots) :=
    quiet.now ▸ running.described
  have log : LogHolds env.hashes (lsm.stored (logBytes env.hashes records) snapshots).log records
      (logBytes env.hashes records) := LogHolds.whole running.valid
  obtain ⟨dim, rebuildable⟩ := indexed.vectors
  have vectors : ∀ next, ((lsm.stored (logBytes env.hashes records) snapshots).recovered records
      next).Rebuildable env dim := by
    intro next
    rw [running.recovered]
    exact ⟨rebuildable.positive, rebuildable.preset, rebuildable.takes⟩
  have opening := open_succeeds (quiet.calm refines.calm) storable described log vectors fun next => by
    rw [running.recovered]
    exact indexed.roomy _ next
  refine Succeeds.bind (Succeeds.zoom (opening.mono fun opened after _ => ?_))
  exact ⟨(), _, rfl, trivial⟩

end Sastran

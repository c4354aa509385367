/-
The table writer: `create`, `add` in ascending key order, `finish`.

`Writing` is the invariant between calls: the blocks already in the file, the entries of the block
being filled, and what index and filter hold for them. The result is `finish_ensures`: a finished
file stores the map of the entries added (`IsTable`). On a faultless device nothing but the size limit
of a file stops the writer, and that only where the entries have no room in one (`writeTable_ends`).
-/

import Sastran.SsTable.Format

namespace Sastran

open Device LittleEndian

open SsTable

structure SsTableWriter where
  file : FileAppend
  currentBlock : Bytes
  currentBlockFirstKey : Option Key
  indexEntries : List IndexEntry
  nextBlockOffset : Nat
  lastKey : Option Key
  bloom : Option BloomFilter

namespace SsTableWriter

variable (hashes : Hashes)

def create (name : FileName) (expectedKeys bitsPerKey : Nat) : IoM SsTableWriter := do
  let file ← Io.openAppend name
  let isEmpty ← file.isEmpty
  if ¬ isEmpty then
    Prog.throw (.invalidArgument
      s!"SSTable file already exists and is non-empty: {String.ofList name}")
  else
    let bloom := if bitsPerKey > 0 then some (BloomFilter.new expectedKeys bitsPerKey) else none
    pure ⟨file, [], none, [], 0, none, bloom⟩

def flushCurrentBlock (writer : SsTableWriter) : IoM SsTableWriter := do
  let block := checked hashes writer.currentBlock
  let blockLength := block.length % 2 ^ 32
  writer.file.append block
  -- A block that is flushed has a first key; without one the source panics.
  let firstKey ← Prog.ofOption writer.currentBlockFirstKey
  pure { writer with
    currentBlock := []
    currentBlockFirstKey := none
    indexEntries := writer.indexEntries ++ [⟨firstKey, writer.nextBlockOffset, blockLength⟩]
    nextBlockOffset := writer.nextBlockOffset + blockLength }

/-- The key comes behind the last one added. -/
def follows (lastKey : Option Key) (key : Key) : Bool :=
  match lastKey with
  | some previous => decide (previous < key)
  | none => true

/-- Append one entry to the block being filled, and its key to the filter. -/
def push (writer : SsTableWriter) (key : Key) (entry : Entry) : IoM SsTableWriter := do
  let bloom ← match writer.bloom with
    | some filter => Prog.ofOption ((filter.insert hashes key).map some)
    | none => pure none
  pure { writer with
    currentBlockFirstKey := some (writer.currentBlockFirstKey.getD key)
    currentBlock := writer.currentBlock ++ encodeEntry key entry
    lastKey := some key
    bloom := bloom }

def add (writer : SsTableWriter) (key : Key) (entry : Entry) : IoM SsTableWriter :=
  if key.isEmpty then Prog.throw (.invalidArgument "empty key")
  else if ¬ follows writer.lastKey key then
    Prog.throw (.invalidArgument (s!"keys must be strictly increasing; got {key} " ++
      s!"after {writer.lastKey.getD []}"))
  else if ¬ writer.currentBlock.isEmpty ∧
      writer.currentBlock.length + encodedEntrySize key entry > DATA_BLOCK_TARGET_SIZE then do
    let writer ← writer.flushCurrentBlock hashes
    writer.push hashes key entry
  else writer.push hashes key entry

/-- Flush the block being filled, if it holds anything. -/
def flushRest (writer : SsTableWriter) : IoM SsTableWriter :=
  if ¬ writer.currentBlock.isEmpty then writer.flushCurrentBlock hashes else pure writer

/-- Append the filter, if enabled. -/
def appendBloom (writer : SsTableWriter) : IoM Unit :=
  match writer.bloom with
  | some filter => writer.file.append (filter.encode hashes)
  | none => pure ()

def finish (writer : SsTableWriter) : IoM Unit := do
  let writer ← writer.flushRest hashes
  let bounds := bloomBounds hashes writer.bloom writer.nextBlockOffset
  writer.appendBloom hashes
  let indexOffset := writer.nextBlockOffset + bounds.2
  let index := indexBytes hashes writer.indexEntries
  writer.file.append index
  writer.file.append (footer indexOffset index.length bounds.1 bounds.2)
  writer.file.sync

/-! ### The invariant between calls -/

variable {hashes}

/-- What the writer holds after the entries of `blocks` and `current` were added, in the file system
`fs` where its file is `name`. -/
structure Writing (hashes : Hashes) (writer : SsTableWriter) (name : FileName) (blocks : List Block)
    (current : Block) (fs : Fs) : Prop where
  wf : fs.Wf
  linked : fs.dir.find? name = some writer.file.ino
  content : fs.content name = some (dataBytes hashes blocks)
  block : writer.currentBlock = blockBody current
  first : writer.currentBlockFirstKey = current.head?.map Prod.fst
  index : writer.indexEntries = indexOf hashes blocks 0
  offset : writer.nextBlockOffset = (dataBytes hashes blocks).length
  last : writer.lastKey = (blocks.flatten ++ current).getLast?.map Prod.fst
  reports : Reports hashes writer.bloom (blocks.flatten ++ current)
  filled : ∀ block ∈ blocks, block ≠ []
  short : ∀ block ∈ blocks, (blockBytes hashes block).length < 2 ^ 32
  ascending : (blocks.flatten ++ current).Pairwise fun one two => one.1 < two.1
  small : (blockBody current).length ≤ DATA_BLOCK_TARGET_SIZE ∨ current.length = 1
  valid : ∀ entry ∈ blocks.flatten ++ current, ValidEntry entry.1 entry.2

/-- Ascending entries stay ascending behind their last key. -/
theorem ascending_append_one {entries : List (Key × Entry)} {key : Key} (entry : Entry)
    (ascending : entries.Pairwise fun one two => one.1 < two.1)
    (follow : follows (entries.getLast?.map Prod.fst) key = true) :
    (entries ++ [(key, entry)]).Pairwise fun one two => one.1 < two.1 := by
  rw [List.pairwise_append]
  refine ⟨ascending, List.pairwise_singleton _ _, ?_⟩
  intro held member new isNew
  rw [List.mem_singleton.mp isNew]
  obtain ⟨front, last, rfl⟩ : ∃ front last, entries = front ++ [last] := by
    refine ⟨entries.dropLast, entries.getLast (List.ne_nil_of_mem member), ?_⟩
    exact (List.dropLast_append_getLast _).symm
  rw [List.getLast?_append_of_ne_nil _ (List.cons_ne_nil _ _)] at follow
  have behind : last.1 < key := by simpa [follows] using follow
  rcases List.mem_append.mp member with early | late
  · rw [List.pairwise_append] at ascending
    exact (ascending.2.2 held early last (List.mem_singleton_self _)).trans behind
  · rw [List.mem_singleton.mp late]
    exact behind

/-- One valid entry fits a block's 32-bit length. -/
theorem encodedEntrySize_lt {key : Key} {entry : Entry} (valid : ValidEntry key entry) :
    encodedEntrySize key entry + 4 < 2 ^ 32 := by
  have keyShort := valid.key_le
  have payloadShort := valid.payload_le
  simp only [Wal.MAX_KEY_LEN, Wal.MAX_VALUE_LEN] at keyShort payloadShort
  rw [encodedEntrySize]
  omega

section Invariant

variable {writer : SsTableWriter} {name : FileName} {blocks : List Block} {current : Block}
  {world : World Fs}

theorem Writing.block_lt (writing : Writing hashes writer name blocks current world.now) :
    (blockBytes hashes current).length < 2 ^ 32 := by
  rw [blockBytes, checked_length]
  rcases writing.small with small | single
  · have target : DATA_BLOCK_TARGET_SIZE = 4096 := rfl
    omega
  · obtain ⟨⟨key, entry⟩, rfl⟩ := List.length_eq_one_iff.mp single
    have fits := encodedEntrySize_lt (writing.valid (key, entry) (by simp))
    rw [blockBody_cons, blockBody_nil, List.append_nil, encodeEntry_length]
    exact fits

/-- **A created writer** holds nothing; its file is empty. -/
theorem create_ensures (hashes : Hashes) (wf : world.now.Wf) (expectedKeys bitsPerKey : Nat) :
    Ensures (create name expectedKeys bitsPerKey) world fun writer after =>
      Writing hashes writer name [] [] after.now ∧ Fs.Frame (· = name) world.now after.now ∧
      Passes (Fs.Frame (· = name) world.now) world after ∧ (world.now.content name).getD [] = [] := by
  refine Ensures.bind ((Io.openAppend_frame wf name).mono fun file opened holds => ?_)
  obtain ⟨frame, here, linked, passes⟩ := holds
  refine Ensures.bind (FileAppend.isEmpty_ensures.mono fun isEmpty asked holds => ?_)
  obtain ⟨rfl, quiet⟩ := holds
  refine Ensures.ite (fun _ => Ensures.throw) fun empty => Ensures.pure ?_
  have content : (world.now.content name).getD [] = [] := by
    obtain ⟨ino, found, held⟩ := Fs.content_eq_some.mp here
    rw [linked] at found
    cases found
    simpa [List.getD_eq_getElem?_getD, held] using empty
  have stays : Fs.Frame (· = name) world.now asked.now := quiet.now ▸ frame
  refine ⟨⟨stays.wf, quiet.now ▸ linked, ?_, rfl, rfl, rfl, rfl, rfl, ?_, nofun, nofun,
    List.Pairwise.nil, Or.inl (Nat.zero_le _), nofun⟩, stays, ?_, content⟩
  · rw [quiet.now, here, content]
    rfl
  · intro filter held
    simp only at held
    split at held
    · cases held
      exact ⟨BloomFilter.new_wf _ _, nofun⟩
    · cases held
  · exact (passes.mono fun _ same => same ▸ frame).trans (Passes.of_quiet quiet frame)

/-- **A flushed block** is the file's last one. -/
theorem flushCurrentBlock_ensures (writing : Writing hashes writer name blocks current world.now)
    (filled : current ≠ []) :
    Ensures (writer.flushCurrentBlock hashes) world fun writer' after =>
      Writing hashes writer' name (blocks ++ [current]) [] after.now ∧
      writer'.lastKey = writer.lastKey ∧ Fs.Frame (· = name) world.now after.now ∧
      Passes (Fs.Frame (· = name) world.now) world after := by
  have length : (checked hashes writer.currentBlock).length % 2 ^ 32 =
      (blockBytes hashes current).length := by
    rw [writing.block, ← blockBytes, Nat.mod_eq_of_lt writing.block_lt]
  refine Ensures.bind ((FileAppend.append_frame writing.wf writing.linked writing.content _).mono
    fun _ after holds => ?_)
  obtain ⟨frame, content, linked, _, passes⟩ := holds
  obtain ⟨⟨key, entry⟩, rest, rfl⟩ : ∃ head rest, current = head :: rest :=
    List.exists_cons_of_ne_nil filled
  rw [writing.first]
  refine Ensures.bind (Ensures.pure (Ensures.pure ?_))
  rw [length]
  have flat : (blocks ++ [(key, entry) :: rest]).flatten ++ [] =
      blocks.flatten ++ ((key, entry) :: rest) := by simp
  refine ⟨⟨frame.wf, linked, ?_, rfl, rfl, ?_, ?_, ?_, ?_, ?_, ?_, ?_, Or.inl (Nat.zero_le _), ?_⟩,
    rfl, frame, passes.mono fun _ same => same ▸ frame⟩
  · rw [content, writing.block, dataBytes_append, dataBytes_singleton]
    rfl
  · rw [writing.index, indexOf_append_one, writing.offset, Nat.zero_add]
    rfl
  · rw [writing.offset, dataBytes_append, dataBytes_singleton, List.length_append]
  · rw [flat]
    exact writing.last
  · rw [flat]
    exact writing.reports
  · intro block member
    rcases List.mem_append.mp member with member | member
    · exact writing.filled block member
    · rw [List.mem_singleton.mp member]
      exact List.cons_ne_nil _ _
  · intro block member
    rcases List.mem_append.mp member with member | member
    · exact writing.short block member
    · rw [List.mem_singleton.mp member]
      exact writing.block_lt
  · rw [flat]
    exact writing.ascending
  · rw [flat]
    exact writing.valid

/-- **A pushed entry** is the last one of the block being filled. -/
theorem push_ensures (writing : Writing hashes writer name blocks current world.now) {key : Key}
    {entry : Entry} (follow : follows writer.lastKey key = true) (valid : ValidEntry key entry)
    (small : current = [] ∨
      (blockBody current).length + encodedEntrySize key entry ≤ DATA_BLOCK_TARGET_SIZE) :
    Ensures (writer.push hashes key entry) world fun writer' after =>
      Writing hashes writer' name blocks (current ++ [(key, entry)]) after.now ∧ after = world := by
  have flat : blocks.flatten ++ (current ++ [(key, entry)]) =
      (blocks.flatten ++ current) ++ [(key, entry)] := (List.append_assoc _ _ _).symm
  have ascending := ascending_append_one entry writing.ascending (writing.last ▸ follow)
  -- Everything but the filter is the same whether there is one or not.
  have rest : ∀ bloom, Reports hashes bloom (blocks.flatten ++ current ++ [(key, entry)]) →
      Writing hashes { writer with
        currentBlockFirstKey := some (writer.currentBlockFirstKey.getD key)
        currentBlock := writer.currentBlock ++ encodeEntry key entry
        lastKey := some key
        bloom := bloom } name blocks (current ++ [(key, entry)]) world.now := by
    intro bloom reports
    refine ⟨writing.wf, writing.linked, writing.content, ?_, ?_, writing.index, writing.offset, ?_,
      flat ▸ reports, writing.filled, writing.short, flat ▸ ascending, ?_, ?_⟩
    · show writer.currentBlock ++ encodeEntry key entry = _
      rw [writing.block, blockBody_append, blockBody_cons, blockBody_nil, List.append_nil]
    · show some (writer.currentBlockFirstKey.getD key) = _
      rw [writing.first]
      cases current <;> rfl
    · show some key = _
      rw [flat, List.getLast?_concat]
      rfl
    · rcases small with rfl | small
      · exact Or.inr rfl
      · refine Or.inl ?_
        rw [blockBody_append, blockBody_cons, blockBody_nil, List.append_nil, List.length_append,
          encodeEntry_length]
        exact small
    · intro held member
      rw [flat] at member
      rcases List.mem_append.mp member with member | member
      · exact writing.valid held member
      · rw [List.mem_singleton.mp member]
        exact valid
  unfold push
  cases bloom : writer.bloom with
  | none =>
    refine Ensures.bind (Ensures.pure (Ensures.pure ⟨rest none nofun, rfl⟩))
  | some filter =>
    obtain ⟨filterWf, reported⟩ := writing.reports filter bloom
    obtain ⟨filter', inserted⟩ := BloomFilter.insert_succeeds hashes filterWf key
    simp only [inserted, Option.map_some]
    refine Ensures.bind (Ensures.pure (Ensures.pure ⟨rest (some filter') ?_, rfl⟩))
    intro held same
    cases same
    refine ⟨BloomFilter.insert_wf filterWf inserted, ?_⟩
    intro held member
    rcases List.mem_append.mp member with member | member
    · exact BloomFilter.contains_insert inserted (reported held member)
    · rw [List.mem_singleton.mp member]
      exact BloomFilter.contains_insert_self filterWf inserted

/-- **An added entry** comes behind those added before. -/
theorem add_ensures (writing : Writing hashes writer name blocks current world.now) {key : Key}
    {entry : Entry} (valid : ValidEntry key entry) :
    Ensures (writer.add hashes key entry) world fun writer' after =>
      ∃ blocks' current', Writing hashes writer' name blocks' current' after.now ∧
        blocks'.flatten ++ current' = (blocks.flatten ++ current) ++ [(key, entry)] ∧
        Fs.Frame (· = name) world.now after.now ∧
        Passes (Fs.Frame (· = name) world.now) world after := by
  refine Ensures.ite (fun _ => Ensures.throw) fun _ => ?_
  refine Ensures.ite (fun _ => Ensures.throw) fun follow => ?_
  have follow : follows writer.lastKey key = true := by simpa using follow
  refine Ensures.ite (fun full => ?_) fun room => ?_
  · have filled : current ≠ [] := by
      rintro rfl
      rw [writing.block] at full
      exact full.1 rfl
    refine Ensures.bind ((flushCurrentBlock_ensures writing filled).mono fun writer' middle holds => ?_)
    obtain ⟨writing', last, frame, passes⟩ := holds
    refine (push_ensures writing' (last ▸ follow) valid (Or.inl rfl)).mono
      fun writer'' after holds => ?_
    obtain ⟨writing'', rfl⟩ := holds
    exact ⟨_, _, writing'', by simp, frame, passes⟩
  · have small : current = [] ∨
        (blockBody current).length + encodedEntrySize key entry ≤ DATA_BLOCK_TARGET_SIZE := by
      rw [writing.block] at room
      by_cases empty : current = []
      · exact Or.inl empty
      · refine Or.inr ?_
        by_contra large
        refine room ⟨?_, by omega⟩
        simpa [blockBody_eq_nil] using empty
    refine (push_ensures writing follow valid small).mono fun writer' after holds => ?_
    obtain ⟨writing', rfl⟩ := holds
    exact ⟨_, _, writing', (List.append_assoc _ _ _).symm, Fs.Frame.refl writing.wf,
      Passes.refl _ _⟩

theorem flushRest_ensures (writing : Writing hashes writer name blocks current world.now) :
    Ensures (writer.flushRest hashes) world fun writer' after => ∃ blocks',
      Writing hashes writer' name blocks' [] after.now ∧
      blocks'.flatten = blocks.flatten ++ current ∧ Fs.Frame (· = name) world.now after.now ∧
      Passes (Fs.Frame (· = name) world.now) world after := by
  refine Ensures.ite (fun held => ?_) fun flushed => Ensures.pure ?_
  · have filled : current ≠ [] := by
      rintro rfl
      rw [writing.block] at held
      exact held rfl
    refine (flushCurrentBlock_ensures writing filled).mono fun writer' after holds => ?_
    obtain ⟨writing', _, frame, passes⟩ := holds
    exact ⟨_, writing', by simp, frame, passes⟩
  · have empty : current = [] := by
      rw [writing.block] at flushed
      simpa [blockBody_eq_nil] using flushed
    subst empty
    exact ⟨blocks, writing, by simp, Fs.Frame.refl writing.wf, Passes.refl _ _⟩

theorem appendBloom_ensures (writing : Writing hashes writer name blocks current world.now) :
    Ensures (writer.appendBloom hashes) world fun _ after =>
      after.now.content name =
        some (dataBytes hashes blocks ++ bloomBytes hashes writer.bloom) ∧
      after.now.dir.find? name = some writer.file.ino ∧ Fs.Frame (· = name) world.now after.now ∧
      Passes (Fs.Frame (· = name) world.now) world after := by
  unfold appendBloom
  cases writer.bloom with
  | none =>
    refine Ensures.pure ⟨?_, writing.linked, Fs.Frame.refl writing.wf, Passes.refl _ _⟩
    rw [writing.content, bloomBytes, List.append_nil]
  | some filter =>
    refine (FileAppend.append_frame writing.wf writing.linked writing.content _).mono
      fun _ after holds => ?_
    obtain ⟨frame, content, linked, _, passes⟩ := holds
    exact ⟨content, linked, frame, passes.mono fun _ same => same ▸ frame⟩

/-- **A finished file stores the map of the entries added.** -/
theorem finish_ensures (writing : Writing hashes writer name blocks current world.now)
    {map : SortedMap Key Entry} (entries : blocks.flatten ++ current = map.entries) :
    Ensures (writer.finish hashes) world fun _ after =>
      (∃ bytes, after.now.content name = some bytes ∧ IsTable hashes bytes map) ∧
      Fs.Frame (· = name) world.now after.now ∧
      Passes (Fs.Frame (· = name) world.now) world after := by
  refine Ensures.bind ((flushRest_ensures writing).mono fun writer' flushed holds => ?_)
  obtain ⟨blocks', writing', flat, toFlushed, passes⟩ := holds
  rw [entries] at flat
  have reports := writing'.reports
  have valid := writing'.valid
  rw [List.append_nil, flat] at reports valid
  refine Ensures.bind ((appendBloom_ensures writing').mono fun _ filtered holds => ?_)
  obtain ⟨content, linked, frame, toBloom⟩ := holds
  have toFiltered := toFlushed.trans frame
  refine Ensures.bind ((FileAppend.append_frame frame.wf linked content _).mono
    fun _ indexed holds => ?_)
  obtain ⟨frame', content', linked', _, toIndex⟩ := holds
  have toIndexed := toFiltered.trans frame'
  refine Ensures.bind ((FileAppend.append_frame frame'.wf linked' content' _).mono
    fun _ footed holds => ?_)
  obtain ⟨frame'', content'', _, fits, toFooter⟩ := holds
  have toFooted := toIndexed.trans frame''
  refine FileAppend.sync_ensures.mono fun _ after quiet => ?_
  have filterLength : (bloomBounds hashes writer'.bloom (dataBytes hashes blocks').length).2 =
      (bloomBytes hashes writer'.bloom).length := by
    cases writer'.bloom <;> rfl
  have whole : after.now.content name = some (tableBytes hashes blocks' writer'.bloom) := by
    rw [quiet.now, content'', writing'.index, writing'.offset, filterLength]
    simp only [tableBytes, List.append_assoc, filterLength]
  refine ⟨⟨_, whole, ⟨?_, ?_, blocks', writer'.bloom, flat, writing'.filled, writing'.short,
    reports, rfl⟩⟩, quiet.now ▸ toFooted, ?_⟩
  · intro key entry found
    exact valid (key, entry) ((map.mem_entries_iff key entry).mpr found)
  · rw [quiet.now, content''] at whole
    rw [← Option.some.inj whole, List.length_append]
    exact fits
  · have early := passes.trans (toBloom.mono fun _ crash => toFlushed.trans crash)
    have late := (toIndex.mono fun _ same => same ▸ toIndexed).trans
      (toFooter.mono fun _ same => same ▸ toFooted)
    exact (early.trans late).trans (Passes.of_quiet quiet toFooted)

/-! ### That writing ends

On a faultless device only the size limit of a file stops the writer. -/

theorem create_succeeds (calm : world.Calm) (wf : world.now.Wf)
    (unwritten : (world.now.content name).getD [] = []) (expectedKeys bitsPerKey : Nat) :
    Succeeds (create name expectedKeys bitsPerKey) world fun writer _ =>
      writer.bloom = if bitsPerKey > 0 then some (BloomFilter.new expectedKeys bitsPerKey) else none := by
  refine Succeeds.bind ((Succeeds.of_ensures (Io.openAppend_succeeds calm name)
    (Io.openAppend_frame wf name)).mono fun file opened holds => ?_)
  obtain ⟨_, here, linked, passes⟩ := holds
  refine Succeeds.bind ((Succeeds.of_ensures (FileAppend.isEmpty_succeeds (passes.calm calm))
    FileAppend.isEmpty_ensures).mono fun isEmpty asked holds => ?_)
  obtain ⟨rfl, _⟩ := holds
  have empty : opened.now.inodes.getD file.ino [] = [] := by
    obtain ⟨ino, found, held⟩ := Fs.content_eq_some.mp here
    rw [linked] at found
    cases found
    rw [unwritten] at held
    simp [List.getD_eq_getElem?_getD, held]
  rw [empty]
  exact Succeeds.pure rfl

theorem flushCurrentBlock_ends (calm : world.Calm)
    (writing : Writing hashes writer name blocks current world.now) (filled : current ≠ []) :
    Ends (TooLarge (dataRoom (blocks.flatten ++ current))) (writer.flushCurrentBlock hashes) world
      fun writer' _ => writer'.bloom = writer.bloom := by
  have room : (dataBytes hashes blocks).length + (checked hashes writer.currentBlock).length ≤
      dataRoom (blocks.flatten ++ current) := by
    have before := dataBytes_le hashes writing.filled
    have block := blockBytes_le hashes filled
    rw [dataRoom_append, writing.block, ← blockBytes]
    omega
  refine Ends.bind (((FileAppend.append_ends_linked calm writing.linked writing.content _).weaken
    (TooLarge.mono room)).mono fun _ after _ => ?_)
  obtain ⟨head, rest, rfl⟩ : ∃ head rest, current = head :: rest := List.exists_cons_of_ne_nil filled
  rw [writing.first]
  exact Ends.bind (Ends.pure (Ends.pure rfl))

theorem push_succeeds (writing : Writing hashes writer name blocks current world.now) (key : Key)
    (entry : Entry) : Succeeds (writer.push hashes key entry) world fun writer' _ =>
      filterRoom writer'.bloom = filterRoom writer.bloom := by
  unfold push
  cases bloom : writer.bloom with
  | none => exact Succeeds.bind (Succeeds.pure (Succeeds.pure rfl))
  | some filter =>
    obtain ⟨filterWf, _⟩ := writing.reports filter bloom
    obtain ⟨filter', inserted⟩ := BloomFilter.insert_succeeds hashes filterWf key
    simp only [inserted, Option.map_some]
    refine Succeeds.bind (Succeeds.pure (Succeeds.pure ?_))
    show filterRoom (some filter') = filterRoom (some filter)
    rw [filterRoom, filterRoom, BloomFilter.insert_m inserted]

theorem add_ends (calm : world.Calm)
    (writing : Writing hashes writer name blocks current world.now) {key : Key} {entry : Entry}
    (valid : ValidEntry key entry) (behind : ∀ held ∈ blocks.flatten ++ current, held.1 < key) :
    Ends (TooLarge (dataRoom (blocks.flatten ++ current))) (writer.add hashes key entry) world
      fun writer' _ => filterRoom writer'.bloom = filterRoom writer.bloom := by
  have nonempty : ¬ key.isEmpty = true := by
    rw [List.isEmpty_iff]
    exact valid.key_ne_nil
  have follow : follows writer.lastKey key = true := by
    rw [writing.last]
    cases last : (blocks.flatten ++ current).getLast? with
    | none => rfl
    | some held => exact decide_eq_true (behind held (List.mem_of_getLast? last))
  unfold add
  rw [if_neg nonempty, if_neg (not_not_intro follow)]
  split
  · rename_i full
    have filled : current ≠ [] := by
      rintro rfl
      rw [writing.block] at full
      exact full.1 rfl
    refine Ends.bind (((flushCurrentBlock_ends calm writing filled).and_ensures
      (flushCurrentBlock_ensures writing filled)).mono fun writer' middle holds => ?_)
    obtain ⟨bloom, writing', _⟩ := holds
    exact bloom ▸ (push_succeeds writing' key entry).ends
  · exact (push_succeeds writing key entry).ends

theorem flushRest_ends (calm : world.Calm)
    (writing : Writing hashes writer name blocks current world.now) :
    Ends (TooLarge (dataRoom (blocks.flatten ++ current))) (writer.flushRest hashes) world fun writer' _ =>
      writer'.bloom = writer.bloom := by
  unfold flushRest
  split
  · rename_i held
    have filled : current ≠ [] := by
      rintro rfl
      rw [writing.block] at held
      exact held rfl
    exact flushCurrentBlock_ends calm writing filled
  · exact Ends.pure rfl

theorem finish_ends (calm : world.Calm)
    (writing : Writing hashes writer name blocks current world.now) :
    Ends (TooLarge (tableRoom writer.bloom (blocks.flatten ++ current))) (writer.finish hashes) world
      fun _ _ => True := by
  have data : dataRoom (blocks.flatten ++ current) ≤ tableRoom writer.bloom (blocks.flatten ++ current) := by
    rw [tableRoom]
    omega
  refine Ends.bind ((((flushRest_ends calm writing).weaken (TooLarge.mono data)).and_ensures
    (flushRest_ensures writing)).mono fun writer' flushed holds => ?_)
  obtain ⟨bloom, blocks', writing', flat, _, passes⟩ := holds
  have calm' := passes.calm calm
  have before := dataBytes_le hashes writing'.filled
  have keys := indexEntries_le hashes writing'.filled 0
  have filterLength : (bloomBytes hashes writer'.bloom).length = filterRoom writer'.bloom :=
    bloomBytes_length fun filter held => (writing'.reports filter held).1
  rw [flat] at before keys
  rw [← bloom, tableRoom]
  have filter : Ends (TooLarge (dataRoom (blocks.flatten ++ current) + filterRoom writer'.bloom +
      (indexRoom (blocks.flatten ++ current) + 4) + FOOTER_LEN)) (writer'.appendBloom hashes) flushed
      fun _ _ => True := by
    unfold appendBloom
    cases held : writer'.bloom with
    | none => exact Ends.pure trivial
    | some filter =>
      refine (FileAppend.append_ends_linked calm' writing'.linked writing'.content _).weaken
        (TooLarge.mono ?_)
      rw [held] at filterLength
      rw [← filterLength, bloomBytes]
      omega
  refine Ends.bind ((filter.of_ensures (appendBloom_ensures writing')).mono fun _ filtered holds => ?_)
  obtain ⟨content, linked, frame, toBloom⟩ := holds
  have calm'' := toBloom.calm calm'
  have index : (indexBytes hashes writer'.indexEntries).length ≤
      indexRoom (blocks.flatten ++ current) + 4 := by
    rw [indexBytes, checked_length, writing'.index]
    omega
  refine Ends.bind ((((FileAppend.append_ends_linked calm'' linked content _).weaken
    (TooLarge.mono ?_)).of_ensures (FileAppend.append_frame frame.wf linked content _)).mono
      fun _ indexed holds => ?_)
  · rw [List.length_append, filterLength]
    omega
  obtain ⟨frame', content', linked', _, toIndex⟩ := holds
  have calm₃ := toIndex.calm calm''
  refine Ends.bind ((((FileAppend.append_ends_linked calm₃ linked' content' _).weaken
    (TooLarge.mono ?_)).of_ensures (FileAppend.append_ensures _)).mono fun _ footed holds => ?_)
  · rw [List.length_append, List.length_append, filterLength, footer_length]
    omega
  exact (FileAppend.sync_succeeds (holds.2.2.calm calm₃)).ends

end Invariant

end SsTableWriter

/-! ### A whole table -/

/-- Create a table, add the entries in order, and finish it. -/
def writeTable (hashes : Hashes) (name : FileName) (expectedKeys bitsPerKey : Nat)
    (entries : List (Key × Entry)) : IoM Unit := do
  let writer ← SsTableWriter.create name expectedKeys bitsPerKey
  let writer ← Prog.foldM
    (fun (writer : SsTableWriter) entry => writer.add hashes entry.1 entry.2) writer entries
  writer.finish hashes

section Whole

variable {hashes : Hashes} {world : World Fs} {name : FileName} {map : SortedMap Key Entry}

/-- The next of the entries that are left is valid, and behind those before it. -/
theorem left_entry (valid : ValidMap map) {written rest : List (Key × Entry)} {key : Key} {entry : Entry}
    (left : written ++ (key, entry) :: rest = map.entries) :
    ValidEntry key entry ∧ ∀ held ∈ written, held.1 < key := by
  have member : (key, entry) ∈ map.entries := by
    rw [← left]
    exact List.mem_append_right _ List.mem_cons_self
  refine ⟨valid key entry ((map.mem_entries_iff key entry).mp member), fun held inside => ?_⟩
  have ascending := map.ascending
  rw [← left] at ascending
  exact (List.pairwise_append.mp ascending).2.2 held inside _ List.mem_cons_self

/-- **A table that is written** stores the map. -/
theorem writeTable_ensures (wf : world.now.Wf) (expectedKeys bitsPerKey : Nat) (valid : ValidMap map) :
    Ensures (writeTable hashes name expectedKeys bitsPerKey map.entries) world fun _ after =>
      (∃ bytes, after.now.content name = some bytes ∧ IsTable hashes bytes map) ∧
      Fs.Frame (· = name) world.now after.now ∧
      Passes (Fs.Frame (· = name) world.now) world after := by
  refine Ensures.bind ((SsTableWriter.create_ensures hashes wf expectedKeys bitsPerKey).mono
    fun writer created facts => ?_)
  obtain ⟨writing, frame, passes, _⟩ := facts
  -- The invariant of the loop: what is written and what is left are the map's entries.
  let inv : List (Key × Entry) → SsTableWriter → World Fs → Prop := fun rest writer after =>
    ∃ blocks current, SsTableWriter.Writing hashes writer name blocks current after.now ∧
      (blocks.flatten ++ current) ++ rest = map.entries ∧
      Fs.Frame (· = name) world.now after.now ∧ Passes (Fs.Frame (· = name) world.now) world after
  refine Ensures.bind ((Ensures.foldM inv ?_ map.entries writer created
    ⟨[], [], writing, rfl, frame, passes⟩).mono fun writer filled facts => ?_)
  · rintro writer ⟨key, entry⟩ rest state ⟨blocks, current, writing, left, frame, passes⟩
    refine (SsTableWriter.add_ensures writing (left_entry valid left).1).mono fun writer' after facts => ?_
    obtain ⟨blocks', current', writing', grown, frame', passes'⟩ := facts
    refine ⟨blocks', current', writing', ?_, frame.trans frame',
      passes.trans (passes'.mono fun fs held => frame.trans held)⟩
    rw [grown, List.append_assoc]
    exact left
  · obtain ⟨blocks, current, writing, left, frame, passes⟩ := facts
    rw [List.append_nil] at left
    refine (SsTableWriter.finish_ensures writing left).mono fun _ after facts => ?_
    obtain ⟨stored, frame', passes'⟩ := facts
    exact ⟨stored, frame.trans frame', passes.trans (passes'.mono fun fs held => frame.trans held)⟩

/-- A table is written to a file that holds nothing. -/
theorem writeTable_needs (wf : world.now.Wf) (expectedKeys bitsPerKey : Nat) :
    Ensures (writeTable hashes name expectedKeys bitsPerKey map.entries) world fun _ _ =>
      (world.now.content name).getD [] = [] :=
  Ensures.bind ((SsTableWriter.create_ensures hashes wf expectedKeys bitsPerKey).mono
    fun _ _ facts _ _ _ => facts.2.2.2)

/-- **Writing a table ends**, and fails only if the table could get larger than a file may be. -/
theorem writeTable_ends (calm : world.Calm) (wf : world.now.Wf)
    (unwritten : (world.now.content name).getD [] = []) (expectedKeys bitsPerKey : Nat)
    (valid : ValidMap map) :
    Ends (TooLarge (tableRoom
        (if bitsPerKey > 0 then some (BloomFilter.new expectedKeys bitsPerKey) else none) map.entries))
      (writeTable hashes name expectedKeys bitsPerKey map.entries) world fun _ _ => True := by
  obtain ⟨bloom, bloomDef⟩ : ∃ bloom, bloom =
      if bitsPerKey > 0 then some (BloomFilter.new expectedKeys bitsPerKey) else none := ⟨_, rfl⟩
  rw [← bloomDef]
  refine Ends.bind ((SsTableWriter.create_succeeds calm wf unwritten expectedKeys bitsPerKey).and_ensures
    (SsTableWriter.create_ensures hashes wf expectedKeys bitsPerKey) |>.mono
      fun writer created facts => ?_).ends
  obtain ⟨initial, writing, _, passes, _⟩ := facts
  let inv : List (Key × Entry) → SsTableWriter → World Fs → Prop := fun rest writer after =>
    after.Calm ∧ filterRoom writer.bloom = filterRoom bloom ∧ ∃ blocks current,
      SsTableWriter.Writing hashes writer name blocks current after.now ∧
      (blocks.flatten ++ current) ++ rest = map.entries
  refine Ends.bind ((Ends.foldM inv ?_ map.entries writer created
    ⟨passes.calm calm, by rw [initial, bloomDef], [], [], writing, rfl⟩).mono fun writer filled facts => ?_)
  · rintro writer ⟨key, entry⟩ rest state ⟨calm, size, blocks, current, writing, left⟩
    obtain ⟨fits, behind⟩ := left_entry valid left
    have room : dataRoom (blocks.flatten ++ current) ≤ tableRoom bloom map.entries := by
      rw [tableRoom, ← left, dataRoom_append _ ((key, entry) :: rest)]
      omega
    refine (((SsTableWriter.add_ends calm writing fits behind).weaken (TooLarge.mono room)).and_ensures
      (SsTableWriter.add_ensures writing fits)).mono fun writer' after facts => ?_
    obtain ⟨same, blocks', current', writing', grown, _, passes'⟩ := facts
    refine ⟨passes'.calm calm, same.trans size, blocks', current', writing', ?_⟩
    rw [grown, List.append_assoc]
    exact left
  · obtain ⟨calm, size, blocks, current, writing, left⟩ := facts
    rw [List.append_nil] at left
    have room : tableRoom writer.bloom (blocks.flatten ++ current) = tableRoom bloom map.entries := by
      rw [left, tableRoom, tableRoom, size]
    exact room ▸ SsTableWriter.finish_ends calm writing

end Whole

end Sastran

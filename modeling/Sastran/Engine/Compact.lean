/-
The steps of a compaction.

All tables are merged into one L1 table without deletions, which is written and published as a flush
publishes its table; then the inputs are removed, L1 first and L0 from the newest table on
(`compactL0L1_ensures`). `CompactCrash` lists the directories on the way.
-/

import Sastran.Engine.Flush
import Sastran.SsTable.ListMerge

namespace Sastran

open Device SsTable

variable {D : Type} {env : Env D} {world : World Fs} {inner : EngineInner} {lsm : Lsm} {log : Bytes}
  {snapshots : List (Nat × Bytes)}

/-! ### What is merged -/

/-- The inputs of a compaction: L1 first. -/
def Lsm.inputs (lsm : Lsm) : List Table := lsm.l1 ++ lsm.l0

theorem Lsm.mem_inputs {table : Table} : table ∈ lsm.inputs ↔ table ∈ lsm.tables := by
  rw [inputs, tables, List.mem_append, List.mem_append, or_comm]

/-- What the sources of a merge have to give. -/
def inputLayers (tables : List Table) : List Layer :=
  tables.map fun table => (table.1, table.2.entries)

theorem Lsm.Ordered.distinct (ordered : lsm.Ordered) :
    lsm.inputs.Pairwise fun one two => one.1 ≠ two.1 := by
  have split := List.pairwise_append.mp ordered.descending
  refine List.pairwise_append.mpr ⟨split.2.1.imp fun less => (ne_of_lt less).symm,
    split.1.imp fun less => (ne_of_lt less).symm, fun one inL1 two inL0 => ?_⟩
  exact ne_of_lt (split.2.2 two inL0 one inL1)

theorem inputLayers_layered (ordered : lsm.Ordered) : Layered (inputLayers lsm.inputs) := by
  refine ⟨fun layer member => ?_, List.pairwise_map.mpr ordered.distinct⟩
  obtain ⟨table, _, rfl⟩ := List.mem_map.mp member
  exact table.2.ascending

/-- **The merge of the inputs** is the union of the tables, newest first. -/
theorem inputLayers_merge (ordered : lsm.Ordered) :
    IsMerge (inputLayers lsm.inputs) (SortedMap.union (lsm.tables.map Prod.snd)).entries := by
  have perm : (inputLayers lsm.inputs).Perm (inputLayers lsm.tables) :=
    List.Perm.map _ List.perm_append_comm
  exact (isMerge_union ordered.descending).of_perm perm

theorem Lsm.merged_valid (valid : ∀ table ∈ lsm.tables, ValidMap table.2) : ValidMap lsm.merged := by
  intro key entry found
  rw [Lsm.find?_merged] at found
  have newest := (Option.filter_eq_some_iff.mp found).1
  obtain ⟨layer, member, held⟩ := List.exists_of_findSome?_eq_some newest
  obtain ⟨table, inside, rfl⟩ := List.mem_map.mp member
  exact valid table inside key entry held

theorem sourced : MergingIterator.Sourced (SsTableIterator.next env.hashes)
    (SsTableIterator.Yields env.hashes) := by
  intro source rest world yields calm
  refine (SsTableIterator.next_succeeds yields calm).mono fun item after holds => ⟨?_, holds.2⟩
  obtain ⟨item, next⟩ := item
  match item, holds.1 with
  | none, step => exact step
  | some (.ok entry), step => exact step
  | some (.error error), step => exact step.elim

/-- A compaction reads all tables. -/
theorem InMemory.inputs (memory : InMemory env.hashes inner lsm) :
    Loaded env.hashes (inner.levels.l1 ++ inner.levels.l0) lsm.inputs :=
  List.rel_append memory.l1 memory.l0

/-! ### The merge -/

/-- Whether an entry goes into the output. -/
def kept (entry : Key × Entry) : Bool := entry.2.isLive

/-- What the loop of a merge keeps: `left` is still to come, and what is written and what is kept of
`left` are the entries of the output. -/
structure MergeLoop (hashes : Hashes) (count : Nat) (name : FileName) (entries : List (Key × Entry))
    (before : World Fs) (state : MergingIterator SsTableIterator × SsTableWriter × Bool)
    (world : World Fs) : Prop where
  merging : ∃ layers left blocks current, layers.length = count ∧ Layered layers ∧
    MergingIterator.Merging (SsTableIterator.Yields hashes) state.1 layers [] ∧
    IsMerge layers left ∧
    SsTableWriter.Writing hashes state.2.1 name blocks current world.now ∧
    (blocks.flatten ++ current) ++ left.filter kept = entries ∧
    state.2.2 = !(blocks.flatten ++ current).isEmpty
  frame : Fs.Frame (· = name) before.now world.now
  passes : Passes (Fs.Frame (· = name) before.now) before world
  calm : world.Calm

/-- **One round** writes the next entry, unless it is a deletion. -/
theorem mergeRound_ensures {count rounds : Nat} (enough : count ≤ rounds) {name : FileName}
    {map : SortedMap Key Entry} (valid : ValidMap map) {before : World Fs}
    {state : MergingIterator SsTableIterator × SsTableWriter × Bool}
    (holds : MergeLoop env.hashes count name map.entries before state world) :
    Ensures (EngineInner.mergeRound env rounds state) world fun result after =>
      match result with
      | .inl next => MergeLoop env.hashes count name map.entries before next after
      | .inr (writer, wroteAny) => ∃ blocks current,
          SsTableWriter.Writing env.hashes writer name blocks current after.now ∧
          blocks.flatten ++ current = map.entries ∧ wroteAny = !map.entries.isEmpty ∧
          Fs.Frame (· = name) before.now after.now ∧
          Passes (Fs.Frame (· = name) before.now) before after := by
  obtain ⟨⟨layers, left, blocks, current, length, layered, merging, isMerge, writing, split, wrote⟩,
    frame, passes, calm⟩ := holds
  obtain ⟨merge, writer, wroteAny⟩ := state
  refine Ensures.bind ((MergingIterator.next_succeeds sourced layered merging calm isMerge
    (length ▸ enough)).ensures.mono fun result middle facts => ?_)
  obtain ⟨yielded, quiet⟩ := facts
  obtain ⟨item, merge'⟩ := result
  have frame' : Fs.Frame (· = name) before.now middle.now := quiet.now ▸ frame
  have passes' := passes.trans (Passes.of_quiet quiet frame)
  have writing' : SsTableWriter.Writing env.hashes writer name blocks current middle.now :=
    quiet.now ▸ writing
  have calm' := quiet.calm calm
  cases left with
  | nil =>
    obtain rfl : item = none := yielded
    rw [List.filter_nil, List.append_nil] at split
    exact Ensures.pure ⟨blocks, current, writing', split, by rw [← split]; exact wrote, frame', passes'⟩
  | cons entry rest =>
    obtain ⟨same, layers', length', layered', merging', isMerge'⟩ := yielded
    obtain rfl : item = some (.ok entry) := same
    obtain ⟨key, entry⟩ := entry
    have next : ∀ (entry : Entry), entry.isLive = true →
        (blocks.flatten ++ current) ++ ((key, entry) :: rest).filter kept = map.entries →
        Ensures (writer.add env.hashes key entry >>= fun writer =>
          pure (Sum.inl (merge', writer, true))) middle fun result after =>
          match result with
          | .inl next => MergeLoop env.hashes count name map.entries before next after
          | .inr (writer, wroteAny) => ∃ blocks current,
              SsTableWriter.Writing env.hashes writer name blocks current after.now ∧
              blocks.flatten ++ current = map.entries ∧ wroteAny = !map.entries.isEmpty ∧
              Fs.Frame (· = name) before.now after.now ∧
              Passes (Fs.Frame (· = name) before.now) before after := by
      intro entry live split
      rw [List.filter_cons, if_pos (show kept (key, entry) = true from live)] at split
      have member : (key, entry) ∈ map.entries := by
        rw [← split]
        exact List.mem_append_right _ (List.mem_cons_self ..)
      have fits := valid key entry ((map.mem_entries_iff key entry).mp member)
      refine Ensures.bind ((SsTableWriter.add_ensures writing' fits).mono fun writer' after facts => ?_)
      obtain ⟨blocks', current', added, grown, framed, passed⟩ := facts
      refine Ensures.pure ⟨⟨layers', rest, blocks', current', length'.trans length, layered', merging',
        isMerge', added, ?_, ?_⟩, frame'.trans framed,
        passes'.trans (passed.mono fun fs held => frame'.trans held), passed.calm calm'⟩
      · rw [grown, List.append_assoc]
        exact split
      · rw [grown]
        simp
    cases entry with
    | tombstone =>
      refine Ensures.pure ⟨⟨layers', rest, blocks, current, length'.trans length, layered', merging',
        isMerge', writing', ?_, wrote⟩, frame', passes', calm'⟩
      rw [← split]
      rfl
    | put value => exact next (.put value) rfl split
    | vector bytes => exact next (.vector bytes) rfl split

theorem InMemory.inputs_ids (memory : InMemory env.hashes inner lsm) :
    (inner.levels.l1 ++ inner.levels.l0).map SsTableEntry.id = lsm.inputs.map Prod.fst :=
  memory.inputs.ids

/-- The iterator over the inputs. -/
theorem InMemory.merging (calm : world.Calm) (memory : InMemory env.hashes inner lsm) :
    Succeeds (MergingIterator.new (SsTableIterator.next env.hashes)
      ((inner.levels.l1 ++ inner.levels.l0).map fun entry => ⟨entry.id, entry.reader.iter⟩)) world
      fun merge after => MergingIterator.Merging (SsTableIterator.Yields env.hashes) merge
        (inputLayers lsm.inputs) [] ∧ Quiet world after := by
  have inputs := memory.inputs
  have given : List.Forall₂ (fun source rest => SsTableIterator.Yields env.hashes source.iter rest)
      ((inner.levels.l1 ++ inner.levels.l0).map fun entry =>
        (⟨entry.id, entry.reader.iter⟩ : MergeSource SsTableIterator))
      (lsm.inputs.map fun table => table.2.entries) := by
    rw [List.forall₂_map_left_iff, List.forall₂_map_right_iff]
    exact inputs.imp fun entry table read => SsTableReader.iter_yields read.2
  have sequences : ((inner.levels.l1 ++ inner.levels.l0).map fun entry =>
      (⟨entry.id, entry.reader.iter⟩ : MergeSource SsTableIterator)).map MergeSource.sequence =
      lsm.inputs.map Prod.fst := by
    rw [List.map_map]
    exact memory.inputs_ids
  have layers : (lsm.inputs.map Prod.fst).zip (lsm.inputs.map fun table => table.2.entries) =
      inputLayers lsm.inputs := by
    rw [List.zip_map', inputLayers]
  refine (MergingIterator.new_succeeds sourced calm given).mono fun merge opened facts => ?_
  rwa [sequences, layers] at facts

/-- There is a source for each input. -/
theorem InMemory.inputs_length (memory : InMemory env.hashes inner lsm) :
    (inputLayers lsm.inputs).length = (inner.levels.l1 ++ inner.levels.l0).length := by
  rw [inputLayers, List.length_map]
  exact memory.inputs.length_eq.symm

/-- **Merging the inputs** writes the live entries of the union, in order. -/
theorem InMemory.mergeInputs_ensures (calm : world.Calm) (memory : InMemory env.hashes inner lsm)
    (wf : world.now.Wf) (valid : ∀ table ∈ lsm.tables, ValidMap table.2) (filename : FileName)
    (expectedKeys : Nat) :
    Ensures (EngineInner.mergeInputs env filename expectedKeys (inner.levels.l1 ++ inner.levels.l0))
      world fun result after => ∃ blocks current,
        SsTableWriter.Writing env.hashes result.1 (tmpName filename) blocks current after.now ∧
        blocks.flatten ++ current = lsm.merged.entries ∧
        result.2 = !lsm.merged.entries.isEmpty ∧
        Fs.Frame (· = tmpName filename) world.now after.now ∧
        Passes (Fs.Frame (· = tmpName filename) world.now) world after := by
  refine Ensures.bind ((memory.merging calm).ensures.mono fun merge opened facts => ?_)
  obtain ⟨merging, quiet⟩ := facts
  refine Ensures.bind ((SsTableWriter.create_ensures env.hashes (quiet.now ▸ wf) expectedKeys
    env.options.bloomBitsPerKey).mono fun writer created facts => ?_)
  obtain ⟨writing, frame, passes, _⟩ := facts
  rw [quiet.now] at frame passes
  have length := memory.inputs_length
  refine Ensures.loop (fun state after => MergeLoop env.hashes (inputLayers lsm.inputs).length
    (tmpName filename) lsm.merged.entries world state after) ?_ _ _ _ ?_
  · intro state middle loop
    refine (mergeRound_ensures (length ▸ le_refl _) (Lsm.merged_valid valid) loop).mono
      fun result after facts => ?_
    cases result with
    | inl next => exact facts
    | inr done => exact facts
  · exact
      { merging := ⟨_, _, [], [], rfl, inputLayers_layered memory.ordered, merging,
          inputLayers_merge memory.ordered, writing, rfl, rfl⟩
        frame := frame
        passes := (Passes.of_quiet quiet (Fs.Frame.refl wf)).trans passes
        calm := passes.calm (quiet.calm calm) }

/-! ### What a compaction passes through -/

/-- The directory once the output is published and some inputs are removed. -/
def Lsm.remaining (lsm : Lsm) (removed : List Nat) (log : Bytes) (snapshots : List (Nat × Bytes)) :
    Dir :=
  ⟨lsm.l0.filter fun table => table.1 ∉ removed,
    (lsm.output ++ lsm.l1).filter fun table => table.1 ∉ removed,
    some (Wal.fileHeader ++ log), snapshots⟩

/-- The directories a compaction passes through, temporary files apart: inputs are removed in their
order. -/
inductive CompactCrash (lsm : Lsm) (log : Bytes) (snapshots : List (Nat × Bytes)) : Dir → Prop
  | merging : CompactCrash lsm log snapshots (lsm.stored log snapshots)
  | removing (removed left : List Nat) (order : removed ++ left = lsm.inputs.map Prod.fst) :
      CompactCrash lsm log snapshots (lsm.remaining removed log snapshots)

theorem Lsm.output_id {table : Table} (member : table ∈ lsm.output) : table.1 = lsm.nextId := by
  unfold Lsm.output at member
  split at member
  · cases member
  · rw [List.mem_singleton.mp member]

theorem filter_of_ne {tables : List Table} {removed : List Nat} {id : Nat}
    (absent : ∀ table ∈ tables, table.1 ≠ id) :
    (tables.filter fun table => table.1 ∉ removed ++ [id]) =
      tables.filter fun table => table.1 ∉ removed := by
  refine List.filter_congr fun table member => ?_
  simp [absent table member]

theorem filter_filter_ne (tables : List Table) (removed : List Nat) (id : Nat) :
    ((tables.filter fun table => table.1 ∉ removed).filter fun table => table.1 ≠ id) =
      tables.filter fun table => table.1 ∉ removed ++ [id] := by
  rw [List.filter_filter]
  refine List.filter_congr fun table _ => ?_
  rw [← Bool.decide_and]
  simp [and_comm]

theorem Lsm.remaining_nil (lsm : Lsm) (log : Bytes) (snapshots : List (Nat × Bytes)) :
    lsm.remaining [] log snapshots =
      ⟨lsm.l0, lsm.output ++ lsm.l1, some (Wal.fileHeader ++ log), snapshots⟩ := by
  simp [Lsm.remaining]

theorem Lsm.Ordered.remaining_all (ordered : lsm.Ordered) :
    lsm.remaining (lsm.inputs.map Prod.fst) log snapshots = lsm.compact.stored log snapshots := by
  have gone : ∀ tables : List Table, (∀ table ∈ tables, table ∈ lsm.inputs) →
      (tables.filter fun table => table.1 ∉ lsm.inputs.map Prod.fst) = [] := by
    intro tables inside
    refine List.filter_eq_nil_iff.mpr fun table member => ?_
    simpa using ⟨table.2, inside table member⟩
  have stays : (lsm.output.filter fun table => table.1 ∉ lsm.inputs.map Prod.fst) = lsm.output := by
    refine List.filter_eq_self.mpr fun table member => ?_
    rw [Lsm.output_id member, decide_eq_true_eq]
    intro listed
    obtain ⟨input, isInput, same⟩ := List.mem_map.mp listed
    exact absurd (ordered.bound input (Lsm.mem_inputs.mp isInput)) (by rw [same]; exact lt_irrefl _)
  unfold Lsm.remaining
  rw [List.filter_append, stays, gone lsm.l1 fun _ => List.mem_append_left _,
    gone lsm.l0 fun _ => List.mem_append_right _, List.append_nil]
  rfl

/-- A directory without the tables of an id. -/
def Dir.dropId (dir : Dir) (id : Nat) : Dir :=
  (dir.modifyLevel (List.filter fun table => table.1 ≠ id) 0).modifyLevel
    (List.filter fun table => table.1 ≠ id) 1

/-- A directory without the tables of these ids. -/
def Dir.dropIds (dir : Dir) (ids : List Nat) : Dir :=
  { dir with
    l0 := dir.l0.filter fun table => table.1 ∉ ids
    l1 := dir.l1.filter fun table => table.1 ∉ ids }

theorem Dir.dropIds_dropId (dir : Dir) (ids : List Nat) (id : Nat) :
    (dir.dropIds ids).dropId id = dir.dropIds (ids ++ [id]) := by
  simp only [dropIds, dropId, Dir.modifyLevel]
  rw [filter_filter_ne, filter_filter_ne]

theorem Dir.dropIds_nil (dir : Dir) : dir.dropIds [] = dir := by
  simp [dropIds]

/-- **The tables of an id are removed**, at both levels. -/
theorem removeId_succeeds {dir : Dir} (calm : world.Calm) (described : Describes env.hashes world.now dir)
    {id : Nat} (fits : id + 1 < u64Bound) :
    Succeeds (Prog.forEach (fun level => ignore (Io.removeFile (sstFilename level id))) [0, 1]) world
      fun _ after => Describes env.hashes after.now (dir.dropId id) ∧ Fs.Frame IsSst world.now after.now ∧
        Passes (fun fs =>
          Describes env.hashes fs (dir.modifyLevel (List.filter fun table => table.1 ≠ id) 0) ∨
            Describes env.hashes fs (dir.dropId id)) world after := by
  refine Succeeds.bind ((Io.ignore_removeFile_frame calm described.wf _).mono fun _ middle facts => ?_)
  obtain ⟨frame, gone, passes⟩ := facts
  have described' := described.dropTable (by decide : 0 < 2) fits frame gone
  refine Succeeds.bind ((Io.ignore_removeFile_frame (passes.calm calm) frame.wf _).mono
    fun _ after facts => ?_)
  obtain ⟨frame', gone', passes'⟩ := facts
  have described'' := described'.dropTable (by decide : 1 < 2) fits frame' gone'
  refine Succeeds.pure ⟨described'', ?_, ?_⟩
  · exact (frame.mono fun _ same => ⟨0, id, same⟩).trans (frame'.mono fun _ same => ⟨1, id, same⟩)
  · exact (passes.mono fun fs same => Or.inl (same ▸ described')).trans
      (passes'.mono fun fs same => Or.inr (same ▸ described''))

/-- **The tables of all inputs are removed**, whatever else is in the directory. -/
theorem removeInputs_drops {dir : Dir} : ∀ (left removed : List Nat) {world : World Fs}, world.Calm →
    (∀ id ∈ left, id + 1 < u64Bound) → Describes env.hashes world.now (dir.dropIds removed) →
    Succeeds (EngineInner.removeInputs left) world fun _ after =>
      Describes env.hashes after.now (dir.dropIds (removed ++ left)) ∧ Fs.Frame IsSst world.now after.now ∧
      Passes (fun _ => True) world after := by
  intro left
  induction left with
  | nil =>
    intro removed world _ _ described
    rw [List.append_nil]
    exact Succeeds.pure ⟨described, Fs.Frame.refl described.wf, Passes.refl _ world⟩
  | cons id left ih =>
    intro removed world calm fits described
    refine Succeeds.bind ((removeId_succeeds calm described (fits id (List.mem_cons_self ..))).mono
      fun _ middle facts => ?_)
    obtain ⟨described', frame, passes⟩ := facts
    rw [Dir.dropIds_dropId] at described'
    refine (ih (removed ++ [id]) (passes.calm calm) (fun other member =>
      fits other (List.mem_cons_of_mem _ member)) described').mono fun _ after facts => ?_
    obtain ⟨described'', frame', passes'⟩ := facts
    rw [List.append_assoc] at described''
    exact ⟨described'', frame.trans frame', (passes.mono fun _ _ => trivial).trans passes'⟩

/-- **Removing an input**, at the one level it is at. -/
theorem removeInput_succeeds (calm : world.Calm) (ordered : lsm.Ordered)
    (small : lsm.nextId < u64Bound) {removed left : List Nat} {id : Nat}
    (order : removed ++ id :: left = lsm.inputs.map Prod.fst)
    (described : Describes env.hashes world.now (lsm.remaining removed log snapshots)) :
    Succeeds (Prog.forEach (fun level => ignore (Io.removeFile (sstFilename level id))) [0, 1]) world
      fun _ after =>
        Describes env.hashes after.now (lsm.remaining (removed ++ [id]) log snapshots) ∧
        Fs.Frame IsSst world.now after.now ∧
        Passes (fun fs => ∃ dir, CompactCrash lsm log snapshots dir ∧ Describes env.hashes fs dir)
          world after := by
  have listed : id ∈ lsm.inputs.map Prod.fst := by
    rw [← order]
    exact List.mem_append_right _ (List.mem_cons_self ..)
  obtain ⟨input, isInput, same⟩ := List.mem_map.mp listed
  have below : id < lsm.nextId := same ▸ ordered.bound input (Lsm.mem_inputs.mp isInput)
  have fits : id + 1 < u64Bound := by omega
  have order' : (removed ++ [id]) ++ left = lsm.inputs.map Prod.fst := by
    rw [← order, List.append_assoc]
    rfl
  -- Between the two calls the directory is one of those before and after.
  have between : (lsm.remaining removed log snapshots).modifyLevel
      (List.filter fun table => table.1 ≠ id) 0 = lsm.remaining removed log snapshots ∨
      (lsm.remaining removed log snapshots).modifyLevel
        (List.filter fun table => table.1 ≠ id) 0 = lsm.remaining (removed ++ [id]) log snapshots := by
    have cross := (List.pairwise_append.mp ordered.distinct).2.2
    have dropped := filter_filter_ne lsm.l0 removed id
    by_cases inL0 : ∃ table ∈ lsm.l0, table.1 = id
    · obtain ⟨table, inside, rfl⟩ := inL0
      right
      have apart : ∀ other ∈ lsm.output ++ lsm.l1, other.1 ≠ table.1 := by
        intro other member
        rcases List.mem_append.mp member with isOutput | inL1
        · rw [Lsm.output_id isOutput]
          exact (ne_of_lt below).symm
        · exact cross other inL1 table inside
      simp only [Lsm.remaining, Dir.modifyLevel]
      rw [dropped, filter_of_ne apart]
    · left
      have apart : ∀ table ∈ lsm.l0, table.1 ≠ id := fun table inside same => inL0 ⟨table, inside, same⟩
      simp only [Lsm.remaining, Dir.modifyLevel]
      rw [dropped, filter_of_ne apart]
  have all : (lsm.remaining removed log snapshots).dropId id =
      lsm.remaining (removed ++ [id]) log snapshots :=
    Dir.dropIds_dropId ⟨lsm.l0, lsm.output ++ lsm.l1, _, snapshots⟩ removed id
  refine (removeId_succeeds calm described fits).mono fun _ after facts => ?_
  rw [all] at facts
  obtain ⟨described', frame, passes⟩ := facts
  have gone : ∀ fs, Describes env.hashes fs (lsm.remaining (removed ++ [id]) log snapshots) →
      ∃ dir, CompactCrash lsm log snapshots dir ∧ Describes env.hashes fs dir := fun fs crashed =>
    ⟨_, .removing (removed ++ [id]) left order', crashed⟩
  refine ⟨described', frame, passes.mono fun fs crash => ?_⟩
  rcases crash with crashed | crashed
  · rcases between with before | after
    · rw [before] at crashed
      exact ⟨_, .removing removed (id :: left) order, crashed⟩
    · rw [after] at crashed
      exact gone fs crashed
  · exact gone fs crashed

/-- **The inputs are removed** in their order. -/
theorem removeInputs_succeeds (ordered : lsm.Ordered) (small : lsm.nextId < u64Bound) :
    ∀ (left removed : List Nat) {world : World Fs}, world.Calm →
      removed ++ left = lsm.inputs.map Prod.fst →
      Describes env.hashes world.now (lsm.remaining removed log snapshots) →
      Succeeds (EngineInner.removeInputs left) world fun _ after =>
        Describes env.hashes after.now (lsm.compact.stored log snapshots) ∧
        Fs.Frame IsSst world.now after.now ∧
        Passes (fun fs => ∃ dir, CompactCrash lsm log snapshots dir ∧ Describes env.hashes fs dir)
          world after := by
  intro left
  induction left with
  | nil =>
    intro removed world _ order described
    rw [List.append_nil] at order
    rw [order, ordered.remaining_all] at described
    exact Succeeds.pure ⟨described, Fs.Frame.refl described.wf, Passes.refl _ world⟩
  | cons id left ih =>
    intro removed world calm order described
    refine Succeeds.bind ((removeInput_succeeds calm ordered small order described).mono
      fun _ middle facts => ?_)
    obtain ⟨described', frame, passes⟩ := facts
    have order' : (removed ++ [id]) ++ left = lsm.inputs.map Prod.fst := by
      rw [← order, List.append_assoc]
      rfl
    refine (ih (removed ++ [id]) (passes.calm calm) order' described').mono fun _ after facts => ?_
    obtain ⟨described'', frame', passes'⟩ := facts
    exact ⟨described'', frame.trans frame', passes.trans passes'⟩

/-! ### Compactions -/

theorem wal_outside : ¬ (IsTmp WAL_FILENAME ∨ IsSst WAL_FILENAME) := by
  rintro (isTmp | ⟨level, id, same⟩)
  · exact wal_not_tmp isTmp
  · exact sst_ne_wal level id same.symm

/-- What is true once the output is installed, beside what was stored in the file system `before` a compaction
started. -/
structure Installed (hashes : Hashes) (before : Fs) (inner : EngineInner) (lsm : Lsm) (dir : Dir)
    (state : EngineInner × World Fs) : Prop where
  described : Describes hashes state.2.now { dir with l1 := lsm.output ++ dir.l1 }
  tidies : Fs.Tidies before state.2.now
  frame : Fs.Frame (fun name => IsTmp name ∨ IsSst name) before state.2.now
  inner : state.1 = { inner with levels := state.1.levels, nextSstId := lsm.nextId + 1 }
  l0 : state.1.levels.l0 = []
  l1 : Loaded hashes state.1.levels.l1 lsm.output
  small : lsm.nextId + 1 < u64Bound

/-- Removing the temporary file of a table. -/
theorem Fs.Tidies.without {before after : Fs} {filename : FileName} (sst : IsSst filename)
    (frame : Fs.Frame (fun name => name = tmpName filename ∨ name = filename) before after)
    (gone : after.content (tmpName filename) = none) : Fs.Tidies before after := by
  refine .of_frame frame fun name tmp touched => ?_
  rcases touched with rfl | rfl
  · exact gone
  · exact absurd tmp sst.not_tmp

/-- **Installing the output** gives it its name, or removes the temporary file when there is none. -/
theorem installOutput_ensures (calm : world.Calm) {before : Fs} {dir : Dir}
    (described : Describes env.hashes before dir) (fresh : ∀ table ∈ dir.l1, table.1 ≠ lsm.nextId)
    {writer : SsTableWriter} {blocks : List Block} {current : Block}
    (writing : SsTableWriter.Writing env.hashes writer (tmpName (sstFilename 1 lsm.nextId)) blocks
      current world.now)
    (written : blocks.flatten ++ current = lsm.merged.entries)
    (frame : Fs.Frame (· = tmpName (sstFilename 1 lsm.nextId)) before world.now) :
    Ensures (EngineInner.installOutput env lsm.nextId writer (!lsm.merged.entries.isEmpty))
      (inner, world) fun _ after => Installed env.hashes before inner lsm dir after ∧
        Passes (fun fs => Describes env.hashes fs dir ∨
          Describes env.hashes fs { dir with l1 := lsm.output ++ dir.l1 }) world after.2 := by
  have tmp : IsTmp (tmpName (sstFilename 1 lsm.nextId)) := tmp_of_sst 1 lsm.nextId
  have sst : IsSst (sstFilename 1 lsm.nextId) := ⟨1, lsm.nextId, rfl⟩
  have same : ∀ fs, Fs.Frame (· = tmpName (sstFilename 1 lsm.nextId)) before fs →
      Describes env.hashes fs dir := fun fs framed =>
    described.tmp (framed.mono fun _ same => same ▸ tmp)
  have wide : ∀ {first last : Fs}, Fs.Frame (fun name => name = tmpName (sstFilename 1 lsm.nextId) ∨
      name = sstFilename 1 lsm.nextId) first last →
      Fs.Frame (fun name => IsTmp name ∨ IsSst name) first last := by
    refine fun framed => framed.mono ?_
    rintro _ (rfl | rfl)
    · exact Or.inl tmp
    · exact Or.inr sst
  have narrow : ∀ {first last : Fs}, Fs.Frame (· = tmpName (sstFilename 1 lsm.nextId)) first last →
      Fs.Frame (fun name => name = tmpName (sstFilename 1 lsm.nextId) ∨
        name = sstFilename 1 lsm.nextId) first last := fun framed => framed.mono fun _ => Or.inl
  unfold EngineInner.installOutput
  cases none : lsm.merged.entries.isEmpty with
  | true =>
    have output : lsm.output = [] := by rw [Lsm.output, if_pos none]
    rw [if_neg (by decide)]
    refine Ensures.bind (Ensures.zoom ((Io.ignore_removeFile_frame calm frame.wf _).ensures.mono
      fun _ removed facts => ?_))
    obtain ⟨frame', gone, passes⟩ := facts
    refine Ensures.bind ((nextId_ensures _).mono fun next _ facts => ?_)
    obtain ⟨rfl, small, rfl⟩ := facts
    intro _ after run
    cases run
    have framed := frame.trans frame'
    refine ⟨⟨?_, Fs.Tidies.without sst (narrow framed) gone, wide (narrow framed), rfl, rfl, ?_,
      small⟩, passes.mono fun fs here => Or.inl (here ▸ same _ framed)⟩
    · rw [output, List.nil_append]
      exact same _ framed
    · rw [output]
      exact List.Forall₂.nil
  | false =>
    have output : lsm.output = [(lsm.nextId, lsm.merged)] := by
      rw [Lsm.output, if_neg (by rw [none]; exact Bool.false_ne_true)]
    rw [if_pos (by decide)]
    refine Ensures.bind (Ensures.zoom ((SsTableWriter.finish_ensures writing written).mono
      fun _ finished facts => ?_))
    obtain ⟨⟨bytes, stored, isTable⟩, frame', passes⟩ := facts
    refine Ensures.bind (Ensures.zoom ((publishTable_ensures (passes.calm calm) frame'.wf stored
      isTable).mono fun reader published facts => ?_))
    obtain ⟨reads, pub, passes'⟩ := facts
    refine Ensures.bind ((nextId_ensures _).mono fun next _ facts => ?_)
    obtain ⟨rfl, small, rfl⟩ := facts
    intro _ after run
    cases run
    have grown : ∀ fs, Published (sstFilename 1 lsm.nextId) bytes finished.now fs →
        Describes env.hashes fs { dir with l1 := lsm.output ++ dir.l1 } := by
      intro fs pub
      have pushed := (same _ (frame.trans frame')).pushTable (by decide : 1 < 2) small
        pub.frame.toOutside pub.held isTable fresh
      rw [output]
      exact pushed
    have framed := (narrow (frame.trans frame')).trans pub.frame
    refine ⟨⟨grown _ pub, Fs.Tidies.without sst framed pub.gone, wide framed, rfl, rfl, ?_,
      small⟩, ?_⟩
    · rw [output]
      exact List.Forall₂.cons ⟨rfl, reads⟩ List.Forall₂.nil
    · refine (passes.mono fun fs framed => ?_).trans (passes'.mono fun fs pub => ?_)
      · exact Or.inl (same fs (frame.trans framed))
      · exact Or.inr (grown fs pub)

/-- The state in memory behind a compaction. -/
theorem Installed.inMemory {before : Fs} {dir : Dir} {state : EngineInner × World Fs}
    (installed : Installed env.hashes before inner lsm dir state) (memory : InMemory env.hashes inner lsm) :
    InMemory env.hashes state.1 lsm.compact ∧ state.1.memtable = inner.memtable ∧
      state.1.writer = inner.writer := by
  obtain ⟨inner', world'⟩ := state
  obtain ⟨_, _, _, same, l0, l1, small⟩ := installed
  have memtable' : inner'.memtable = inner.memtable := by
    simpa using congrArg EngineInner.memtable same
  have next' : inner'.nextSstId = lsm.nextId + 1 := by
    simpa using congrArg EngineInner.nextSstId same
  have closed' : inner'.closed = inner.closed := by simpa using congrArg EngineInner.closed same
  refine ⟨?_, memtable', by simpa using congrArg EngineInner.writer same⟩
  exact
    { memtable := by
        rw [memtable']
        exact memory.memtable
      valid := memory.valid
      l0 := by
        show Loaded env.hashes inner'.levels.l0 []
        rw [show inner'.levels.l0 = [] from l0]
        exact List.Forall₂.nil
      l1 := l1
      next := next'
      small := small
      ordered := memory.ordered.compact
      running := by
        rw [closed']
        exact memory.running }

/-- The output has an id that no L1 table has. -/
theorem Lsm.Ordered.fresh_l1 (ordered : lsm.Ordered) : ∀ table ∈ lsm.l1, table.1 ≠ lsm.nextId :=
  fun table member => ne_of_lt (ordered.bound table (List.mem_append_right _ member))

/-- The directory once the output is published. -/
theorem Lsm.stored_output (lsm : Lsm) (log : Bytes) (snapshots : List (Nat × Bytes)) :
    ({ lsm.stored log snapshots with l1 := lsm.output ++ (lsm.stored log snapshots).l1 } : Dir) =
      lsm.remaining [] log snapshots := (lsm.remaining_nil log snapshots).symm

/-- **A compaction** leaves one table without deletions, or none, in memory; and in the directory what the
removal of its inputs leaves. -/
theorem InMemory.compact_ensures {dir dir' : Dir} {crash : Fs → Prop} (calm : world.Calm)
    (memory : InMemory env.hashes inner lsm) (described : Describes env.hashes world.now dir)
    (valid : ∀ table ∈ lsm.tables, ValidMap table.2) (fresh : ∀ table ∈ dir.l1, table.1 ≠ lsm.nextId)
    (merging : ∀ fs, Describes env.hashes fs dir → crash fs)
    (installed : ∀ fs, Describes env.hashes fs { dir with l1 := lsm.output ++ dir.l1 } → crash fs)
    (removes : ∀ world : World Fs, world.Calm →
      Describes env.hashes world.now { dir with l1 := lsm.output ++ dir.l1 } →
      Succeeds (EngineInner.removeInputs (lsm.inputs.map Prod.fst)) world fun _ after =>
        Describes env.hashes after.now dir' ∧ Fs.Frame IsSst world.now after.now ∧
        Passes crash world after)
    (removed : ∀ fs, Describes env.hashes fs dir' → crash fs) :
    Ensures (EngineInner.compactL0L1 env) (inner, world) fun _ after =>
      InMemory env.hashes after.1 lsm.compact ∧ after.1.memtable = inner.memtable ∧
      after.1.writer = inner.writer ∧ Describes env.hashes after.2.now dir' ∧
      Fs.Tidies world.now after.2.now ∧
      Fs.Frame (fun name => IsTmp name ∨ IsSst name) world.now after.2.now ∧
      Passes crash world after.2 := by
  have tmp : IsTmp (tmpName (sstFilename 1 lsm.nextId)) := tmp_of_sst 1 lsm.nextId
  refine Ensures.bind_ok rfl ?_
  simp only [memory.next]
  refine Ensures.bind (Ensures.zoom ((memory.mergeInputs_ensures calm described.wf valid _ _).mono
    fun result merged facts => ?_))
  obtain ⟨blocks, current, writing, written, wrote, frame, passes⟩ := facts
  obtain ⟨writer, wroteAny⟩ := result
  obtain rfl : wroteAny = !lsm.merged.entries.isEmpty := wrote
  refine Ensures.bind ((installOutput_ensures (passes.calm calm) described fresh writing written
    frame).mono fun _ published facts => ?_)
  obtain ⟨facts, passes'⟩ := facts
  obtain ⟨inner', world'⟩ := published
  rw [memory.inputs_ids]
  refine Ensures.bind (Ensures.zoom ((removes _ (passes'.calm (passes.calm calm))
    facts.described).ensures.mono fun _ without done => ?_))
  obtain ⟨described', frame', passes''⟩ := done
  have calm' := passes''.calm (passes'.calm (passes.calm calm))
  refine Ensures.zoom ((ignore_succeeds ((Io.syncDir_succeeds calm').of_ensures
    Io.syncDir_ensures)).ensures.mono fun _ after quiet => ?_)
  obtain ⟨memory', memtable, writer'⟩ := facts.inMemory memory
  refine ⟨memory', memtable, writer', quiet.now ▸ described', ?_, ?_, ?_⟩
  · show Fs.Tidies world.now after.now
    rw [quiet.now]
    exact facts.tidies.trans (.of_frame frame' fun name isTmp sst => absurd isTmp sst.not_tmp)
  · show Fs.Frame _ world.now after.now
    rw [quiet.now]
    exact facts.frame.trans (frame'.mono fun _ => Or.inr)
  · refine (passes.mono fun fs framed => ?_).trans ((passes'.mono fun fs stage => ?_).trans
      (passes''.trans (Passes.of_quiet quiet (removed _ described'))))
    · exact merging fs (described.tmp (framed.mono fun _ same => same ▸ tmp))
    · exact stage.elim (merging fs) (installed fs)

theorem compactL0L1_stands (calm : world.Calm)
    (stands : Stands env.hashes world.now inner lsm log snapshots)
    (valid : ∀ table ∈ lsm.tables, ValidMap table.2) :
    Ensures (EngineInner.compactL0L1 env) (inner, world) fun _ after =>
      Stands env.hashes after.2.now after.1 lsm.compact log snapshots ∧
      after.1.memtable = inner.memtable ∧ Fs.Tidies world.now after.2.now ∧
      Passes (fun fs => ∃ dir, CompactCrash lsm log snapshots dir ∧ Describes env.hashes fs dir)
        world after.2 := by
  have published : ∀ fs, Describes env.hashes fs ({ lsm.stored log snapshots with
      l1 := lsm.output ++ (lsm.stored log snapshots).l1 } : Dir) →
      Describes env.hashes fs (lsm.remaining [] log snapshots) := fun fs described =>
    lsm.stored_output log snapshots ▸ described
  have all : lsm.compact.stored log snapshots =
      lsm.remaining (lsm.inputs.map Prod.fst) log snapshots := stands.ordered.remaining_all.symm
  refine (stands.compact_ensures calm stands.described valid stands.ordered.fresh_l1
    (fun fs described => ⟨_, .merging, described⟩)
    (fun fs described => ⟨_, .removing [] _ rfl, published fs described⟩)
    (fun world' calm' described => removeInputs_succeeds stands.ordered stands.small _ [] calm' rfl
      (published world'.now described))
    fun fs described => ⟨_, .removing _ [] (List.append_nil _), all ▸ described⟩).mono
    fun _ after facts => ?_
  obtain ⟨memory, memtable, writer, described, tidies, outside, passes⟩ := facts
  refine ⟨⟨memory, described, ?_, tidies.unsnapped stands.unsnapped⟩, memtable, tidies, passes⟩
  rw [outside.dir _ wal_outside, writer]
  exact stands.linked

theorem compactL0L1_ensures (calm : world.Calm)
    (holds : Holds env.hashes world.now inner lsm log snapshots)
    (valid : ∀ table ∈ lsm.tables, ValidMap table.2) :
    Ensures (EngineInner.compactL0L1 env) (inner, world) fun _ after =>
      Holds env.hashes after.2.now after.1 lsm.compact log snapshots ∧
      after.1.memtable = inner.memtable ∧
      Passes (fun fs => ∃ dir, CompactCrash lsm log snapshots dir ∧ Describes env.hashes fs dir)
        world after.2 := by
  refine (compactL0L1_stands calm holds.toStands valid).mono fun _ after facts => ?_
  obtain ⟨stands, memtable, tidies, passes⟩ := facts
  exact ⟨⟨stands, holds.tidy.tidied tidies⟩, memtable, passes⟩

end Sastran

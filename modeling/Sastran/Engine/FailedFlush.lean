/-
A flush that fails.

`FlushFailure` lists what a flush that ends with an error leaves in memory and on disk, one case for each
stage: the table is being written, it has its name, it is registered and the log is being replaced.

* `flushFull_fails` - a flush that fails leaves one of these.
* `compactL0L1_fails` - a compaction that fails leaves the state in memory as it was.
-/

import Sastran.Engine.Faults

namespace Sastran

open Device SsTable

variable {D : Type} {env : Env D} {world : World Fs} {inner : EngineInner} {lsm : Lsm} {log : Bytes}
  {snapshots : List (Nat × Bytes)}

/-! ### Writing a table -/

theorem ioCall_fails {α : Type} (step : Fs → Except Error (α × Fs)) :
    Fails (ioCall step) world fun _ after => after.now = world.now :=
  fun _ _ run => (call_err_frame run).1

theorem ioRead_fails {α : Type} (step : Fs → Except Error α) :
    Fails (ioRead step) world fun _ after => after.now = world.now := ioCall_fails _

theorem FileAppend.isEmpty_fails (file : FileAppend) :
    Fails file.isEmpty world fun _ after => after.now = world.now :=
  Fails.bind (ioRead_fails fun fs => .ok (fs.inodes.getD file.ino []).length) fun _ _ _ => Fails.pure _

theorem FileAppend.sync_fails (file : FileAppend) :
    Fails file.sync world fun _ after => after.now = world.now := ioRead_fails fun _ => .ok ()

theorem Io.syncDir_fails : Fails Io.syncDir world fun _ after => after.now = world.now :=
  ioRead_fails fun _ => .ok ()

theorem Io.removeFile_fails (name : FileName) :
    Fails (Io.removeFile name) world fun _ after => after.now = world.now := ioCall_fails _

/-- What a part of a state is left as, by a call that does not see it. -/
theorem onWorld_fails {σ α : Type} {program : IoM α} {state : σ × World Fs}
    {post : Error → World Fs → Prop} (fails : Fails program state.2 post) :
    Fails (onWorld program : Prog Error (σ × World Fs) α) state fun error after =>
      after.1 = state.1 ∧ post error after.2 :=
  Fails.zoom (fails.mono fun _ _ holds => ⟨rfl, holds⟩)

namespace SsTableWriter

variable {hashes : Hashes} {writer : SsTableWriter} {name : FileName} {blocks : List Block}
  {current : Block}

theorem create_fails (wf : world.now.Wf) (name : FileName) (expectedKeys bitsPerKey : Nat) :
    Fails (create name expectedKeys bitsPerKey) world fun _ after =>
      Fs.Frame (· = name) world.now after.now := by
  refine Fails.bind ((ioCall_fails _).mono fun _ after same => ?_)
    ((Io.openAppend_frame wf name).mono fun file opened facts => ?_)
  · rw [same]
    exact Fs.Frame.refl wf
  · obtain ⟨frame, _⟩ := facts
    refine Fails.bind (file.isEmpty_fails.mono fun _ after same => ?_)
      (FileAppend.isEmpty_ensures.mono fun isEmpty asked facts => ?_)
    · rw [same]
      exact frame
    · exact Fails.ite (fun _ => Fails.throw (facts.2.now ▸ frame)) fun _ => Fails.pure _

theorem flushCurrentBlock_fails (hashes : Hashes) (writer : SsTableWriter) :
    Fails (writer.flushCurrentBlock hashes) world fun _ after => after.now = world.now :=
  Fails.bind (ioCall_fails _) fun _ _ _ =>
    Fails.bind (Fails.ofOption _) fun _ _ _ => Fails.pure _

theorem push_fails (hashes : Hashes) (writer : SsTableWriter) (key : Key) (entry : Entry)
    {post : Error → World Fs → Prop} : Fails (writer.push hashes key entry) world post := by
  unfold push
  cases writer.bloom with
  | none => exact Fails.bind (Fails.pure _) fun _ _ _ => Fails.pure _
  | some filter => exact Fails.bind (Fails.ofOption _) fun _ _ _ => Fails.pure _

theorem add_fails (hashes : Hashes) (writer : SsTableWriter) (key : Key) (entry : Entry) :
    Fails (writer.add hashes key entry) world fun _ after => after.now = world.now := by
  refine Fails.ite (fun _ => Fails.throw rfl) fun _ => Fails.ite (fun _ => Fails.throw rfl) fun _ =>
    Fails.ite (fun _ => ?_) fun _ => push_fails hashes writer key entry
  exact Fails.bind (flushCurrentBlock_fails hashes writer) fun next middle _ =>
    push_fails hashes next key entry

theorem finish_fails (writing : Writing hashes writer name blocks current world.now) :
    Fails (writer.finish hashes) world fun _ after => Fs.Frame (· = name) world.now after.now := by
  have still : ∀ {middle after : World Fs}, Fs.Frame (· = name) world.now middle.now →
      after.now = middle.now → Fs.Frame (· = name) world.now after.now :=
    fun frame same => same ▸ frame
  have start : Fs.Frame (· = name) world.now world.now := Fs.Frame.refl writing.wf
  refine Fails.bind (Fails.ite (fun _ => (flushCurrentBlock_fails hashes writer).mono
    fun _ _ same => still start same) fun _ => Fails.pure _)
    ((flushRest_ensures writing).mono fun writer' flushed facts => ?_)
  obtain ⟨blocks', writing', _, frame, _⟩ := facts
  refine Fails.bind ?_ ((appendBloom_ensures writing').mono fun _ filtered facts => ?_)
  · unfold appendBloom
    cases writer'.bloom with
    | none => exact Fails.pure _
    | some filter => exact (ioCall_fails _).mono fun _ _ same => still frame same
  obtain ⟨content, linked, frame', _⟩ := facts
  have frame := frame.trans frame'
  refine Fails.bind ((ioCall_fails _).mono fun _ _ same => still frame same)
    ((FileAppend.append_frame frame'.wf linked content _).mono fun _ indexed facts => ?_)
  obtain ⟨frame'', content', linked', _⟩ := facts
  have frame := frame.trans frame''
  refine Fails.bind ((ioCall_fails _).mono fun _ _ same => still frame same)
    ((FileAppend.append_frame frame''.wf linked' content' _).mono fun _ footed facts => ?_)
  exact (FileAppend.sync_fails _).mono fun _ _ same => still (frame.trans facts.1) same

end SsTableWriter

/-- **A table that is not written to its end** is in the file it was being written to. -/
theorem writeTable_fails (wf : world.now.Wf) {name : FileName} (expectedKeys bitsPerKey : Nat)
    {map : SortedMap Key Entry} (valid : ValidMap map) :
    Fails (writeTable hashes name expectedKeys bitsPerKey map.entries) world fun _ after =>
      Fs.Frame (· = name) world.now after.now := by
  refine Fails.bind (SsTableWriter.create_fails wf _ _ _) ((SsTableWriter.create_ensures hashes wf
    expectedKeys bitsPerKey).mono fun writer created facts => ?_)
  obtain ⟨writing, frame, _, _⟩ := facts
  let inv : List (Key × Entry) → SsTableWriter → World Fs → Prop := fun rest writer after =>
    ∃ blocks current, SsTableWriter.Writing hashes writer name blocks current after.now ∧
      (blocks.flatten ++ current) ++ rest = map.entries ∧ Fs.Frame (· = name) world.now after.now
  have adds : ∀ writer first rest state, inv (first :: rest) writer state →
      Ensures (writer.add hashes first.1 first.2) state fun next after => inv rest next after := by
    rintro writer ⟨key, entry⟩ rest state ⟨blocks, current, writing, left, frame⟩
    refine (SsTableWriter.add_ensures writing (left_entry valid left).1).mono fun writer' after facts => ?_
    obtain ⟨blocks', current', writing', grown, frame', _⟩ := facts
    refine ⟨blocks', current', writing', ?_, frame.trans frame'⟩
    rw [grown, List.append_assoc]
    exact left
  have start : inv map.entries writer created := ⟨[], [], writing, rfl, frame⟩
  refine Fails.bind (Fails.foldM inv (fun writer first rest state holds => ⟨?_, ?_⟩) _ _ _ start)
    ((Ensures.foldM inv adds map.entries writer created start).mono fun writer filled facts => ?_)
  · obtain ⟨_, _, _, _, frame⟩ := holds
    exact (SsTableWriter.add_fails hashes writer first.1 first.2).mono fun _ after same => same ▸ frame
  · exact adds writer first rest state holds
  · obtain ⟨blocks, current, writing, _, frame⟩ := facts
    exact (SsTableWriter.finish_fails writing).mono fun _ after frame' => frame.trans frame'

theorem SsTableReader.open_respects (hashes : Hashes) (name : FileName) :
    Respects Quiet (SsTableReader.open hashes name) := by
  have composes := Quiet.composes (φ := Fs)
  refine Respects.bind composes (ioRead_respects _) fun file =>
    Respects.bind composes (ioRead_respects _) fun fileLen => ?_
  refine Respects.ite (Respects.throw composes _) (Respects.bind composes (ioRead_respects _) fun footer => ?_)
  refine Respects.ite (Respects.throw composes _)
    (Respects.bind composes (Respects.ofOption composes _) fun indexEnd => ?_)
  refine Respects.ite (Respects.throw composes _) (Respects.bind composes ?_ fun _ =>
    Respects.bind composes (ioRead_respects _) fun bytes => Respects.bind composes
      (Respects.ofExcept composes _) fun index => Respects.bind composes ?_ fun _ => Respects.pure composes _)
  · refine Respects.ite (Respects.pure composes ()) (Respects.bind composes
      (Respects.ofOption composes _) fun bloomEnd => ?_)
    exact Respects.ite (Respects.throw composes _) (Respects.pure composes ())
  · refine Respects.ite (Respects.pure composes _) (Respects.bind composes (ioRead_respects _) fun bytes => ?_)
    exact Respects.bind composes (Respects.ofExcept composes _) fun filter => Respects.pure composes _

/-- **A table that is not opened** has its name or has it not. -/
theorem publishTable_fails (wf : world.now.Wf) {filename : FileName} {bytes : Bytes}
    (stored : world.now.content (tmpName filename) = some bytes) :
    Fails (EngineInner.publishTable env filename) world fun _ after =>
      after.now = world.now ∨ Published filename bytes world.now after.now := by
  refine Fails.bind ((ioCall_fails _).mono fun _ _ same => Or.inl same)
    ((Io.rename_frame wf (tmpName_ne filename)).mono fun _ renamed facts => ?_)
  obtain ⟨frame, held, gone, _⟩ := facts
  rw [stored] at held
  have published : Published filename bytes world.now renamed.now := ⟨frame, held, gone⟩
  refine Fails.bind (Io.syncDir_fails.mono fun _ _ same => Or.inr (same ▸ published))
    (Io.syncDir_ensures.mono fun _ synced quiet => ?_)
  refine (SsTableReader.open_respects env.hashes filename synced).fails.mono fun _ after quiet' => ?_
  exact Or.inr ((quiet.trans quiet').now ▸ published)

/-! ### Replacing the log -/

/-- The log once it was removed, up to the sync of the new one. -/
def NewLog (content : Option Bytes) : Prop :=
  content = none ∨ content = some [] ∨ content = some Wal.fileHeader

theorem openLog_fails (wf : world.now.Wf) (absent : world.now.content WAL_FILENAME = none) :
    Fails (WalWriter.open WAL_FILENAME) world fun _ after =>
      Fs.Frame (· = WAL_FILENAME) world.now after.now ∧ NewLog (after.now.content WAL_FILENAME) := by
  have still : ∀ {middle after : World Fs}, Fs.Frame (· = WAL_FILENAME) world.now middle.now ∧
      NewLog (middle.now.content WAL_FILENAME) → after.now = middle.now →
      Fs.Frame (· = WAL_FILENAME) world.now after.now ∧ NewLog (after.now.content WAL_FILENAME) :=
    fun holds same => same ▸ holds
  refine Fails.bind ((ioCall_fails _).mono fun _ _ same =>
    still ⟨Fs.Frame.refl wf, Or.inl absent⟩ same)
    ((Io.openAppend_frame wf WAL_FILENAME).mono fun file opened facts => ?_)
  obtain ⟨frame, here, linked, _⟩ := facts
  rw [absent] at here
  have created : Fs.Frame (· = WAL_FILENAME) world.now opened.now ∧
      NewLog (opened.now.content WAL_FILENAME) := ⟨frame, Or.inr (Or.inl here)⟩
  refine Fails.bind (file.isEmpty_fails.mono fun _ _ same => still created same)
    (FileAppend.isEmpty_ensures.mono fun isEmpty asked facts => ?_)
  obtain ⟨_, quiet⟩ := facts
  have asked_here : asked.now.content WAL_FILENAME = some [] := quiet.now ▸ here
  have asked_linked : asked.now.dir.find? WAL_FILENAME = some file.ino := quiet.now ▸ linked
  have frame : Fs.Frame (· = WAL_FILENAME) world.now asked.now := quiet.now ▸ frame
  refine Fails.ite (fun _ => ?_) fun _ => Fails.pure _
  refine Fails.bind ((ioCall_fails _).mono fun _ _ same => still (quiet.now ▸ created) same)
    ((FileAppend.append_frame frame.wf asked_linked asked_here _).mono fun _ headed facts => ?_)
  obtain ⟨frame', held, _⟩ := facts
  have headed_new : Fs.Frame (· = WAL_FILENAME) world.now headed.now ∧
      NewLog (headed.now.content WAL_FILENAME) := ⟨frame.trans frame', Or.inr (Or.inr held)⟩
  refine Fails.bind (file.sync_fails.mono fun _ _ same => still headed_new same)
    (FileAppend.sync_ensures.mono fun _ synced quiet => ?_)
  refine Fails.bind (Io.syncDir_fails.mono fun _ _ same => still (quiet.now ▸ headed_new) same)
    fun _ _ _ => Fails.pure _

/-- The log was removed, and what is there now is nothing that a handle is open for. -/
structure Fs.LosesLog (before after : Fs) : Prop where
  frame : Fs.Frame (· = WAL_FILENAME) before after
  content : NewLog (after.content WAL_FILENAME)
  nameless : ∀ ino, before.dir.find? WAL_FILENAME = some ino → after.Nameless ino

/-- **A log that is not replaced** is the old one, or a new one that the engine does not know of. -/
theorem rotateLog_fails (wf : world.now.Wf) :
    Fails EngineInner.rotateLog (inner, world) fun _ after => after.1 = inner ∧
      (after.2.now = world.now ∨ Fs.LosesLog world.now after.2.now) := by
  have replaces : Fails (do Io.removeFile WAL_FILENAME; WalWriter.open WAL_FILENAME) world
      fun _ after => after.now = world.now ∨ Fs.LosesLog world.now after.now := by
    refine Fails.bind ((Io.removeFile_fails _).mono fun _ _ same => Or.inl same)
      (((Io.removeFile_frame wf WAL_FILENAME).and (Io.removeFile_ensures WAL_FILENAME)).mono
        fun _ removed facts => ?_)
    obtain ⟨⟨frame, gone, _⟩, same, _⟩ := facts
    refine (openLog_fails frame.wf gone).mono fun _ after facts => Or.inr ?_
    exact ⟨frame.trans facts.1, facts.2, fun ino found =>
      facts.1.nameless ino (same ▸ Fs.remove_lost wf found)⟩
  refine Fails.bind (Fails.zoom (replaces.mono fun _ after facts => ⟨rfl, facts⟩)) fun _ _ _ => nofun

/-! ### Flushes -/

/-- The state in memory once the table of a flush is registered. -/
def EngineInner.withTable (inner : EngineInner) (reader : SsTableReader) : EngineInner :=
  { inner with
    levels := { inner.levels with l0 := ⟨inner.nextSstId, reader⟩ :: inner.levels.l0 }
    nextSstId := inner.nextSstId + 1 }

/-- What a flush that fails leaves, of this state in memory and on disk. -/
inductive FlushFailure (hashes : Hashes) (lsm : Lsm) (inner : EngineInner) (fs : Fs) :
    EngineInner → Fs → Prop
  | writing {fs' : Fs} (frame : Fs.Frame (· = tmpName (sstFilename 0 lsm.nextId)) fs fs') :
      FlushFailure hashes lsm inner fs inner fs'
  | published {bytes : Bytes} {fs' : Fs} (isTable : IsTable hashes bytes lsm.memtable)
      (published : Published (sstFilename 0 lsm.nextId) bytes fs fs') :
      FlushFailure hashes lsm inner fs inner fs'
  | registered {bytes : Bytes} {reader : SsTableReader} {fs' fs'' : Fs}
      (isTable : IsTable hashes bytes lsm.memtable)
      (published : Published (sstFilename 0 lsm.nextId) bytes fs fs')
      (reads : reader.Reads hashes lsm.memtable) (small : lsm.nextId + 1 < u64Bound)
      (rotating : fs'' = fs' ∨ Fs.LosesLog fs' fs'') :
      FlushFailure hashes lsm inner fs (inner.withTable reader) fs''

theorem Published.of_frame {filename : FileName} {bytes : Bytes} {fs fs' fs'' : Fs}
    (frame : Fs.Frame (· = tmpName filename) fs fs') (published : Published filename bytes fs' fs'') :
    Published filename bytes fs fs'' :=
  ⟨(frame.mono fun _ same => Or.inl same).trans published.frame, published.held, published.gone⟩

/-- **A flush of a memtable that holds something, if it fails.** -/
theorem flushFull_fails (holds : Holds env.hashes world.now inner lsm log snapshots)
    (full : inner.memtable.isEmpty = false) :
    Fails (EngineInner.flushInner env) (inner, world) fun _ after =>
      FlushFailure env.hashes lsm inner world.now after.1 after.2.now := by
  have name : sstFilename 0 inner.nextSstId = sstFilename 0 lsm.nextId := by rw [holds.next]
  refine Fails.bind_ok rfl ?_
  rw [if_neg (by rw [full]; exact Bool.false_ne_true)]
  have entries : inner.memtable.iter = lsm.memtable.entries := by rw [← holds.memtable]; rfl
  simp only [entries, name]
  refine Fails.bind ((onWorld_fails (writeTable_fails holds.fs_wf _ _ holds.valid)).mono
    fun _ after facts => facts.1 ▸ .writing facts.2)
    (Ensures.zoom ((writeTable_ensures holds.fs_wf _ _ holds.valid).mono fun _ written facts => ?_))
  obtain ⟨⟨bytes, stored, isTable⟩, frame, _⟩ := facts
  refine Fails.bind ((onWorld_fails (publishTable_fails frame.wf stored)).mono fun _ after facts => ?_) ?_
  · obtain ⟨same, here | published⟩ := facts
    · rw [same, here]
      exact .writing frame
    · rw [same]
      exact .published isTable (published.of_frame frame)
  -- behind it the table is open
  have opens : Ensures (EngineInner.publishTable env (sstFilename 0 lsm.nextId)) written
      fun reader after => reader.Reads env.hashes lsm.memtable ∧
        Published (sstFilename 0 lsm.nextId) bytes written.now after.now := by
    refine ((EngineInner.publishTable_even _).calm
      (publishTable_ensures written.calmed_calm frame.wf stored isTable)).mono
        fun reader after facts => ⟨facts.1, facts.2.1⟩
  refine Ensures.zoom (opens.mono fun reader published facts => ?_)
  obtain ⟨reads, pub⟩ := facts
  have whole := pub.of_frame frame
  refine Fails.bind (Fails.ofOption _) ((nextId_ensures _).mono fun next _ facts => ?_)
  obtain ⟨rfl, small, rfl⟩ := facts
  rw [holds.next] at small
  refine Fails.bind_ok (by rfl) ((rotateLog_fails pub.frame.wf).mono fun _ after facts => ?_)
  rw [facts.1]
  exact .registered isTable whole reads small facts.2

/-- **A flush, if it fails.** -/
theorem flushInner_fails (holds : Holds env.hashes world.now inner lsm log snapshots) :
    Fails (EngineInner.flushInner env) (inner, world) fun _ after =>
      FlushFailure env.hashes lsm inner world.now after.1 after.2.now := by
  cases empty : inner.memtable.isEmpty with
  | false => exact flushFull_fails holds empty
  | true =>
    refine Fails.bind_ok rfl ?_
    rw [if_pos empty]
    refine (onWorld_fails (FileAppend.sync_fails _)).mono fun _ after facts => ?_
    rw [facts.1, facts.2]
    exact .writing (Fs.Frame.refl holds.fs_wf)

/-! ### Compactions -/

theorem ignore_fails {σ α : Type} (program : Prog Error σ α) {state : σ} {post : Error → σ → Prop} :
    Fails (ignore program) state post := Fails.bind (Fails.attempt program) fun _ _ _ => Fails.pure _

theorem forEach_fails {σ β : Type} {body : β → Prog Error σ Unit} {post : Error → σ → Prop}
    (never : ∀ item state, Fails (body item) state post) :
    ∀ (items : List β) (state : σ), Fails (Prog.forEach body items) state post := by
  intro items
  induction items with
  | nil => exact fun _ => Fails.pure _
  | cons first rest ih => exact fun state => Fails.bind (never first state) fun _ middle _ => ih middle

/-- **A compaction that fails** leaves the state in memory as it was: the errors behind its one change
are ignored. -/
theorem compactL0L1_fails : Fails (EngineInner.compactL0L1 env) (inner, world) fun _ after =>
    after.1 = inner := by
  have reads : ∀ {α : Type} (program : IoM α) (world : World Fs),
      Fails (onWorld program : InnerM α) (inner, world) fun _ after => after.1 = inner :=
    fun program world => Fails.zoom fun _ _ _ => rfl
  refine Fails.bind_ok rfl (Fails.bind (reads _ _) (Ensures.zoom fun merged after _ => ?_))
  refine Fails.bind ?_ fun _ _ _ => Fails.bind ?_ fun _ _ _ => Fails.zoom (ignore_fails _)
  · unfold EngineInner.installOutput
    refine Fails.ite (fun _ => ?_) fun _ => ?_
    · refine Fails.bind (reads _ _) (Ensures.zoom fun _ finished _ => ?_)
      refine Fails.bind (reads _ _) (Ensures.zoom fun reader published _ => ?_)
      exact Fails.bind (Fails.ofOption _) fun _ _ _ => nofun
    · refine Fails.bind (reads _ _) fun _ _ _ => ?_
      exact Fails.bind (Fails.ofOption _) fun _ _ _ => nofun
  · refine Fails.zoom (forEach_fails (fun id state => ?_) _ _)
    exact forEach_fails (fun level state => ignore_fails _) _ _

end Sastran

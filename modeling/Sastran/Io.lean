/-
The file system behind the `Io` trait.

A directory maps names to inodes and an inode holds bytes. A handle opened for append names its
inode, so it keeps writing to the same file after a rename and to nowhere visible after a removal; a
handle opened for reading holds the bytes, since no file is appended to while it is open for reading.
Every method of the trait is one `Device.call`: it takes full effect and is a crash point, or it is
the injected failure and has no effect.

The lemmas say what each method does to the visible contents (`Fs.content`) of a well-formed file
system (`Fs.Wf`: distinct names have distinct inodes), which is all the later modules use.
-/

import Sastran.FileNames

namespace Sastran

open Device

structure Fs where
  dir : SortedMap FileName Nat
  inodes : List Bytes

namespace Fs

/-- The directory before the engine first opens it. -/
def empty : Fs := ⟨SortedMap.empty, []⟩

/-- The bytes under a name. -/
def content (fs : Fs) (name : FileName) : Option Bytes :=
  (fs.dir.find? name).bind fun ino => fs.inodes[ino]?

/-- Distinct names have distinct inodes, and every inode exists. -/
structure Wf (fs : Fs) : Prop where
  inj : ∀ name name' ino, fs.dir.find? name = some ino → fs.dir.find? name' = some ino → name = name'
  bound : ∀ name ino, fs.dir.find? name = some ino → ino < fs.inodes.length

end Fs

abbrev IoM := Prog Error (World Fs)

/-- No file is longer than a signed 64-bit offset. -/
def maxFileLen : Nat := 2 ^ 63 - 1

/-! ### The methods -/

structure FileAppend where
  ino : Nat

structure FileRead where
  bytes : Bytes

def ioCall {α : Type} (step : Fs → Except Error (α × Fs)) : IoM α := call (.io .fault) step

/-- A call that only reads. -/
def ioRead {α : Type} (step : Fs → Except Error α) : IoM α :=
  ioCall fun fs => (step fs).map fun value => (value, fs)

namespace Io

def createDirAll : IoM Unit := ioRead fun _ => .ok ()

def syncDir : IoM Unit := ioRead fun _ => .ok ()

/-- Open for append; a missing file is created empty. -/
def openAppend (name : FileName) : IoM FileAppend := ioCall fun fs =>
  match fs.dir.find? name with
  | some ino => .ok (⟨ino⟩, fs)
  | none => .ok (⟨fs.inodes.length⟩, ⟨fs.dir.insert name fs.inodes.length, fs.inodes ++ [[]]⟩)

def openRead (name : FileName) : IoM FileRead := ioRead fun fs =>
  match fs.content name with
  | some bytes => .ok ⟨bytes⟩
  | none => .error (.io .notFound)

def rename (source target : FileName) : IoM Unit := ioCall fun fs =>
  match fs.dir.find? source with
  | some ino => .ok ((), { fs with dir := (fs.dir.erase source).insert target ino })
  | none => .error (.io .notFound)

def removeFile (name : FileName) : IoM Unit := ioCall fun fs =>
  match fs.dir.find? name with
  | some _ => .ok ((), { fs with dir := fs.dir.erase name })
  | none => .error (.io .notFound)

/-- The names in the directory, sorted. -/
def listDir : IoM (List FileName) := ioRead fun fs => .ok fs.dir.keys

end Io

namespace FileAppend

def append (file : FileAppend) (bytes : Bytes) : IoM Unit := ioCall fun fs =>
  let old := fs.inodes.getD file.ino []
  if old.length + bytes.length ≤ maxFileLen then
    .ok ((), { fs with inodes := fs.inodes.set file.ino (old ++ bytes) })
  else .error (.io .fileTooLarge)

def sync (_file : FileAppend) : IoM Unit := ioRead fun _ => .ok ()

def len (file : FileAppend) : IoM Nat := ioRead fun fs => .ok (fs.inodes.getD file.ino []).length

def isEmpty (file : FileAppend) : IoM Bool := do
  let length ← file.len
  pure (length == 0)

end FileAppend

namespace FileRead

def len (file : FileRead) : IoM Nat := ioRead fun _ => .ok file.bytes.length

/-- Read exactly `count` bytes. -/
def readAt (file : FileRead) (offset count : Nat) : IoM Bytes := ioRead fun _ =>
  if offset + count ≤ file.bytes.length then .ok (LittleEndian.slice file.bytes offset count)
  else .error (.io .unexpectedEof)

end FileRead

/-- Run a call whose error is ignored. -/
def ignore {σ α : Type} (program : Prog Error σ α) : Prog Error σ Unit := do
  let _ ← Prog.attempt program
  pure ()

theorem ignore_succeeds {σ α : Type} {program : Prog Error σ α} {state : σ} {post : σ → Prop}
    (holds : Succeeds program state fun _ after => post after) :
    Succeeds (ignore program) state fun _ after => post after := by
  obtain ⟨value, after, run, reached⟩ := holds
  exact ⟨(), after, bind_eq_ok.mpr ⟨_, _, attempt_ok run, rfl⟩, reached⟩

/-! ### Calls -/

section Calls

variable {α : Type} {world : World Fs}

theorem ioCall_ensures (step : Fs → Except Error (α × Fs)) :
    Ensures (ioCall step) world fun value after =>
      step world.now = .ok (value, after.now) ∧ Passes (· = after.now) world after :=
  call_ensures

theorem ioCall_succeeds {step : Fs → Except Error (α × Fs)} {value : α} {now : Fs}
    (calm : world.Calm) (possible : step world.now = .ok (value, now)) :
    Succeeds (ioCall step) world fun value' after =>
      value' = value ∧ after.now = now ∧ Passes (· = now) world after :=
  call_succeeds calm possible

theorem ioCall_error {step : Fs → Except Error (α × Fs)} {error : Error}
    (calm : world.Calm) (impossible : step world.now = .error error) :
    ioCall step world = .err error { world with past := world.now :: world.past } :=
  call_error calm impossible

/-- A reading call that returns left the file system as it was. -/
theorem ioRead_ensures (step : Fs → Except Error α) :
    Ensures (ioRead step) world fun value after =>
      step world.now = .ok value ∧ Quiet world after := by
  refine (ioCall_ensures _).mono fun value after holds => ?_
  obtain ⟨stepped, passes⟩ := holds
  cases read : step world.now with
  | ok value' =>
    rw [read] at stepped
    simp only [Except.map, Except.ok.injEq, Prod.mk.injEq] at stepped
    obtain ⟨rfl, same⟩ := stepped
    rw [← same] at passes
    exact ⟨rfl, same.symm, passes⟩
  | error error => rw [read] at stepped; cases stepped

theorem ioRead_succeeds {step : Fs → Except Error α} {value : α} (calm : world.Calm)
    (possible : step world.now = .ok value) :
    Succeeds (ioRead step) world fun value' after => value' = value ∧ Quiet world after := by
  have stepped : (step world.now).map (fun value => (value, world.now)) = .ok (value, world.now) := by
    rw [possible]
    rfl
  refine Succeeds.mono (ioCall_succeeds calm stepped) fun value' after holds => ?_
  obtain ⟨same, now, passes⟩ := holds
  exact ⟨same, now, passes⟩

end Calls

/-! ### Contents -/

namespace Fs

variable {fs : Fs}

theorem content_eq_some {name : FileName} {bytes : Bytes} :
    fs.content name = some bytes ↔ ∃ ino, fs.dir.find? name = some ino ∧ fs.inodes[ino]? = some bytes := by
  rw [content, Option.bind_eq_some_iff]

/-- The bytes behind a handle to a linked file. -/
theorem getD_of_content {name : FileName} {ino : Nat} {bytes : Bytes} (linked : fs.dir.find? name = some ino)
    (here : fs.content name = some bytes) : fs.inodes.getD ino [] = bytes := by
  obtain ⟨ino', found, held⟩ := content_eq_some.mp here
  rw [linked, Option.some.injEq] at found
  rw [found, List.getD_eq_getElem?_getD, held]
  rfl

theorem content_eq_none (wf : fs.Wf) {name : FileName} :
    fs.content name = none ↔ fs.dir.find? name = none := by
  unfold content
  cases found : fs.dir.find? name with
  | none => simp
  | some ino =>
    have inside := wf.bound name ino found
    simp [List.getElem?_eq_getElem inside]

theorem mem_keys_iff (wf : fs.Wf) {name : FileName} :
    name ∈ fs.dir.keys ↔ fs.content name ≠ none := by
  rw [SortedMap.mem_keys_iff, Ne, Ne, content_eq_none wf]

theorem empty_wf : empty.Wf :=
  ⟨fun _ _ _ found => (by cases found), fun _ _ found => (by cases found)⟩

@[simp] theorem content_empty (name : FileName) : empty.content name = none := rfl

/-- The file system after a missing file was created. -/
def create (fs : Fs) (name : FileName) : Fs :=
  ⟨fs.dir.insert name fs.inodes.length, fs.inodes ++ [[]]⟩

/-- The file system after a file was removed. -/
def remove (fs : Fs) (name : FileName) : Fs := { fs with dir := fs.dir.erase name }

/-- The file system after a file got another name. -/
def move (fs : Fs) (source target : FileName) (ino : Nat) : Fs :=
  { fs with dir := (fs.dir.erase source).insert target ino }

/-- The file system after bytes were appended to an inode. -/
def extend (fs : Fs) (ino : Nat) (bytes : Bytes) : Fs :=
  { fs with inodes := fs.inodes.set ino (fs.inodes.getD ino [] ++ bytes) }

theorem create_wf (wf : fs.Wf) (name : FileName) : (fs.create name).Wf := by
  constructor
  · intro first second ino one two
    simp only [create, SortedMap.find?_insert] at one two
    split at one <;> split at two
    · rename_i here there
      exact here.symm.trans there
    · cases one
      exact absurd (wf.bound _ _ two) (lt_irrefl _)
    · cases two
      exact absurd (wf.bound _ _ one) (lt_irrefl _)
    · exact wf.inj _ _ _ one two
  · intro other ino found
    simp only [create, SortedMap.find?_insert, List.length_append, List.length_singleton] at found ⊢
    split at found
    · cases found
      exact Nat.lt_succ_self _
    · exact Nat.lt_succ_of_lt (wf.bound _ _ found)

theorem content_create (wf : fs.Wf) (name other : FileName) :
    (fs.create name).content other = if name = other then some [] else fs.content other := by
  unfold content create
  rw [SortedMap.find?_insert]
  split
  · simp
  · cases found : fs.dir.find? other with
    | none => rfl
    | some ino => simp [List.getElem?_append_left (wf.bound other ino found)]

theorem remove_wf (wf : fs.Wf) (name : FileName) : (fs.remove name).Wf := by
  have kept : ∀ {other ino}, (fs.remove name).dir.find? other = some ino →
      fs.dir.find? other = some ino := by
    intro other ino found
    simp only [remove, SortedMap.find?_erase] at found
    split at found
    · cases found
    · exact found
  exact ⟨fun first second ino one two => wf.inj _ _ _ (kept one) (kept two),
    fun other ino found => wf.bound _ _ (kept found)⟩

theorem content_remove (name other : FileName) :
    (fs.remove name).content other = if name = other then none else fs.content other := by
  unfold content remove
  rw [SortedMap.find?_erase]
  split <;> rfl

theorem move_wf (wf : fs.Wf) {source target : FileName} {ino : Nat}
    (found : fs.dir.find? source = some ino) : (fs.move source target ino).Wf := by
  have kept : ∀ {other ino'}, (fs.move source target ino).dir.find? other = some ino' →
      (other = target ∧ ino' = ino) ∨
        (other ≠ target ∧ other ≠ source ∧ fs.dir.find? other = some ino') := by
    intro other ino' here
    simp only [move, SortedMap.find?_insert, SortedMap.find?_erase] at here
    split at here
    · rename_i same
      cases here
      exact Or.inl ⟨same.symm, rfl⟩
    · rename_i notTarget
      split at here
      · cases here
      · rename_i notSource
        exact Or.inr ⟨Ne.symm notTarget, Ne.symm notSource, here⟩
  constructor
  · intro first second ino' one two
    rcases kept one with ⟨here, inode⟩ | ⟨_, notSource, before⟩ <;>
      rcases kept two with ⟨there, inode'⟩ | ⟨_, notSource', before'⟩
    · rw [here, there]
    · rw [inode] at before'
      exact absurd (wf.inj _ _ _ before' found) notSource'
    · rw [inode'] at before
      exact absurd (wf.inj _ _ _ before found) notSource
    · exact wf.inj _ _ _ before before'
  · intro other ino' here
    rcases kept here with ⟨rfl, rfl⟩ | ⟨_, _, here⟩
    · exact wf.bound _ _ found
    · exact wf.bound _ _ here

theorem content_move {source target : FileName} {ino : Nat}
    (found : fs.dir.find? source = some ino) (other : FileName) :
    (fs.move source target ino).content other =
      if target = other then fs.content source
      else if source = other then none else fs.content other := by
  unfold content move
  rw [SortedMap.find?_insert, SortedMap.find?_erase, found]
  split
  · rfl
  · split <;> rfl

theorem extend_wf (wf : fs.Wf) (ino : Nat) (bytes : Bytes) : (fs.extend ino bytes).Wf :=
  ⟨wf.inj, fun name ino' found => by
    simpa [extend] using wf.bound name ino' found⟩

theorem content_extend (wf : fs.Wf) {name : FileName} {ino : Nat}
    (found : fs.dir.find? name = some ino) (bytes : Bytes) (other : FileName) :
    (fs.extend ino bytes).content other =
      if name = other then (fs.content name).map (· ++ bytes) else fs.content other := by
  unfold content extend
  have inside := wf.bound name ino found
  split
  · rename_i same
    subst same
    simp [found, List.getD_eq_getElem?_getD, inside]
  · rename_i different
    cases there : fs.dir.find? other with
    | none => rfl
    | some ino' =>
      have distinct : ino ≠ ino' := fun same => different (wf.inj _ _ _ found (same ▸ there))
      simp [List.getElem?_set_ne distinct]

/-- A file without a name, which a handle may still be open for. -/
def Nameless (fs : Fs) (ino : Nat) : Prop :=
  ino < fs.inodes.length ∧ ∀ name, fs.dir.find? name ≠ some ino

/-- Files whose names are not `touched` are as they were. -/
structure Outside (touched : FileName → Prop) (before after : Fs) : Prop where
  wf : after.Wf
  dir : ∀ other, ¬ touched other → after.dir.find? other = before.dir.find? other
  content : ∀ other, ¬ touched other → after.content other = before.content other

/-- Only the `touched` names changed, and no file that has lost its name was given one. -/
structure Frame (touched : FileName → Prop) (before after : Fs) : Prop
    extends Outside touched before after where
  nameless : ∀ ino, before.Nameless ino → after.Nameless ino

namespace Outside

variable {touched touched' : FileName → Prop} {first middle last : Fs}

theorem trans (one : Outside touched first middle) (two : Outside touched middle last) :
    Outside touched first last :=
  ⟨two.wf, fun other away => (two.dir other away).trans (one.dir other away),
    fun other away => (two.content other away).trans (one.content other away)⟩

theorem symm (outside : Outside touched first last) (wf : first.Wf) : Outside touched last first :=
  ⟨wf, fun other away => (outside.dir other away).symm, fun other away => (outside.content other away).symm⟩

theorem mono (outside : Outside touched first last) (wider : ∀ name, touched name → touched' name) :
    Outside touched' first last :=
  ⟨outside.wf, fun other away => outside.dir other fun held => away (wider other held),
    fun other away => outside.content other fun held => away (wider other held)⟩

end Outside

namespace Frame

variable {touched touched' : FileName → Prop} {first middle last : Fs}

theorem refl (wf : fs.Wf) : Frame touched fs fs := ⟨⟨wf, fun _ _ => rfl, fun _ _ => rfl⟩, fun _ => id⟩

theorem trans (one : Frame touched first middle) (two : Frame touched middle last) :
    Frame touched first last :=
  ⟨one.toOutside.trans two.toOutside, fun ino lost => two.nameless ino (one.nameless ino lost)⟩

theorem mono (frame : Frame touched first last) (wider : ∀ name, touched name → touched' name) :
    Frame touched' first last :=
  ⟨frame.toOutside.mono wider, frame.nameless⟩

end Frame

theorem create_frame (wf : fs.Wf) (name : FileName) : Frame (· = name) fs (fs.create name) := by
  refine ⟨⟨create_wf wf name, fun other away => ?_, fun other away => ?_⟩, fun ino lost => ⟨?_, ?_⟩⟩
  · exact SortedMap.find?_insert_ne _ _ (Ne.symm away)
  · rw [content_create wf, if_neg (Ne.symm away)]
  · rw [create, List.length_append]
    exact Nat.lt_add_right _ lost.1
  · intro other linked
    rw [create, SortedMap.find?_insert] at linked
    split at linked
    · cases linked
      exact absurd lost.1 (lt_irrefl _)
    · exact lost.2 other linked

theorem remove_nameless {name : FileName} {ino : Nat} (lost : ∀ other, other ≠ name →
    fs.dir.find? other ≠ some ino) (other : FileName) : (fs.remove name).dir.find? other ≠ some ino := by
  rw [remove, SortedMap.find?_erase]
  split
  · exact nofun
  · rename_i apart
    exact lost other (Ne.symm apart)

/-- A file that is removed has no name any more. -/
theorem remove_lost (wf : fs.Wf) {name : FileName} {ino : Nat} (found : fs.dir.find? name = some ino) :
    (fs.remove name).Nameless ino :=
  ⟨wf.bound name ino found, remove_nameless fun other apart linked =>
    apart (wf.inj other name ino linked found)⟩

theorem remove_frame (wf : fs.Wf) (name : FileName) : Frame (· = name) fs (fs.remove name) := by
  refine ⟨⟨remove_wf wf name, fun other away => ?_, fun other away => ?_⟩, fun ino lost =>
    ⟨lost.1, remove_nameless fun other _ => lost.2 other⟩⟩
  · exact SortedMap.find?_erase_ne _ (Ne.symm away)
  · rw [content_remove, if_neg (Ne.symm away)]

theorem move_frame (wf : fs.Wf) {source target : FileName} {ino : Nat}
    (found : fs.dir.find? source = some ino) :
    Frame (fun name => name = source ∨ name = target) fs (fs.move source target ino) := by
  refine ⟨⟨move_wf wf found, fun other away => ?_, fun other away => ?_⟩, fun ino' lost => ⟨lost.1, ?_⟩⟩
  · obtain ⟨notSource, notTarget⟩ := not_or.mp away
    rw [move, SortedMap.find?_insert_ne _ _ (Ne.symm notTarget),
      SortedMap.find?_erase_ne _ (Ne.symm notSource)]
  · obtain ⟨notSource, notTarget⟩ := not_or.mp away
    rw [content_move found, if_neg (Ne.symm notTarget), if_neg (Ne.symm notSource)]
  · intro other linked
    rw [move, SortedMap.find?_insert, SortedMap.find?_erase] at linked
    split at linked
    · cases linked
      exact lost.2 source found
    · split at linked
      · cases linked
      · exact lost.2 other linked

theorem extend_frame (wf : fs.Wf) {name : FileName} {ino : Nat}
    (found : fs.dir.find? name = some ino) (bytes : Bytes) :
    Frame (· = name) fs (fs.extend ino bytes) := by
  refine ⟨⟨extend_wf wf ino bytes, fun other away => rfl, fun other away => ?_⟩, fun ino' lost =>
    ⟨?_, lost.2⟩⟩
  · rw [content_extend wf found, if_neg (Ne.symm away)]
  · rw [extend, List.length_set]
    exact lost.1

/-- Bytes that are appended to a file without a name are not seen. -/
theorem extend_lost (wf : fs.Wf) {ino : Nat} (lost : fs.Nameless ino) (bytes : Bytes) :
    Frame (fun _ => False) fs (fs.extend ino bytes) := by
  refine ⟨⟨extend_wf wf ino bytes, fun _ _ => rfl, fun other _ => ?_⟩, fun ino' lost' => ⟨?_, lost'.2⟩⟩
  · unfold content extend
    cases found : fs.dir.find? other with
    | none => rfl
    | some ino' =>
      have apart : ino ≠ ino' := fun same => lost.2 other (same ▸ found)
      simp [List.getElem?_set_ne apart]
  · rw [extend, List.length_set]
    exact lost'.1

end Fs

/-! ### What a method that returns has done -/

namespace Io

variable {world : World Fs}

/-- A created file is empty; an existing one is opened as it is. -/
theorem openAppend_ensures (wf : world.now.Wf) (name : FileName) :
    Ensures (openAppend name) world fun file after =>
      (after.now = if world.now.content name = none then world.now.create name else world.now) ∧
      after.now.dir.find? name = some file.ino ∧ Passes (· = after.now) world after := by
  refine (ioCall_ensures _).mono fun file after holds => ?_
  obtain ⟨stepped, passes⟩ := holds
  cases found : world.now.dir.find? name with
  | some ino =>
    rw [found] at stepped
    simp only [Except.ok.injEq, Prod.mk.injEq] at stepped
    obtain ⟨rfl, same⟩ := stepped
    refine ⟨?_, by rw [← same, found], passes⟩
    rw [if_neg (by rw [Fs.content_eq_none wf, found]; exact nofun), same]
  | none =>
    rw [found] at stepped
    simp only [Except.ok.injEq, Prod.mk.injEq] at stepped
    obtain ⟨rfl, same⟩ := stepped
    refine ⟨?_, by rw [← same]; simp, passes⟩
    rw [if_pos ((Fs.content_eq_none wf).mpr found), ← same]
    rfl

/-- Opened: the handle is linked to the name, and a file that was missing is empty now. -/
theorem openAppend_frame (wf : world.now.Wf) (name : FileName) :
    Ensures (openAppend name) world fun file after =>
      Fs.Frame (· = name) world.now after.now ∧
      after.now.content name = some ((world.now.content name).getD []) ∧
      after.now.dir.find? name = some file.ino ∧ Passes (· = after.now) world after := by
  refine (openAppend_ensures wf name).mono fun file after holds => ?_
  obtain ⟨same, linked, passes⟩ := holds
  cases found : world.now.content name with
  | none =>
    rw [if_pos found] at same
    rw [same] at linked passes ⊢
    exact ⟨Fs.create_frame wf name, by rw [Fs.content_create wf, if_pos rfl]; rfl, linked, passes⟩
  | some bytes =>
    rw [if_neg (by rw [found]; exact nofun)] at same
    rw [same] at linked passes ⊢
    exact ⟨Fs.Frame.refl wf, found, linked, passes⟩

theorem openAppend_succeeds (calm : world.Calm) (name : FileName) :
    Succeeds (openAppend name) world fun _ _ => True := by
  have possible : ∃ file now, (match world.now.dir.find? name with
      | some ino => Except.ok (ε := Error) (FileAppend.mk ino, world.now)
      | none => .ok (⟨world.now.inodes.length⟩, world.now.create name)) = .ok (file, now) := by
    cases world.now.dir.find? name with
    | some ino => exact ⟨_, _, rfl⟩
    | none => exact ⟨_, _, rfl⟩
  obtain ⟨file, now, stepped⟩ := possible
  exact Succeeds.mono (ioCall_succeeds calm stepped) fun _ _ _ => trivial

theorem rename_ensures (source target : FileName) :
    Ensures (rename source target) world fun _ after =>
      (∃ ino, world.now.dir.find? source = some ino ∧ after.now = world.now.move source target ino) ∧
      Passes (· = after.now) world after := by
  refine (ioCall_ensures _).mono fun _ after holds => ?_
  obtain ⟨stepped, passes⟩ := holds
  cases found : world.now.dir.find? source with
  | some ino =>
    rw [found] at stepped
    simp only [Except.ok.injEq, Prod.mk.injEq, true_and] at stepped
    exact ⟨⟨ino, rfl, stepped.symm⟩, passes⟩
  | none => rw [found] at stepped; cases stepped

theorem removeFile_ensures (name : FileName) :
    Ensures (removeFile name) world fun _ after =>
      after.now = world.now.remove name ∧ Passes (· = after.now) world after := by
  refine (ioCall_ensures _).mono fun _ after holds => ?_
  obtain ⟨stepped, passes⟩ := holds
  cases found : world.now.dir.find? name with
  | some ino =>
    rw [found] at stepped
    simp only [Except.ok.injEq, Prod.mk.injEq, true_and] at stepped
    exact ⟨stepped.symm, passes⟩
  | none => rw [found] at stepped; cases stepped

theorem removeFile_needs (name : FileName) (wf : world.now.Wf) :
    Ensures (removeFile name) world fun _ _ => world.now.content name ≠ none := by
  refine (ioCall_ensures _).mono fun _ after holds => ?_
  obtain ⟨stepped, _⟩ := holds
  rw [Ne, Fs.content_eq_none wf]
  intro absent
  rw [absent] at stepped
  cases stepped

theorem rename_frame (wf : world.now.Wf) {source target : FileName} (different : source ≠ target) :
    Ensures (rename source target) world fun _ after =>
      Fs.Frame (fun name => name = source ∨ name = target) world.now after.now ∧
      after.now.content target = world.now.content source ∧ after.now.content source = none ∧
      Passes (· = after.now) world after := by
  refine (rename_ensures source target).mono fun _ after holds => ?_
  obtain ⟨⟨ino, found, same⟩, passes⟩ := holds
  rw [same] at passes ⊢
  refine ⟨Fs.move_frame wf found, ?_, ?_, passes⟩
  · rw [Fs.content_move found, if_pos rfl]
  · rw [Fs.content_move found, if_neg (Ne.symm different), if_pos rfl]

theorem removeFile_frame (wf : world.now.Wf) (name : FileName) :
    Ensures (removeFile name) world fun _ after =>
      Fs.Frame (· = name) world.now after.now ∧ after.now.content name = none ∧
      Passes (· = after.now) world after := by
  refine (removeFile_ensures name).mono fun _ after holds => ?_
  obtain ⟨same, passes⟩ := holds
  rw [same] at passes ⊢
  exact ⟨Fs.remove_frame wf name, by rw [Fs.content_remove, if_pos rfl], passes⟩

/-- A removal of a name that is there. -/
theorem removeFile_present (calm : world.Calm) {name : FileName} {ino : Nat}
    (found : world.now.dir.find? name = some ino) :
    Succeeds (removeFile name) world fun _ after =>
      after.now = world.now.remove name ∧ Passes (· = after.now) world after := by
  have stepped : (match world.now.dir.find? name with
      | some _ => Except.ok (ε := Error) ((), world.now.remove name)
      | none => .error (.io .notFound)) = .ok ((), world.now.remove name) := by
    rw [found]
  refine Succeeds.mono (ioCall_succeeds calm stepped) fun _ after holds => ?_
  obtain ⟨_, same, passes⟩ := holds
  rw [same]
  exact ⟨rfl, passes⟩

theorem removeFile_absent (calm : world.Calm) {name : FileName}
    (found : world.now.dir.find? name = none) :
    removeFile name world =
      .err (.io .notFound) { world with past := world.now :: world.past } := by
  have stepped : (match world.now.dir.find? name with
      | some _ => Except.ok (ε := Error) ((), world.now.remove name)
      | none => .error (.io .notFound)) = .error (.io .notFound) := by
    rw [found]
  exact ioCall_error calm stepped

theorem removeFile_succeeds (calm : world.Calm) (wf : world.now.Wf) {name : FileName}
    (present : world.now.content name ≠ none) :
    Succeeds (removeFile name) world fun _ _ => True := by
  have found : world.now.dir.find? name ≠ none := by rwa [Ne, ← Fs.content_eq_none wf]
  obtain ⟨ino, found⟩ := Option.ne_none_iff_exists'.mp found
  exact (removeFile_present calm found).mono fun _ _ _ => trivial

/-- **An ignored removal** on a faultless device: the name is gone afterwards, whether it was there
or not. -/
theorem ignore_removeFile (calm : world.Calm) (name : FileName) :
    Succeeds (ignore (removeFile name)) world fun _ after =>
      (after.now = if world.now.dir.find? name = none then world.now else world.now.remove name) ∧
      Passes (· = after.now) world after := by
  cases found : world.now.dir.find? name with
  | some ino =>
    obtain ⟨value, after, run, same, passes⟩ := removeFile_present calm found
    refine ⟨(), after, bind_eq_ok.mpr ⟨_, _, attempt_ok run, rfl⟩, ?_, passes⟩
    rw [if_neg nofun, same]
  | none =>
    refine ⟨(), _, bind_eq_ok.mpr ⟨_, _, attempt_err (removeFile_absent calm found), rfl⟩,
      by rw [if_pos rfl], rfl, [world.now], rfl, fun device member => List.mem_singleton.mp member⟩

/-- A file whose removal may fail is not there afterwards. -/
theorem ignore_removeFile_frame (calm : world.Calm) (wf : world.now.Wf) (name : FileName) :
    Succeeds (ignore (removeFile name)) world fun _ after =>
      Fs.Frame (· = name) world.now after.now ∧ after.now.content name = none ∧
      Passes (· = after.now) world after := by
  refine (ignore_removeFile calm name).mono fun _ after holds => ?_
  obtain ⟨now, passes⟩ := holds
  split at now <;> rename_i found
  · rw [now]
    exact ⟨Fs.Frame.refl wf, (Fs.content_eq_none wf).mpr found, now ▸ passes⟩
  · rw [now]
    exact ⟨Fs.remove_frame wf name, by rw [Fs.content_remove, if_pos rfl], now ▸ passes⟩

theorem createDirAll_ensures : Ensures createDirAll world fun _ after => Quiet world after :=
  (ioRead_ensures _).mono fun _ _ holds => holds.2

theorem createDirAll_succeeds (calm : world.Calm) :
    Succeeds createDirAll world fun _ _ => True :=
  Succeeds.mono (ioRead_succeeds calm rfl) fun _ _ _ => trivial

theorem syncDir_ensures : Ensures syncDir world fun _ after => Quiet world after :=
  (ioRead_ensures _).mono fun _ _ holds => holds.2

theorem syncDir_succeeds (calm : world.Calm) : Succeeds syncDir world fun _ _ => True :=
  Succeeds.mono (ioRead_succeeds calm rfl) fun _ _ _ => trivial

theorem listDir_ensures :
    Ensures listDir world fun names after => names = world.now.dir.keys ∧ Quiet world after :=
  (ioRead_ensures _).mono fun _ _ holds => ⟨(Except.ok.inj holds.1).symm, holds.2⟩

theorem listDir_succeeds (calm : world.Calm) : Succeeds listDir world fun _ _ => True :=
  Succeeds.mono (ioRead_succeeds calm rfl) fun _ _ _ => trivial

theorem openRead_ensures (name : FileName) :
    Ensures (openRead name) world fun file after =>
      world.now.content name = some file.bytes ∧ Quiet world after := by
  refine (ioRead_ensures _).mono fun file after holds => ?_
  obtain ⟨opened, quiet⟩ := holds
  cases found : world.now.content name with
  | none => rw [found] at opened; cases opened
  | some bytes =>
    rw [found] at opened
    cases opened
    exact ⟨rfl, quiet⟩

theorem openRead_succeeds (calm : world.Calm) {name : FileName}
    (present : world.now.content name ≠ none) : Succeeds (openRead name) world fun _ _ => True := by
  obtain ⟨bytes, found⟩ := Option.ne_none_iff_exists'.mp present
  have stepped : (match world.now.content name with
      | some bytes => Except.ok (ε := Error) (FileRead.mk bytes)
      | none => .error (.io .notFound)) = .ok ⟨bytes⟩ := by rw [found]
  exact Succeeds.mono (ioRead_succeeds calm stepped) fun _ _ _ => trivial

end Io

namespace FileRead

variable {world : World Fs} {file : FileRead}

theorem len_ensures :
    Ensures file.len world fun length after => length = file.bytes.length ∧ Quiet world after :=
  (ioRead_ensures _).mono fun _ _ holds => ⟨(Except.ok.inj holds.1).symm, holds.2⟩

theorem len_succeeds (calm : world.Calm) : Succeeds file.len world fun _ _ => True :=
  Succeeds.mono (ioRead_succeeds calm rfl) fun _ _ _ => trivial

theorem readAt_ensures (offset count : Nat) :
    Ensures (file.readAt offset count) world fun bytes after =>
      bytes = LittleEndian.slice file.bytes offset count ∧ offset + count ≤ file.bytes.length ∧
      Quiet world after := by
  refine (ioRead_ensures _).mono fun bytes after holds => ?_
  obtain ⟨read, quiet⟩ := holds
  split at read
  · rename_i inside
    exact ⟨(Except.ok.inj read).symm, inside, quiet⟩
  · cases read

theorem readAt_succeeds (calm : world.Calm) {offset count : Nat}
    (inside : offset + count ≤ file.bytes.length) :
    Succeeds (file.readAt offset count) world fun _ _ => True := by
  have stepped : (if offset + count ≤ file.bytes.length then
      Except.ok (ε := Error) (LittleEndian.slice file.bytes offset count)
      else .error (.io .unexpectedEof)) = .ok (LittleEndian.slice file.bytes offset count) :=
    if_pos inside
  exact Succeeds.mono (ioRead_succeeds calm stepped) fun _ _ _ => trivial

end FileRead

/-- The error of a file that would get longer than a file may be, while it is to have at most `room`
bytes. -/
def TooLarge (room : Nat) (error : Error) : Prop := error = .io .fileTooLarge ∧ maxFileLen < room

theorem TooLarge.mono {room more : Nat} (le : room ≤ more) (error : Error) (large : TooLarge room error) :
    TooLarge more error := large.imp_right fun less => less.trans_le le

namespace FileAppend

variable {world : World Fs} {file : FileAppend}

theorem sync_ensures : Ensures file.sync world fun _ after => Quiet world after :=
  (ioRead_ensures _).mono fun _ _ holds => holds.2

theorem sync_succeeds (calm : world.Calm) : Succeeds file.sync world fun _ _ => True :=
  Succeeds.mono (ioRead_succeeds calm rfl) fun _ _ _ => trivial

theorem append_ensures (bytes : Bytes) :
    Ensures (file.append bytes) world fun _ after =>
      after.now = world.now.extend file.ino bytes ∧
      (world.now.inodes.getD file.ino []).length + bytes.length ≤ maxFileLen ∧
      Passes (· = after.now) world after := by
  refine (ioCall_ensures _).mono fun _ after holds => ?_
  obtain ⟨stepped, passes⟩ := holds
  simp only at stepped
  split at stepped
  · rename_i fits
    simp only [Except.ok.injEq, Prod.mk.injEq, true_and] at stepped
    exact ⟨stepped.symm, fits, passes⟩
  · cases stepped

theorem append_frame (wf : world.now.Wf) {name : FileName} {old : Bytes}
    (linked : world.now.dir.find? name = some file.ino) (here : world.now.content name = some old)
    (bytes : Bytes) :
    Ensures (file.append bytes) world fun _ after =>
      Fs.Frame (· = name) world.now after.now ∧ after.now.content name = some (old ++ bytes) ∧
      after.now.dir.find? name = some file.ino ∧ old.length + bytes.length ≤ maxFileLen ∧
      Passes (· = after.now) world after := by
  have bytes_here := Fs.getD_of_content linked here
  refine (append_ensures bytes).mono fun _ after holds => ?_
  obtain ⟨same, fits, passes⟩ := holds
  rw [same] at passes ⊢
  refine ⟨Fs.extend_frame wf linked bytes, ?_, linked, by rwa [bytes_here] at fits, passes⟩
  rw [Fs.content_extend wf linked, if_pos rfl, here]
  rfl

theorem append_succeeds (calm : world.Calm) {bytes : Bytes}
    (fits : (world.now.inodes.getD file.ino []).length + bytes.length ≤ maxFileLen) :
    Succeeds (file.append bytes) world fun _ _ => True := by
  have stepped : (if (world.now.inodes.getD file.ino []).length + bytes.length ≤ maxFileLen then
      Except.ok (ε := Error) ((), world.now.extend file.ino bytes)
      else .error (.io .fileTooLarge)) = .ok ((), world.now.extend file.ino bytes) := if_pos fits
  exact Succeeds.mono (ioCall_succeeds calm stepped) fun _ _ _ => trivial

/-- Appending fails when the file would get too large. -/
theorem append_ends (calm : world.Calm) (bytes : Bytes) :
    Ends (TooLarge ((world.now.inodes.getD file.ino []).length + bytes.length)) (file.append bytes) world
      fun _ _ => True := by
  by_cases fits : (world.now.inodes.getD file.ino []).length + bytes.length ≤ maxFileLen
  · exact (append_succeeds calm fits).ends
  · have failed : file.append bytes world =
        .err (.io .fileTooLarge) { world with past := world.now :: world.past } :=
      ioCall_error calm (if_neg fits)
    unfold Ends
    rw [failed]
    exact ⟨rfl, not_le.mp fits⟩

theorem append_ends_linked (calm : world.Calm) {name : FileName} {old : Bytes}
    (linked : world.now.dir.find? name = some file.ino) (here : world.now.content name = some old)
    (bytes : Bytes) :
    Ends (TooLarge (old.length + bytes.length)) (file.append bytes) world fun _ _ => True := by
  rw [← Fs.getD_of_content linked here]
  exact append_ends calm bytes

theorem isEmpty_ensures :
    Ensures file.isEmpty world fun empty after =>
      empty = ((world.now.inodes.getD file.ino []).length == 0) ∧ Quiet world after := by
  refine Ensures.bind ((ioRead_ensures _).mono fun length after holds => Ensures.pure ?_)
  obtain ⟨read, quiet⟩ := holds
  cases read
  exact ⟨rfl, quiet⟩

theorem isEmpty_succeeds (calm : world.Calm) : Succeeds file.isEmpty world fun _ _ => True := by
  obtain ⟨length, after, run, _⟩ := (ioRead_succeeds calm rfl :
    Succeeds file.len world _)
  exact ⟨length == 0, after, bind_eq_ok.mpr ⟨length, after, run, rfl⟩, trivial⟩

end FileAppend

end Sastran

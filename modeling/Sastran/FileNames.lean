/-
The file names of an engine directory.

The engine keeps no manifest: which tables and snapshots exist is read off the file names. Names are
formatted (`sstFilename`, `snapshotFilename`, and `.tmp` behind either) and parsed back
(`parseSstFilename`, `parseSnapshotFilename`), where the parsers work on the stem, the part before
the last dot. The results: a formatted name parses to its level and id (`parseSstFilename_sst`,
`parseSnapshotFilename_snapshot`), and the four kinds of names are told apart by their extension.
-/

import Mathlib.Tactic.IntervalCases
import Sastran.Base

namespace Sastran

abbrev FileName := List Char

/-- Split a name at its last dot. -/
def rsplitDot (name : FileName) : Option (List Char × List Char) :=
  match name.reverse.dropWhile (· != '.') with
  | [] => none
  | _ :: before => some (before.reverse, (name.reverse.takeWhile (· != '.')).reverse)

def fileStem (name : FileName) : List Char :=
  match rsplitDot name with
  | none => name
  | some ([], _) => name
  | some (before, _) => before

def extension (name : FileName) : Option (List Char) :=
  match rsplitDot name with
  | none => none
  | some ([], _) => none
  | some (_, after) => some after

/-- The decimal form, padded with zeros to six digits. -/
def pad6 (id : Nat) : List Char :=
  let digits := Nat.toDigits 10 id
  List.replicate (6 - digits.length) '0' ++ digits

def WAL_FILENAME : FileName := "wal.log".toList

def SST_EXT : List Char := "sst".toList

def sstFilename (level id : Nat) : FileName :=
  "sst_L".toList ++ Nat.toDigits 10 level ++ '_' :: pad6 id ++ '.' :: SST_EXT

def snapshotFilename (id : Nat) : FileName := "hnsw_".toList ++ pad6 id ++ '.' :: "idx".toList

/-- The name of the file a table or snapshot is written to before it is renamed. -/
def tmpName (name : FileName) : FileName := name ++ '.' :: "tmp".toList

theorem tmpName_ne (name : FileName) : tmpName name ≠ name :=
  fun same => absurd (congrArg List.length same) (by simp [tmpName])

theorem tmpName_inj {one two : FileName} (same : tmpName one = tmpName two) : one = two :=
  List.append_cancel_right same

def stripPrefix : List Char → List Char → Option (List Char)
  | [], text => some text
  | _ :: _, [] => none
  | c :: front, d :: text => if c = d then stripPrefix front text else none

/-- The parts before and after the first underscore. -/
def splitOnceUnderscore (text : List Char) : Option (List Char × List Char) :=
  match text.dropWhile (· != '_') with
  | [] => none
  | _ :: after => some (text.takeWhile (· != '_'), after)

/-- The number a list of decimal digits denotes. -/
def decimalValue (digits : List Char) : Nat :=
  digits.foldl (fun value digit => 10 * value + (digit.toNat - 48)) 0

def stripSign : List Char → List Char
  | [] => []
  | c :: rest => if c = '+' then rest else c :: rest

/-- A decimal number below a bound: at least one digit, after at most one plus sign. -/
def parseUnsigned (bound : Nat) (text : List Char) : Option Nat :=
  let digits := stripSign text
  if digits = [] ∨ ¬ digits.all Char.isDigit then none
  else if decimalValue digits < bound then some (decimalValue digits) else none

def parseSnapshotFilename (name : FileName) : Option Nat := do
  let rest ← stripPrefix "hnsw_".toList (fileStem name)
  parseUnsigned u64Bound rest

def parseSstFilename (name : FileName) : Option (Nat × Nat) := do
  let rest ← stripPrefix "sst_L".toList (fileStem name)
  let (levelStr, idStr) ← splitOnceUnderscore rest
  let level ← parseUnsigned 256 levelStr
  let id ← parseUnsigned u64Bound idStr
  pure (level, id)

/-! ### Splitting and digits -/

theorem takeWhile_ne_append {stop : Char} {front : List Char} (clean : stop ∉ front)
    (back : List Char) : (front ++ stop :: back).takeWhile (· != stop) = front := by
  have kept : ∀ c ∈ front, (c != stop) = true := fun c member => by
    rw [bne_iff_ne]
    exact fun same => clean (same ▸ member)
  rw [List.takeWhile_append_of_pos kept, List.takeWhile_cons_of_neg (by simp), List.append_nil]

theorem dropWhile_ne_append {stop : Char} {front : List Char} (clean : stop ∉ front)
    (back : List Char) : (front ++ stop :: back).dropWhile (· != stop) = stop :: back := by
  have kept : ∀ c ∈ front, (c != stop) = true := fun c member => by
    rw [bne_iff_ne]
    exact fun same => clean (same ▸ member)
  rw [List.dropWhile_append_of_pos kept, List.dropWhile_cons_of_neg (by simp)]

theorem rsplitDot_append (front : List Char) {back : List Char} (clean : '.' ∉ back) :
    rsplitDot (front ++ '.' :: back) = some (front, back) := by
  have reversed : (front ++ '.' :: back).reverse = back.reverse ++ '.' :: front.reverse := by simp
  have clean' : '.' ∉ back.reverse := by simpa using clean
  rw [rsplitDot, reversed, dropWhile_ne_append clean', takeWhile_ne_append clean']
  simp

theorem fileStem_append {front : List Char} (nonempty : front ≠ []) {back : List Char}
    (clean : '.' ∉ back) : fileStem (front ++ '.' :: back) = front := by
  rw [fileStem, rsplitDot_append front clean]
  cases front with
  | nil => exact absurd rfl nonempty
  | cons c rest => rfl

theorem extension_append {front : List Char} (nonempty : front ≠ []) (back : List Char)
    (clean : '.' ∉ back) : extension (front ++ '.' :: back) = some back := by
  rw [extension, rsplitDot_append front clean]
  cases front with
  | nil => exact absurd rfl nonempty
  | cons c rest => rfl

theorem stripPrefix_append (front text : List Char) : stripPrefix front (front ++ text) = some text := by
  induction front with
  | nil => rfl
  | cons c rest ih => rw [List.cons_append, stripPrefix, if_pos rfl, ih]

theorem splitOnceUnderscore_append {before : List Char} (clean : '_' ∉ before) (after : List Char) :
    splitOnceUnderscore (before ++ '_' :: after) = some (before, after) := by
  rw [splitOnceUnderscore, dropWhile_ne_append clean, takeWhile_ne_append clean]

theorem digit_value {digit : Nat} (small : digit < 10) :
    (Nat.digitChar digit).toNat - 48 = digit := by
  interval_cases digit <;> rfl

theorem decimalValue_append (front : List Char) (last : Char) :
    decimalValue (front ++ [last]) = 10 * decimalValue front + (last.toNat - 48) := by
  simp [decimalValue]

theorem decimalValue_toDigits (id : Nat) : decimalValue (Nat.toDigits 10 id) = id := by
  induction id using Nat.strongRecOn with
  | ind id ih =>
    rw [Nat.toDigits_eq_if (by decide)]
    split
    · rename_i small
      have value := digit_value small
      simpa [decimalValue] using value
    · rename_i large
      rw [decimalValue_append, ih (id / 10) (by omega), digit_value (Nat.mod_lt _ (by decide))]
      omega

theorem decimalValue_replicate (count : Nat) (digits : List Char) :
    decimalValue (List.replicate count '0' ++ digits) = decimalValue digits := by
  induction count with
  | zero => rfl
  | succ count ih =>
    rw [List.replicate_succ, List.cons_append]
    exact ih

theorem decimalValue_pad6 (id : Nat) : decimalValue (pad6 id) = id := by
  rw [pad6, decimalValue_replicate, decimalValue_toDigits]

theorem isDigit_toDigits {id : Nat} {c : Char} (member : c ∈ Nat.toDigits 10 id) : c.isDigit :=
  Nat.isDigit_of_mem_toDigits (by decide) (by decide) member

theorem isDigit_pad6 {id : Nat} {c : Char} (member : c ∈ pad6 id) : c.isDigit := by
  rcases List.mem_append.mp member with member | member
  · rw [List.eq_of_mem_replicate member]
    rfl
  · exact isDigit_toDigits member

theorem toDigits_ne_nil (id : Nat) : Nat.toDigits 10 id ≠ [] := by
  rw [Nat.toDigits_eq_if (by decide)]
  split
  · exact List.cons_ne_nil _ _
  · exact List.append_ne_nil_of_right_ne_nil _ (List.cons_ne_nil _ _)

theorem pad6_ne_nil (id : Nat) : pad6 id ≠ [] :=
  List.append_ne_nil_of_right_ne_nil _ (toDigits_ne_nil id)

/-- **Digits parse to the number they denote.** -/
theorem parseUnsigned_digits (bound : Nat) {digits : List Char} (nonempty : digits ≠ [])
    (all : ∀ c ∈ digits, c.isDigit) (small : decimalValue digits < bound) :
    parseUnsigned bound digits = some (decimalValue digits) := by
  have noSign : stripSign digits = digits := by
    cases digits with
    | nil => rfl
    | cons c rest =>
      refine if_neg fun plus => ?_
      have digit := all c List.mem_cons_self
      rw [plus] at digit
      cases digit
  unfold parseUnsigned
  simp only [noSign]
  rw [if_neg, if_pos small]
  rintro (empty | bad)
  · exact nonempty empty
  · exact bad (List.all_eq_true.mpr all)

/-! ### The names of a directory -/

theorem clean_of_isDigit {digits : List Char} (all : ∀ c ∈ digits, c.isDigit) {stop : Char}
    (notDigit : stop.isDigit = false) : stop ∉ digits := fun member => by
  rw [all stop member] at notDigit
  cases notDigit

theorem sstFilename_eq (level id : Nat) :
    sstFilename level id =
      ("sst_L".toList ++ (Nat.toDigits 10 level ++ '_' :: pad6 id)) ++ '.' :: SST_EXT := by
  simp only [sstFilename, List.append_assoc]

theorem snapshotFilename_eq (id : Nat) :
    snapshotFilename id = ("hnsw_".toList ++ pad6 id) ++ '.' :: "idx".toList := rfl

@[simp] theorem extension_sst (level id : Nat) : extension (sstFilename level id) = some SST_EXT := by
  rw [sstFilename_eq]
  exact extension_append (List.append_ne_nil_of_left_ne_nil (by decide) _) _ (by decide)

@[simp] theorem extension_snapshot (id : Nat) :
    extension (snapshotFilename id) = some "idx".toList := by
  rw [snapshotFilename_eq]
  refine extension_append (List.append_ne_nil_of_left_ne_nil ?_ _) _ ?_ <;> decide

@[simp] theorem extension_wal : extension WAL_FILENAME = some "log".toList := by decide

@[simp] theorem extension_tmp {name : FileName} (nonempty : name ≠ []) :
    extension (tmpName name) = some "tmp".toList :=
  extension_append nonempty "tmp".toList (by decide)

/-- **A table's name parses to its level and id.** -/
theorem parseSstFilename_sst {level id : Nat} (low : level < 256) (small : id < u64Bound) :
    parseSstFilename (sstFilename level id) = some (level, id) := by
  have stem : fileStem (sstFilename level id) =
      "sst_L".toList ++ (Nat.toDigits 10 level ++ '_' :: pad6 id) := by
    rw [sstFilename_eq]
    exact fileStem_append (List.append_ne_nil_of_left_ne_nil (by decide) _) (by decide)
  have levelParsed := parseUnsigned_digits 256 (toDigits_ne_nil level)
    (fun _ => isDigit_toDigits) (by rw [decimalValue_toDigits]; exact low)
  have idParsed := parseUnsigned_digits u64Bound (pad6_ne_nil id)
    (fun _ => isDigit_pad6) (by rw [decimalValue_pad6]; exact small)
  rw [decimalValue_toDigits] at levelParsed
  rw [decimalValue_pad6] at idParsed
  unfold parseSstFilename
  rw [stem, stripPrefix_append]
  simp only [Option.bind_eq_bind, Option.bind_some,
    splitOnceUnderscore_append (clean_of_isDigit (fun _ => isDigit_toDigits) (by decide)),
    levelParsed, idParsed, Option.pure_def]

/-- **A snapshot's name parses to its id.** -/
theorem parseSnapshotFilename_snapshot {id : Nat} (small : id < u64Bound) :
    parseSnapshotFilename (snapshotFilename id) = some id := by
  have stem : fileStem (snapshotFilename id) = "hnsw_".toList ++ pad6 id := by
    rw [snapshotFilename_eq]
    exact fileStem_append (List.append_ne_nil_of_left_ne_nil (by decide) _) (by decide)
  have idParsed := parseUnsigned_digits u64Bound (pad6_ne_nil id)
    (fun _ => isDigit_pad6) (by rw [decimalValue_pad6]; exact small)
  rw [decimalValue_pad6] at idParsed
  unfold parseSnapshotFilename
  rw [stem, stripPrefix_append]
  exact idParsed

theorem parseSnapshotFilename_sst (level id : Nat) :
    parseSnapshotFilename (sstFilename level id) = none := by
  have stem : fileStem (sstFilename level id) =
      "sst_L".toList ++ (Nat.toDigits 10 level ++ '_' :: pad6 id) := by
    rw [sstFilename_eq]
    exact fileStem_append (List.append_ne_nil_of_left_ne_nil (by decide) _) (by decide)
  unfold parseSnapshotFilename
  rw [stem]
  rfl

theorem parseSnapshotFilename_wal : parseSnapshotFilename WAL_FILENAME = none := by decide

/-- A temporary name keeps the whole name as its stem, which is no number. -/
theorem parseSnapshotFilename_tmp_snapshot (id : Nat) :
    parseSnapshotFilename (tmpName (snapshotFilename id)) = none := by
  have stem : fileStem (tmpName (snapshotFilename id)) =
      "hnsw_".toList ++ (pad6 id ++ '.' :: "idx".toList) := by
    rw [tmpName, fileStem_append (by simp [snapshotFilename]) (by decide), snapshotFilename,
      List.append_assoc]
  have bad : parseUnsigned u64Bound (pad6 id ++ '.' :: "idx".toList) = none := by
    have dot : '.' ∈ stripSign (pad6 id ++ '.' :: "idx".toList) := by
      cases digits : pad6 id with
      | nil => exact absurd digits (pad6_ne_nil id)
      | cons c rest =>
        simp only [List.cons_append, stripSign]
        split <;> simp
    unfold parseUnsigned
    rw [if_pos]
    refine Or.inr fun all => ?_
    have digit := List.all_eq_true.mp all _ dot
    exact absurd digit (by decide)
  unfold parseSnapshotFilename
  rw [stem, stripPrefix_append]
  exact bad

theorem parseSnapshotFilename_tmp_sst (level id : Nat) :
    parseSnapshotFilename (tmpName (sstFilename level id)) = none := by
  have stem : fileStem (tmpName (sstFilename level id)) = sstFilename level id := by
    rw [tmpName, fileStem_append (by simp [sstFilename]) (by decide)]
  unfold parseSnapshotFilename
  rw [stem]
  rfl

theorem sstFilename_inj {level id level' id' : Nat} (low : level < 256) (low' : level' < 256)
    (small : id < u64Bound) (small' : id' < u64Bound)
    (same : sstFilename level id = sstFilename level' id') : level = level' ∧ id = id' := by
  have parsed := parseSstFilename_sst low small
  rw [same, parseSstFilename_sst low' small'] at parsed
  simpa using Option.some.inj parsed.symm

theorem snapshotFilename_inj {id id' : Nat} (small : id < u64Bound) (small' : id' < u64Bound)
    (same : snapshotFilename id = snapshotFilename id') : id = id' := by
  have parsed := parseSnapshotFilename_snapshot small
  rw [same, parseSnapshotFilename_snapshot small'] at parsed
  exact Option.some.inj parsed.symm

theorem sstFilename_ne_nil (level id : Nat) : sstFilename level id ≠ [] := by
  rw [sstFilename_eq]
  simp

theorem snapshotFilename_ne_nil (id : Nat) : snapshotFilename id ≠ [] := by
  rw [snapshotFilename_eq]
  simp

/-- Names with different extensions are different. -/
theorem ne_of_extension {name name' : FileName} (different : extension name ≠ extension name') :
    name ≠ name' := fun same => different (same ▸ rfl)

end Sastran

/-
The table reader on files nobody wrote.

`open` trusts the four numbers of the footer: nothing protects them, and the bounds checks add them up
before anything is compared. `Footer.Bounded` says which footers keep these sums in 64 bits, and
`opens_safely_iff` that on a file with any content `open` ends with a reader or with a report of
corruption, and reads inside the file only, exactly for these.

The iterator reports a block it cannot load once and then ends; a malformed entry leaves it where it
is. `WholeBlocks` says that the blocks the iterator gets to are sequences of whole entries, and
`stops_iff` that iterating over a file with any content ends, and yields nothing behind an error,
exactly for these files.
-/

import Sastran.SsTable.Reader

namespace Sastran

open Device LittleEndian

open SsTable

/-! ### The footer -/

namespace SsTable

/-- The fields of a footer. -/
structure Footer where
  indexOffset : Nat
  indexLength : Nat
  bloomOffset : Nat
  bloomLength : Nat
  magic : Bytes

/-- The footer of a file. -/
def footerOf (bytes : Bytes) : Footer :=
  let footer := slice bytes (bytes.length - FOOTER_LEN) FOOTER_LEN
  ⟨leNat (slice footer 0 8), leNat (slice footer 8 8), leNat (slice footer 16 8),
    leNat (slice footer 24 8), slice footer 32 8⟩

namespace Footer

/-- The two sums that are compared to the length of the file. -/
def indexEnd (footer : Footer) : Nat := footer.indexOffset + footer.indexLength + FOOTER_LEN

def bloomEnd (footer : Footer) : Nat :=
  footer.bloomOffset + footer.bloomLength + footer.indexLength + FOOTER_LEN

/-- The index sum is a 64-bit number, and so is the filter's sum if it comes to that. -/
def Bounded (footer : Footer) (fileLen : Nat) : Prop :=
  footer.magic = FOOTER_MAGIC → footer.indexEnd < u64Bound ∧
    (footer.indexEnd ≤ fileLen → footer.bloomLength ≠ 0 → footer.bloomEnd < u64Bound)

/-- The checks pass, made with numbers of 64 bits. -/
def Passes (footer : Footer) (fileLen : Nat) : Prop :=
  footer.magic = FOOTER_MAGIC ∧ footer.indexEnd % u64Bound ≤ fileLen ∧
    (footer.bloomLength ≠ 0 → footer.bloomEnd % u64Bound ≤ fileLen)

/-- Index and filter are inside the file, before the footer. -/
def Inside (footer : Footer) (fileLen : Nat) : Prop :=
  footer.indexOffset + footer.indexLength ≤ fileLen - FOOTER_LEN ∧
    (footer.bloomLength ≠ 0 → footer.bloomOffset + footer.bloomLength ≤ fileLen - FOOTER_LEN)

/-- Where nothing wraps around, the checks mean what they say. -/
theorem Bounded.inside {footer : Footer} {fileLen : Nat} (bounded : footer.Bounded fileLen)
    (passes : footer.Passes fileLen) : footer.Inside fileLen := by
  obtain ⟨magic, index, bloom⟩ := passes
  obtain ⟨small, small'⟩ := bounded magic
  rw [Nat.mod_eq_of_lt small] at index
  refine ⟨?_, fun filled => ?_⟩
  · rw [indexEnd] at index
    omega
  · have within := bloom filled
    rw [Nat.mod_eq_of_lt (small' index filled), bloomEnd] at within
    omega

end Footer

end SsTable

/-! ### Errors of the parsers -/

/-- A report of corruption. -/
def Error.IsCorruption (error : Error) : Prop := ∃ text, error = .corruption text

namespace SsTable

variable {hashes : Hashes}

theorem unchecked_error {short mismatch : String} {bytes : Bytes} {error : Error}
    (failed : unchecked hashes short mismatch bytes = .error error) : error.IsCorruption := by
  unfold unchecked at failed
  simp only at failed
  split_ifs at failed
  · exact ⟨_, (Except.error.inj failed).symm⟩
  · exact ⟨_, (Except.error.inj failed).symm⟩

theorem parseIndexEntries_error {fuel : Nat} {payload : Bytes} {error : Error}
    (failed : parseIndexEntries fuel payload = .error error) : error.IsCorruption := by
  induction fuel generalizing payload with
  | zero => cases failed
  | succ fuel ih =>
    rw [parseIndexEntries] at failed
    simp only at failed
    split_ifs at failed
    · exact ⟨_, (Except.error.inj failed).symm⟩
    · exact ⟨_, (Except.error.inj failed).symm⟩
    · split at failed
      · rename_i inner found
        obtain rfl := Except.error.inj failed
        exact ih found
      · cases failed

theorem parseIndexBlock_error {bytes : Bytes} {error : Error}
    (failed : parseIndexBlock hashes bytes = .error error) : error.IsCorruption := by
  unfold parseIndexBlock at failed
  split at failed
  · rename_i inner found
    obtain rfl := Except.error.inj failed
    exact unchecked_error found
  · exact parseIndexEntries_error failed

end SsTable

theorem BloomFilter.decode_error {hashes : Hashes} {bytes : Bytes} {error : Error}
    (failed : BloomFilter.decode hashes bytes = .error error) : error.IsCorruption := by
  unfold decode at failed
  simp only at failed
  split_ifs at failed
  all_goals exact ⟨_, (Except.error.inj failed).symm⟩

/-! ### Opening any file -/

namespace SsTableReader

variable {hashes : Hashes} {world : World Fs} {name : FileName} {bytes : Bytes}

/-- What a parser that only reports corruption leaves of a run. -/
theorem ends_ofExcept {α : Type} {result : Except Error α} {post : α → World Fs → Prop}
    (good : ∀ value, result = .ok value → post value world)
    (bad : ∀ error, result = .error error → error.IsCorruption) :
    Ends Error.IsCorruption (Prog.ofExcept result) world post := by
  cases result with
  | ok value => exact good value rfl
  | error error => exact bad error rfl

/-- A read inside the file. -/
theorem readAt_ends {file : FileRead} (calm : world.Calm) {offset count : Nat}
    (inside : offset + count ≤ file.bytes.length) :
    Ends Error.IsCorruption (file.readAt offset count) world fun read after =>
      read = slice file.bytes offset count ∧ after.Calm := by
  refine (((FileRead.readAt_succeeds calm inside).and_ensures
    (FileRead.readAt_ensures _ _)).mono fun read after holds => ?_).ends
  exact ⟨holds.2.1, holds.2.2.2.calm calm⟩

theorem readBloom_ends {file : FileRead} (calm : world.Calm) {offset length : Nat}
    (inside : length ≠ 0 → offset + length ≤ file.bytes.length) :
    Ends Error.IsCorruption (readBloom hashes file offset length) world fun _ _ => True := by
  unfold readBloom
  by_cases empty : length = 0
  · rw [if_pos empty]
    exact Ends.pure trivial
  · rw [if_neg empty]
    refine Ends.bind ((readAt_ends calm (inside empty)).mono fun read after holds => ?_)
    exact Ends.bind (ends_ofExcept (fun filter _ => Ends.pure trivial)
      fun error failed => BloomFilter.decode_error failed)

/-- The sums of the footer in the order the code takes them. -/
theorem indexEnd_eq (footer : Footer) :
    [footer.indexOffset, footer.indexLength, FOOTER_LEN].sum = footer.indexEnd := by
  simp only [List.sum_cons, List.sum_nil, Footer.indexEnd]
  omega

theorem bloomEnd_eq (footer : Footer) :
    [footer.bloomOffset, footer.bloomLength, footer.indexLength, FOOTER_LEN].sum =
      footer.bloomEnd := by
  simp only [List.sum_cons, List.sum_nil, Footer.bloomEnd]
  omega

/-- The part of `open` behind the footer. -/
def openBody (hashes : Hashes) (file : FileRead) (fileLen : Nat) (footer : Footer) :
    IoM SsTableReader :=
  if footer.magic ≠ FOOTER_MAGIC then
    Prog.throw (.corruption
      s!"SSTable footer magic mismatch: got {footer.magic}, expected {FOOTER_MAGIC}")
  else do
    let indexEnd ← Prog.ofOption
      (checkedSum [footer.indexOffset, footer.indexLength, FOOTER_LEN])
    if indexEnd > fileLen then
      Prog.throw (.corruption (s!"SSTable index bounds out of range: offset={footer.indexOffset}, " ++
        s!"length={footer.indexLength}, file_len={fileLen}"))
    else
      checkBloomBounds footer.bloomOffset footer.bloomLength footer.indexLength fileLen
      let indexBytes ← file.readAt footer.indexOffset footer.indexLength
      let index ← Prog.ofExcept (parseIndexBlock hashes indexBytes)
      let bloom ← readBloom hashes file footer.bloomOffset footer.bloomLength
      pure ⟨file, index, bloom⟩

/-- On a file that has a footer, `open` reads it and goes on with its fields. -/
theorem open_body (hashes : Hashes) (calm : world.Calm) (stored : world.now.content name = some bytes)
    (long : FOOTER_LEN ≤ bytes.length) :
    ∃ middle : World Fs, middle.Calm ∧ SsTableReader.open hashes name world =
      openBody hashes ⟨bytes⟩ bytes.length (footerOf bytes) middle := by
  obtain ⟨file, one, ran, _, content, quiet⟩ :=
    (Io.openRead_succeeds calm (by rw [stored]; exact nofun)).and_ensures
      (Io.openRead_ensures name)
  obtain ⟨bytes'⟩ := file
  obtain rfl : bytes = bytes' := Option.some.inj (stored.symm.trans content)
  obtain ⟨length, two, ran', _, rfl, quiet'⟩ :=
    (FileRead.len_succeeds (quiet.calm calm) : Succeeds (FileRead.len ⟨bytes⟩) one _).and_ensures
      FileRead.len_ensures
  have calm' := (quiet.trans quiet').calm calm
  have last : bytes.length - FOOTER_LEN + FOOTER_LEN ≤ bytes.length := by omega
  obtain ⟨footer, three, ran'', _, rfl, _, quiet''⟩ :=
    (FileRead.readAt_succeeds calm' last : Succeeds (FileRead.readAt ⟨bytes⟩ _ _) two _).and_ensures
      (FileRead.readAt_ensures _ _)
  refine ⟨three, quiet''.calm calm', ?_⟩
  unfold SsTableReader.open
  rw [bind_ok ran, bind_ok ran', if_neg (not_lt.mpr long), bind_ok ran'']
  rfl

/-- **A footer whose sums fit**: opening ends with a reader or with a report of corruption. -/
theorem openBody_ends (hashes : Hashes) (calm : world.Calm) {footer : Footer}
    (bounded : footer.Bounded bytes.length) :
    Ends Error.IsCorruption (openBody hashes ⟨bytes⟩ bytes.length footer) world fun _ _ => True := by
  unfold openBody
  by_cases magic : footer.magic = FOOTER_MAGIC
  · obtain ⟨small, small'⟩ := bounded magic
    rw [if_neg (not_not_intro magic), checkedSum_eq (by rwa [indexEnd_eq]), indexEnd_eq]
    refine Ends.bind (Ends.pure ?_)
    by_cases past : footer.indexEnd > bytes.length
    · rw [if_pos past]
      exact ⟨_, rfl⟩
    · rw [if_neg past]
      have indexIn : footer.indexOffset + footer.indexLength ≤ bytes.length := by
        rw [Footer.indexEnd] at past
        omega
      -- The filter's check throws, or its range is inside the file.
      have checked : Ends Error.IsCorruption (checkBloomBounds footer.bloomOffset footer.bloomLength
          footer.indexLength bytes.length) world fun _ after => after = world ∧
            (footer.bloomLength ≠ 0 → footer.bloomOffset + footer.bloomLength ≤ bytes.length) := by
        unfold checkBloomBounds
        by_cases empty : footer.bloomLength = 0
        · rw [if_pos empty]
          exact Ends.pure ⟨rfl, fun filled => absurd empty filled⟩
        · rw [if_neg empty, checkedSum_eq (by rw [bloomEnd_eq]; exact small' (not_lt.mp past) empty),
            bloomEnd_eq]
          refine Ends.bind (Ends.pure ?_)
          by_cases behind : footer.bloomEnd > bytes.length
          · rw [if_pos behind]
            exact ⟨_, rfl⟩
          · rw [if_neg behind]
            rw [Footer.bloomEnd] at behind
            exact Ends.pure ⟨rfl, fun _ => by omega⟩
      refine Ends.bind (checked.mono fun _ middle holds => ?_)
      obtain ⟨rfl, bloomIn⟩ := holds
      refine Ends.bind ((readAt_ends calm indexIn).mono fun read later holds => ?_)
      refine Ends.bind (ends_ofExcept (fun index _ => ?_) fun error failed =>
        parseIndexBlock_error failed)
      exact Ends.bind ((readBloom_ends holds.2 bloomIn).mono fun _ _ _ => Ends.pure trivial)
  · rw [if_pos magic]
    exact ⟨_, rfl⟩

/-- **A footer whose sums do not fit**: the addition overflows. -/
theorem openBody_stuck {footer : Footer} (overflows : ¬ footer.Bounded bytes.length) :
    openBody hashes ⟨bytes⟩ bytes.length footer world = .stuck := by
  have none_of : ∀ {numbers : List Nat}, ¬ numbers.sum < u64Bound → checkedSum numbers = none :=
    fun large => if_neg large
  unfold Footer.Bounded at overflows
  push Not at overflows
  obtain ⟨magic, overflows⟩ := overflows
  unfold openBody
  rw [if_neg (not_not_intro magic)]
  by_cases small : footer.indexEnd < u64Bound
  · obtain ⟨inside, filled, large⟩ := overflows small
    rw [checkedSum_eq (by rwa [indexEnd_eq]), indexEnd_eq]
    refine (bind_ok (pure_eq footer.indexEnd world) _).trans ?_
    rw [if_neg (not_lt.mpr inside)]
    refine bind_stuck ?_ _
    unfold checkBloomBounds
    rw [if_neg filled, none_of (by rw [bloomEnd_eq]; exact not_lt.mpr large)]
    exact bind_stuck rfl _
  · rw [none_of (by rwa [indexEnd_eq])]
    exact bind_stuck rfl _

/-- Opening the file does not panic and ends with a reader or a report of corruption, and where the
bounds checks pass, what is read behind them is inside the file. -/
structure OpensSafely (hashes : Hashes) (name : FileName) (bytes : Bytes) (world : World Fs) :
    Prop where
  ends : (∃ reader after, SsTableReader.open hashes name world = .ok reader after) ∨
    ∃ text after, SsTableReader.open hashes name world = .err (.corruption text) after
  inside : (footerOf bytes).Passes bytes.length → (footerOf bytes).Inside bytes.length

/-- **A file with any content opens safely exactly if the sums of its footer fit.** -/
theorem opens_safely_iff (hashes : Hashes) (calm : world.Calm)
    (stored : world.now.content name = some bytes) (long : FOOTER_LEN ≤ bytes.length) :
    OpensSafely hashes name bytes world ↔ (footerOf bytes).Bounded bytes.length := by
  obtain ⟨middle, calm', run⟩ := open_body hashes calm stored long
  constructor
  · intro safe
    by_contra overflows
    have stuck := run.trans (openBody_stuck overflows)
    rcases safe.ends with ⟨reader, after, ended⟩ | ⟨text, after, ended⟩
    · rw [stuck] at ended
      cases ended
    · rw [stuck] at ended
      cases ended
  · intro bounded
    refine ⟨?_, bounded.inside⟩
    rw [run]
    rcases (openBody_ends hashes calm' bounded).cases with
      ⟨reader, after, ended, _⟩ | ⟨error, after, ended, text, rfl⟩
    · exact Or.inl ⟨reader, after, ended⟩
    · exact Or.inr ⟨text, after, ended⟩

/-- A table of two blocks with a filter. -/
theorem opens_safely_table :
    let hashes : Hashes := ⟨fun _ => 0, fun _ => (0, 0)⟩
    let bytes := tableBytes hashes [[([5], .put [6]), ([6], .tombstone)], [([7], .put [8])]]
      (some (BloomFilter.new 3 10))
    (footerOf bytes).bloomLength = 21 ∧
      OpensSafely hashes ['t'] bytes (World.fresh ((Fs.empty.create ['t']).extend 0 bytes)) := by
  intro hashes bytes
  have stored : ((Fs.empty.create ['t']).extend 0 bytes).content ['t'] = some bytes := by
    decide +kernel
  have bounded : (footerOf bytes).Bounded bytes.length := by
    unfold Footer.Bounded
    decide +kernel
  have opens := opens_safely_iff hashes (World.fresh_calm _) stored (by decide +kernel)
  exact ⟨by decide +kernel, opens.mpr bounded⟩

/-- A footer that puts an index of one byte at the last 64-bit offset: the sum overflows. -/
theorem opens_safely_fails :
    let hashes : Hashes := ⟨fun _ => 0, fun _ => (0, 0)⟩
    ¬ ∀ name bytes (world : World Fs), world.Calm → world.now.content name = some bytes →
      FOOTER_LEN ≤ bytes.length → OpensSafely hashes name bytes world := by
  intro hashes claimed
  obtain ⟨bytes, bytesDef⟩ : ∃ bytes, bytes = footer (2 ^ 64 - 1) 1 0 0 := ⟨_, rfl⟩
  have calm := World.fresh_calm ((Fs.empty.create ['t']).extend 0 bytes)
  have stored : ((Fs.empty.create ['t']).extend 0 bytes).content ['t'] = some bytes := by
    rw [bytesDef]
    decide +kernel
  have long : FOOTER_LEN ≤ bytes.length := by
    rw [bytesDef]
    decide +kernel
  have overflows : ¬ (footerOf bytes).Bounded bytes.length := by
    rw [bytesDef]
    unfold Footer.Bounded
    decide +kernel
  obtain ⟨middle, _, run⟩ := open_body hashes calm stored long
  have stuck := run.trans (openBody_stuck overflows)
  rcases (claimed _ _ _ calm stored long).ends with ⟨reader, after, ended⟩ | ⟨text, after, ended⟩
  · rw [stuck] at ended
    cases ended
  · rw [stuck] at ended
    cases ended

end SsTableReader

/-! ### Whole entries -/

namespace SsTable

/-- The bytes are a sequence of whole entries. -/
inductive Whole : Bytes → Prop
  | nil : Whole []
  | cons {block : Bytes} {key : Key} {entry : Entry} {size : Nat}
      (decoded : decodeEntry block = .ok (key, entry, size)) (rest : Whole (block.drop size)) :
      Whole block

/-- What is read of the block an index entry names. -/
def blockAt (hashes : Hashes) (bytes : Bytes) (entry : IndexEntry) : Except Error Bytes :=
  if entry.offset + entry.length ≤ bytes.length then
    unchecked hashes "SSTable data block shorter than CRC trailer"
      "SSTable data block CRC mismatch in iterator" (slice bytes entry.offset entry.length)
  else .error (.io .unexpectedEof)

/-- The blocks up to the first one that cannot be read are sequences of whole entries. -/
def WholeBlocks (hashes : Hashes) (bytes : Bytes) : List IndexEntry → Prop
  | [] => True
  | entry :: rest => ∀ block, blockAt hashes bytes entry = .ok block →
      Whole block ∧ WholeBlocks hashes bytes rest

/-- The index a file's footer points to. -/
def indexIn (hashes : Hashes) (bytes : Bytes) : Except Error (List IndexEntry) :=
  parseIndexBlock hashes
    (slice bytes (footerOf bytes).indexOffset (footerOf bytes).indexLength)

variable {hashes : Hashes}

/-- An entry has bytes, and they are the block's. -/
theorem decodeEntry_size {block : Bytes} {key : Key} {entry : Entry} {size : Nat}
    (decoded : decodeEntry block = .ok (key, entry, size)) : 0 < size ∧ size ≤ block.length := by
  unfold decodeEntry at decoded
  simp only at decoded
  split_ifs at decoded
  all_goals
    simp only [Except.ok.injEq, Prod.mk.injEq] at decoded
    omega

theorem Whole.of_decoded {block : Bytes} {key : Key} {entry : Entry} {size : Nat}
    (decoded : decodeEntry block = .ok (key, entry, size)) :
    Whole block ↔ Whole (block.drop size) := by
  constructor
  · intro whole
    cases whole with
    | nil =>
      rw [List.drop_nil]
      exact .nil
    | cons decoded' rest =>
      rw [decoded] at decoded'
      cases decoded'
      exact rest
  · exact Whole.cons decoded

theorem Whole.not_failed {block : Bytes} {error : Error} (filled : block ≠ [])
    (failed : decodeEntry block = .error error) : ¬ Whole block := by
  intro whole
  cases whole with
  | nil => exact filled rfl
  | cons decoded rest =>
    rw [failed] at decoded
    cases decoded

theorem blockAt_length {bytes block : Bytes} {entry : IndexEntry}
    (read : blockAt hashes bytes entry = .ok block) : block.length < entry.length := by
  unfold blockAt unchecked at read
  simp only at read
  split_ifs at read with inside short
  rw [← Except.ok.inj read, List.length_take]
  have length := slice_length inside
  omega

end SsTable

/-! ### Iterating over any file -/

namespace SsTableIterator

variable {hashes : Hashes} {world : World Fs} {iterator : SsTableIterator}

/-- The bytes between the iterator and its end: of its block, and of the blocks behind it. -/
def bytesLeft (iterator : SsTableIterator) : Nat :=
  match iterator.currentBlock with
  | some block => (block.length - iterator.pos) +
      ((iterator.index.drop (iterator.blockIdx + 1)).map IndexEntry.length).sum
  | none => ((iterator.index.drop iterator.blockIdx).map IndexEntry.length).sum

/-- What the iterator will still decode is whole. -/
def Sound (hashes : Hashes) (iterator : SsTableIterator) : Prop :=
  match iterator.currentBlock with
  | some block => Whole (block.drop iterator.pos) ∧
      WholeBlocks hashes iterator.file.bytes (iterator.index.drop (iterator.blockIdx + 1))
  | none => WholeBlocks hashes iterator.file.bytes (iterator.index.drop iterator.blockIdx)

/-- The iterator has no block and no index entry left. -/
def Done (iterator : SsTableIterator) : Prop :=
  iterator.currentBlock = none ∧ iterator.index.length ≤ iterator.blockIdx

/-- The rounds a call may still take. -/
def roundsLeft (iterator : SsTableIterator) : Nat :=
  (iterator.index.length - iterator.blockIdx) + if iterator.currentBlock.isSome then 1 else 0

theorem Done.sound (done : iterator.Done) : iterator.Sound hashes := by
  unfold Sound
  rw [done.1, List.drop_eq_nil_of_le done.2]
  exact trivial

/-- A call or a round that came to a result, seen from the iterator it started with. -/
def Moves (hashes : Hashes) (iterator : SsTableIterator) : SsTableIterator ⊕ Item → Prop
  | .inl next => (next.Sound hashes ↔ iterator.Sound hashes) ∧ next.bytesLeft ≤ iterator.bytesLeft ∧
      next.roundsLeft < iterator.roundsLeft ∧ next.index = iterator.index
  | .inr (none, next) => iterator.Sound hashes ∧ next.Done
  | .inr (some (.ok _), next) => (next.Sound hashes ↔ iterator.Sound hashes) ∧
      next.bytesLeft < iterator.bytesLeft
  | .inr (some (.error _), next) => (iterator.Sound hashes ∧ next.Done) ∨
      (¬ iterator.Sound hashes ∧ ¬ next.Sound hashes)

/-- The end of a round, in a block. -/
theorem yieldFrom_moves {block : Bytes} (loaded : iterator.currentBlock = some block) :
    Moves hashes iterator (iterator.yieldFrom block) := by
  have sound : iterator.Sound hashes ↔ Whole (block.drop iterator.pos) ∧
      WholeBlocks hashes iterator.file.bytes (iterator.index.drop (iterator.blockIdx + 1)) := by
    rw [Sound, loaded]
  have left : iterator.bytesLeft = (block.length - iterator.pos) +
      ((iterator.index.drop (iterator.blockIdx + 1)).map IndexEntry.length).sum := by
    rw [bytesLeft, loaded]
  unfold yieldFrom
  by_cases ended : iterator.pos ≥ block.length
  · rw [if_pos ended]
    have rounds : iterator.roundsLeft = iterator.index.length - iterator.blockIdx + 1 := by
      rw [roundsLeft, loaded]
      rfl
    refine ⟨?_, ?_, ?_, rfl⟩
    · rw [sound, List.drop_eq_nil_of_le ended]
      exact ⟨fun rest => ⟨.nil, rest⟩, fun both => both.2⟩
    · rw [left]
      exact Nat.le_add_left ..
    · rw [rounds]
      show iterator.index.length - (iterator.blockIdx + 1) + 0 < _
      omega
  · rw [if_neg ended]
    have filled : block.drop iterator.pos ≠ [] := by
      intro empty
      exact ended (List.drop_eq_nil_iff.mp empty)
    cases decoded : decodeEntry (block.drop iterator.pos) with
    | error error =>
      have broken : ¬ iterator.Sound hashes := fun holds =>
        Whole.not_failed filled decoded (sound.mp holds).1
      exact Or.inr ⟨broken, broken⟩
    | ok result =>
      obtain ⟨key, entry, size⟩ := result
      obtain ⟨some_bytes, within⟩ := decodeEntry_size decoded
      rw [List.length_drop] at within
      refine ⟨?_, ?_⟩
      · rw [sound, Whole.of_decoded decoded, List.drop_drop]
        show (match iterator.currentBlock with
          | some block => Whole (block.drop (iterator.pos + size)) ∧ _
          | none => _) ↔ _
        rw [loaded]
      · rw [left]
        show (match iterator.currentBlock with
          | some block => (block.length - (iterator.pos + size)) + _
          | none => _) < _
        rw [loaded]
        simp only
        omega

/-- The iterator after it loaded the block it is in front of. -/
theorem loaded_moves {block : Bytes} {entry : IndexEntry} {result : SsTableIterator ⊕ Item}
    (waiting : iterator.currentBlock = none) (here : iterator.index[iterator.blockIdx]? = some entry)
    (read : blockAt hashes iterator.file.bytes entry = .ok block)
    (moves : Moves hashes { iterator with currentBlock := some block, pos := 0 } result)
    (rounds : ∀ next, result = .inl next → next.roundsLeft < iterator.roundsLeft) :
    Moves hashes iterator result := by
  have inside := (List.getElem?_eq_some_iff.mp here).1
  have split : iterator.index.drop iterator.blockIdx =
      entry :: iterator.index.drop (iterator.blockIdx + 1) := by
    rw [List.drop_eq_getElem_cons inside, (List.getElem?_eq_some_iff.mp here).2]
  have sound : Sound hashes { iterator with currentBlock := some block, pos := 0 } ↔
      iterator.Sound hashes := by
    show Whole (block.drop 0) ∧ _ ↔ _
    rw [Sound, waiting, List.drop_zero]
    simp only
    rw [split, WholeBlocks, read]
    constructor
    · rintro both _ ⟨⟩
      exact both
    · exact fun all => all block rfl
  have left : bytesLeft { iterator with currentBlock := some block, pos := 0 } <
      iterator.bytesLeft := by
    have short := blockAt_length read
    show block.length - 0 + _ < _
    rw [bytesLeft, waiting]
    simp only
    rw [split, List.map_cons, List.sum_cons]
    omega
  match result, moves with
  | .inl next, moves =>
    obtain ⟨same, fewer, _, index⟩ := moves
    exact ⟨same.trans sound, fewer.trans left.le, rounds next rfl, index⟩
  | .inr (none, next), moves => exact ⟨sound.mp moves.1, moves.2⟩
  | .inr (some (.ok _), next), moves => exact ⟨moves.1.trans sound, moves.2.trans left⟩
  | .inr (some (.error _), next), moves =>
    rw [Moves, sound] at moves
    exact moves

/-- Reading a block gives what the file has there, or an error. -/
theorem readBlock_attempt (hashes : Hashes) (world : World Fs) (iterator : SsTableIterator)
    (entry : IndexEntry) :
    Succeeds (Prog.attempt (iterator.readBlock hashes entry)) world fun read after =>
      Quiet world after ∧ match read with
        | .ok block => blockAt hashes iterator.file.bytes entry = .ok block
        | .error _ => world.Calm → ∃ error, blockAt hashes iterator.file.bytes entry = .error error := by
  unfold readBlock
  cases ran : iterator.file.readAt entry.offset entry.length world with
  | stuck =>
    unfold FileRead.readAt ioRead ioCall Device.call at ran
    split at ran
    · cases ran
    · split at ran <;> cases ran
  | err error after =>
    have quiet : Quiet world after := by
      unfold FileRead.readAt ioRead ioCall at ran
      obtain ⟨now, passes⟩ := call_err_frame ran
      exact ⟨now, passes⟩
    refine ⟨_, after, attempt_err (bind_err ran _), quiet, fun calm => ?_⟩
    have outside : ¬ entry.offset + entry.length ≤ iterator.file.bytes.length := by
      intro inside
      obtain ⟨_, _, succeeded, _⟩ := FileRead.readAt_succeeds calm inside
      rw [ran] at succeeded
      cases succeeded
    exact ⟨_, if_neg outside⟩
  | ok bytes after =>
    obtain ⟨rfl, inside, quiet⟩ := FileRead.readAt_ensures _ _ _ _ ran
    have same : blockAt hashes iterator.file.bytes entry = unchecked hashes
        "SSTable data block shorter than CRC trailer" "SSTable data block CRC mismatch in iterator"
        (slice iterator.file.bytes entry.offset entry.length) := if_pos inside
    rw [same]
    cases read : unchecked hashes "SSTable data block shorter than CRC trailer"
        "SSTable data block CRC mismatch in iterator"
        (slice iterator.file.bytes entry.offset entry.length) with
    | ok block =>
      refine ⟨.ok block, after, attempt_ok ?_, quiet, rfl⟩
      rw [bind_ok ran, read]
      rfl
    | error error =>
      refine ⟨.error error, after, attempt_err ?_, quiet, fun _ => ⟨error, rfl⟩⟩
      rw [bind_ok ran, read]
      rfl

/-- **One round.** Injected failures are allowed for while what is left is whole. -/
theorem round_moves (either : iterator.Sound hashes ∨ world.Calm) :
    Succeeds (round hashes iterator) world fun result after =>
      Moves hashes iterator result ∧ Quiet world after := by
  unfold round
  cases loaded : iterator.currentBlock with
  | some block => exact Succeeds.pure ⟨yieldFrom_moves loaded, Quiet.refl _⟩
  | none =>
    simp only
    cases here : iterator.index[iterator.blockIdx]? with
    | none =>
      have done : iterator.Done := ⟨loaded, List.getElem?_eq_none_iff.mp here⟩
      exact Succeeds.pure ⟨⟨done.sound, done⟩, Quiet.refl _⟩
    | some entry =>
      refine Succeeds.bind ((readBlock_attempt hashes world iterator entry).mono
        fun read after holds => ?_)
      obtain ⟨quiet, facts⟩ := holds
      have inside := (List.getElem?_eq_some_iff.mp here).1
      cases read with
      | ok block =>
        refine Succeeds.pure ⟨loaded_moves loaded here facts (yieldFrom_moves rfl) ?_, quiet⟩
        intro next moved
        unfold yieldFrom at moved
        split at moved
        · obtain rfl := Sum.inl.inj moved
          rw [roundsLeft, roundsLeft, loaded]
          show iterator.index.length - (iterator.blockIdx + 1) + 0 < _ + 0
          omega
        · split at moved <;> cases moved
      | error error =>
        refine Succeeds.pure ⟨Or.inl ⟨?_, ⟨rfl, le_refl _⟩⟩, quiet⟩
        rcases either with sound | calm
        · exact sound
        · obtain ⟨error', failed⟩ := facts calm
          rw [Sound, loaded]
          simp only
          rw [List.drop_eq_getElem_cons inside, (List.getElem?_eq_some_iff.mp here).2, WholeBlocks]
          intro block read
          rw [failed] at read
          cases read

/-- **One call.** -/
theorem next_moves (either : iterator.Sound hashes ∨ world.Calm) :
    Succeeds (next hashes iterator) world fun item after =>
      Moves hashes iterator (.inr item) ∧ Quiet world after := by
  unfold next
  have rounds : ∀ (fuel : Nat) (iterator : SsTableIterator) (world : World Fs),
      iterator.Sound hashes ∨ world.Calm → iterator.roundsLeft < fuel →
      Succeeds (Prog.loop (round hashes) fuel iterator) world fun item after =>
        Moves hashes iterator (.inr item) ∧ Quiet world after := by
    intro fuel
    induction fuel with
    | zero => exact fun _ _ _ bound => absurd bound (Nat.not_lt_zero _)
    | succ fuel ih =>
      intro iterator world either bound
      refine Succeeds.bind ((round_moves either).mono fun result middle holds => ?_)
      obtain ⟨moves, quiet⟩ := holds
      cases result with
      | inr item => exact Succeeds.pure ⟨moves, quiet⟩
      | inl following =>
        obtain ⟨same, fewer, rounds, _⟩ := moves
        have either' := either.imp same.mpr quiet.calm
        refine (ih following middle either' (by omega)).mono fun item after holds => ?_
        obtain ⟨moves', quiet'⟩ := holds
        refine ⟨?_, quiet.trans quiet'⟩
        match item, moves' with
        | (none, last), moves' => exact ⟨same.mp moves'.1, moves'.2⟩
        | (some (.ok _), last), moves' => exact ⟨moves'.1.trans same, moves'.2.trans_le fewer⟩
        | (some (.error _), last), moves' =>
          rw [Moves, same] at moves'
          exact moves'
  refine rounds _ iterator world either ?_
  unfold roundsLeft
  split <;> omega

/-- An iterator that is done yields nothing. -/
theorem Done.nexts (done : iterator.Done) (count : Nat) :
    Succeeds (nexts hashes count iterator) world fun items _ => items = List.replicate count none := by
  induction count with
  | zero => exact Succeeds.pure rfl
  | succ count ih =>
    obtain ⟨waiting, past⟩ := done
    have ended : round hashes iterator world = .ok (.inr (none, iterator)) world := by
      unfold round
      rw [waiting]
      simp only
      rw [List.getElem?_eq_none_iff.mpr past]
      rfl
    have ran : next hashes iterator world = .ok (none, iterator) world := by
      rw [next, Prog.loop, bind_ok ended]
      rfl
    refine Succeeds.bind ⟨_, _, ran, ?_⟩
    exact Succeeds.bind (ih.mono fun items after same => Succeeds.pure (by rw [same]; rfl))

/-- **Calls on an iterator whose blocks are whole**: entries, then at most one error, then nothing. -/
theorem nexts_sound (sound : iterator.Sound hashes) (count : Nat) :
    Succeeds (nexts hashes count iterator) world fun items _ => items.length = count ∧
      ∃ entries errors rest, items = List.map (fun entry => some (.ok entry)) entries ++
        (List.map (fun error => some (.error error)) errors ++ List.replicate rest none) ∧
        entries.length ≤ iterator.bytesLeft ∧ errors.length ≤ 1 := by
  induction count generalizing iterator world with
  | zero => exact Succeeds.pure ⟨rfl, [], [], 0, rfl, Nat.zero_le _, Nat.zero_le _⟩
  | succ count ih =>
    refine Succeeds.bind ((next_moves (Or.inl sound)).mono fun item middle holds => ?_)
    obtain ⟨moves, _⟩ := holds
    match item, moves with
    | (none, last), moves =>
      refine Succeeds.bind ((moves.2.nexts count).mono fun items after same => Succeeds.pure ?_)
      rw [same]
      exact ⟨by simp, [], [], count + 1, rfl, Nat.zero_le _, Nat.zero_le _⟩
    | (some (.error error), last), moves =>
      rcases moves with ⟨_, done⟩ | ⟨broken, _⟩
      · refine Succeeds.bind ((done.nexts count).mono fun items after same => Succeeds.pure ?_)
        rw [same]
        exact ⟨by simp, [], [error], count, rfl, Nat.zero_le _, le_refl _⟩
      · exact absurd sound broken
    | (some (.ok entry), last), moves =>
      obtain ⟨same, fewer⟩ := moves
      refine Succeeds.bind ((ih (same.mpr sound)).mono fun items after holds => Succeeds.pure ?_)
      obtain ⟨length, entries, errors, rest, rfl, short, single⟩ := holds
      exact ⟨by simpa using length, entry :: entries, errors, rest, rfl, by
        rw [List.length_cons]
        omega, single⟩

/-- **Calls on an iterator that gets to a malformed entry** never come to an end. -/
theorem nexts_broken (broken : ¬ iterator.Sound hashes) (calm : world.Calm) (count : Nat) :
    Succeeds (nexts hashes count iterator) world fun items _ => none ∉ items := by
  induction count generalizing iterator world with
  | zero => exact Succeeds.pure List.not_mem_nil
  | succ count ih =>
    refine Succeeds.bind ((next_moves (Or.inr calm)).mono fun item middle holds => ?_)
    obtain ⟨moves, quiet⟩ := holds
    have goes : item.1 ≠ none ∧ ¬ item.2.Sound hashes := by
      match item, moves with
      | (none, last), moves => exact absurd moves.1 broken
      | (some (.ok entry), last), moves => exact ⟨nofun, fun sound => broken (moves.1.mp sound)⟩
      | (some (.error error), last), moves =>
        exact ⟨nofun, (moves.resolve_left fun both => broken both.1).2⟩
    refine Succeeds.bind ((ih goes.2 (quiet.calm calm)).mono fun items after absent =>
      Succeeds.pure ?_)
    rw [List.mem_cons, not_or]
    exact ⟨goes.1.symm, absent⟩

/-- Calling `next` again and again comes to an end, and once an error was yielded nothing else is. -/
structure Stops (hashes : Hashes) (iterator : SsTableIterator) (world : World Fs) : Prop where
  ends : ∃ count, Succeeds (nexts hashes (count + 1) iterator) world fun items _ =>
    items[count]? = some none
  once : ∀ count, Succeeds (nexts hashes count iterator) world fun items _ =>
    ∀ (early late : Nat) (error : Error) item, early < late →
      items[early]? = some (some (.error error)) → items[late]? = some item → item = none

theorem Sound.stops (sound : iterator.Sound hashes) (world : World Fs) :
    iterator.Stops hashes world := by
  constructor
  · refine ⟨iterator.bytesLeft + 1, (nexts_sound sound _).mono fun items after holds => ?_⟩
    obtain ⟨length, entries, errors, rest, rfl, short, single⟩ := holds
    simp only [List.length_append, List.length_map, List.length_replicate] at length
    rw [List.getElem?_append_right (by rw [List.length_map]; omega),
      List.getElem?_append_right (by rw [List.length_map, List.length_map]; omega),
      List.getElem?_replicate, if_pos (by rw [List.length_map, List.length_map]; omega)]
  · refine fun count => (nexts_sound sound count).mono fun items after holds => ?_
    obtain ⟨_, entries, errors, rest, rfl, _, single⟩ := holds
    intro early late error item before failed found
    have behind : entries.length ≤ early := by
      by_contra inside
      rw [List.getElem?_append_left (by rw [List.length_map]; omega), List.getElem?_map] at failed
      cases at_early : entries[early]? with
      | none => rw [at_early] at failed; cases failed
      | some entry => rw [at_early] at failed; cases failed
    rw [List.getElem?_append_right (by rw [List.length_map]; omega),
      List.getElem?_append_right (by rw [List.length_map, List.length_map]; omega),
      List.getElem?_replicate] at found
    split at found
    · exact (Option.some.inj found).symm
    · cases found

end SsTableIterator

/-- Every block the iterator gets to, in a file with these bytes, is a sequence of whole entries. -/
def SsTable.WholeFile (hashes : Hashes) (bytes : Bytes) : Prop :=
  ∀ index, indexIn hashes bytes = .ok index → WholeBlocks hashes bytes index

/-- The index of an open reader is the file's. -/
theorem SsTableReader.open_index {hashes : Hashes} {world after : World Fs} {name : FileName}
    {bytes : Bytes} {reader : SsTableReader} (stored : world.now.content name = some bytes)
    (opened : SsTableReader.open hashes name world = .ok reader after) :
    reader.file.bytes = bytes ∧ indexIn hashes bytes = .ok reader.index := by
  have holds : Ensures (SsTableReader.open hashes name) world fun reader _ =>
      reader.file.bytes = bytes ∧ indexIn hashes bytes = .ok reader.index := by
    unfold SsTableReader.open
    refine Ensures.bind ((Io.openRead_ensures name).mono fun file _ found => ?_)
    obtain ⟨content, _⟩ := found
    obtain ⟨bytes'⟩ := file
    obtain rfl : bytes = bytes' := Option.some.inj (stored.symm.trans content)
    refine Ensures.bind (FileRead.len_ensures.mono fun length _ found => ?_)
    obtain ⟨rfl, _⟩ := found
    refine Ensures.ite (fun _ => Ensures.throw) fun _ => ?_
    refine Ensures.bind ((FileRead.readAt_ensures _ _).mono fun footer _ found => ?_)
    obtain ⟨rfl, _⟩ := found
    refine Ensures.ite (fun _ => Ensures.throw) fun _ => ?_
    refine Ensures.bind_any fun indexEnd _ => ?_
    refine Ensures.ite (fun _ => Ensures.throw) fun _ => ?_
    refine Ensures.bind_any fun _ _ => ?_
    refine Ensures.bind ((FileRead.readAt_ensures _ _).mono fun indexBytes _ found => ?_)
    obtain ⟨rfl, _⟩ := found
    refine Ensures.bind (Ensures.ofExcept fun index parsed => ?_)
    refine Ensures.bind_any fun bloom _ => ?_
    exact Ensures.pure ⟨rfl, parsed⟩
  exact holds _ _ opened

/-- **Iteration over an open file stops, on every device, exactly if the blocks it gets to are
whole.** -/
theorem stops_iff {hashes : Hashes} {world after : World Fs} {name : FileName} {bytes : Bytes}
    {reader : SsTableReader} (stored : world.now.content name = some bytes)
    (opened : SsTableReader.open hashes name world = .ok reader after) :
    (∀ later, reader.iter.Stops hashes later) ↔ WholeFile hashes bytes := by
  obtain ⟨same, index⟩ := SsTableReader.open_index stored opened
  have sound : reader.iter.Sound hashes ↔ WholeFile hashes bytes := by
    show WholeBlocks hashes reader.file.bytes (reader.index.drop 0) ↔ _
    rw [List.drop_zero, same, WholeFile, index]
    constructor
    · rintro whole _ ⟨⟩
      exact whole
    · exact fun whole => whole _ rfl
  rw [← sound]
  constructor
  · intro stops
    by_contra broken
    obtain ⟨count, _, _, ran, last⟩ := (stops (World.fresh Fs.empty)).ends
    have absent := (SsTableIterator.nexts_broken broken (World.fresh_calm Fs.empty) _).ensures _ _ ran
    exact absent (List.mem_of_getElem? last)
  · exact fun holds later => holds.stops later

/-- A file of two blocks, of two entries and of one. -/
theorem stops_blocks :
    let hashes : Hashes := ⟨fun _ => 0, fun _ => (0, 0)⟩
    let bytes := tableBytes hashes [[([5], .put [6]), ([6], .tombstone)], [([7], .put [8])]] none
    ∃ reader after, SsTableReader.open hashes ['t']
        (World.fresh ((Fs.empty.create ['t']).extend 0 bytes)) = .ok reader after ∧
      ∀ later, reader.iter.Stops hashes later := by
  intro hashes bytes
  have run : ((SsTableReader.open hashes ['t']
      (World.fresh ((Fs.empty.create ['t']).extend 0 bytes))).result.map
      fun result => result.toOption.map SsTableReader.index) =
        some (some [⟨[5], 0, 25⟩, ⟨[7], 25, 15⟩]) := by decide +kernel
  cases opened : SsTableReader.open hashes ['t']
      (World.fresh ((Fs.empty.create ['t']).extend 0 bytes)) with
  | stuck => rw [opened] at run; cases run
  | err error after => rw [opened] at run; cases run
  | ok reader after =>
    have stored : ((Fs.empty.create ['t']).extend 0 bytes).content ['t'] = some bytes := by
      decide +kernel
    refine ⟨reader, after, rfl, (stops_iff stored opened).mpr fun index parsed => ?_⟩
    have index_eq : index = [⟨[5], 0, 25⟩, ⟨[7], 25, 15⟩] := by
      rw [(SsTableReader.open_index stored opened).2] at parsed
      rw [opened] at run
      cases parsed
      exact Option.some.inj (Option.some.inj run)
    subst index_eq
    have first : blockAt hashes bytes ⟨[5], 0, 25⟩ =
        .ok [1, 0, 0, 0, 1, 0, 0, 0, 1, 5, 6, 1, 0, 0, 0, 0, 0, 0, 0, 2, 6] := by decide +kernel
    have second : blockAt hashes bytes ⟨[7], 25, 15⟩ = .ok [1, 0, 0, 0, 1, 0, 0, 0, 1, 7, 8] := by
      decide +kernel
    intro block read
    rw [first] at read
    cases read
    refine ⟨.cons (by decide +kernel : decodeEntry _ = .ok ([5], .put [6], 11))
      (.cons (by decide +kernel : decodeEntry _ = .ok ([6], .tombstone, 10)) .nil), fun block read => ?_⟩
    rw [second] at read
    cases read
    exact ⟨.cons (by decide +kernel : decodeEntry _ = .ok ([7], .put [8], 11)) .nil, trivial⟩

/-- A file whose one block has a correct checksum over a single byte: the second call yields the error
of the first one again. -/
theorem stops_fails :
    let hashes : Hashes := ⟨fun _ => 0, fun _ => (0, 0)⟩
    ¬ ∀ name (world : World Fs) reader after, SsTableReader.open hashes name world = .ok reader after →
      ∀ later, reader.iter.Stops hashes later := by
  intro hashes claimed
  obtain ⟨bytes, bytesDef⟩ : ∃ bytes, bytes = checked hashes [1] ++
      (indexBytes hashes [⟨[5], 0, 5⟩] ++ footer 5 21 0 0) := ⟨_, rfl⟩
  obtain ⟨disk, diskDef⟩ : ∃ disk, disk = (Fs.empty.create ['t']).extend 0 bytes := ⟨_, rfl⟩
  have run : ((SsTableReader.open hashes ['t'] >>= fun reader =>
      SsTableIterator.nexts hashes 2 reader.iter) (World.fresh disk)).result.map
        (fun result => result.toOption.map (List.map (Option.map Except.isOk))) =
      some (some [some false, some false]) := by
    rw [diskDef, bytesDef]
    decide +kernel
  cases opened : SsTableReader.open hashes ['t'] (World.fresh disk) with
  | stuck => rw [bind_stuck opened] at run; cases run
  | err error after => rw [bind_err opened] at run; cases run
  | ok reader after =>
    rw [bind_ok opened] at run
    obtain ⟨items, last, ran, once⟩ := (claimed _ _ _ _ opened after).once 2
    rw [ran] at run
    match items, run with
    | [some (.error error), some (.error error')], _ =>
      exact absurd (once 0 1 error _ Nat.one_pos rfl rfl) nofun

end Sastran

/-
Table files that were damaged: up to four bytes in a row, anywhere in front of the footer.

Every part of a table carries a checksum, and no such damage gets past it (`unchecked_burst`). So a
damaged file does not open, or it opens to the same index and filter (`open_burst`), and then a lookup, or
an iteration, gives what it gave before, up to a report of corruption (`table_burst`).
-/

import Sastran.Checksum
import Sastran.SsTable.AnyFile

namespace Sastran

open Device LittleEndian SsTable

variable {hashes : Hashes} {world world' : World Fs} {bytes bytes' : Bytes}

/-! ### Checked bytes -/

namespace SsTable

theorem unchecked_burst (real : hashes.crc32 = crc32) (burst : Burst 4 bytes bytes')
    {short mismatch : String} {payload : Bytes}
    (passed : unchecked hashes short mismatch bytes = .ok payload) :
    bytes' = bytes ∨ ∃ error, unchecked hashes short mismatch bytes' = .error error ∧
      error.IsCorruption := by
  cases passed' : unchecked hashes short mismatch bytes' with
  | error error => exact Or.inr ⟨error, rfl, unchecked_error passed'⟩
  | ok payload' =>
    left
    unfold unchecked at passed passed'
    simp only [real] at passed passed'
    split_ifs at passed with long right
    split_ifs at passed' with long' right'
    exact (checked_burst burst (not_lt.mp long) (not_not.mp right) (not_not.mp right')).symm

theorem parseIndexBlock_burst (real : hashes.crc32 = crc32) (burst : Burst 4 bytes bytes')
    {index : List IndexEntry} (parsed : parseIndexBlock hashes bytes = .ok index) :
    parseIndexBlock hashes bytes' = .ok index ∨
      ∃ error, parseIndexBlock hashes bytes' = .error error ∧ error.IsCorruption := by
  cases passed : unchecked hashes "index block shorter than CRC trailer" "SSTable index CRC mismatch"
      bytes with
  | error error =>
    unfold parseIndexBlock at parsed
    rw [passed] at parsed
    cases parsed
  | ok payload =>
    rcases unchecked_burst real burst passed with rfl | ⟨error, failed, corrupt⟩
    · exact Or.inl parsed
    · refine Or.inr ⟨error, ?_, corrupt⟩
      unfold parseIndexBlock
      rw [failed]

end SsTable

theorem BloomFilter.decode_burst (real : hashes.crc32 = crc32) (burst : Burst 4 bytes bytes')
    {filter : BloomFilter} (decoded : BloomFilter.decode hashes bytes = .ok filter) :
    BloomFilter.decode hashes bytes' = .ok filter ∨
      ∃ error, BloomFilter.decode hashes bytes' = .error error ∧ error.IsCorruption := by
  cases decoded' : BloomFilter.decode hashes bytes' with
  | error error => exact Or.inr ⟨error, rfl, BloomFilter.decode_error decoded'⟩
  | ok filter' =>
    left
    have same : bytes = bytes' := by
      unfold BloomFilter.decode at decoded decoded'
      simp only [real] at decoded decoded'
      split_ifs at decoded with long right
      split_ifs at decoded' with long' right'
      exact checked_burst burst (by omega) (not_not.mp right) (not_not.mp right')
    rw [← decoded', ← same, decoded]

/-! ### Opening -/

namespace SsTableReader

/-- The reader of other bytes with the same index and filter. -/
def onBytes (reader : SsTableReader) (bytes : Bytes) : SsTableReader := { reader with file := ⟨bytes⟩ }

/-- A read that was inside one file is inside a file of the same length. -/
theorem readAt_burst (calm : world'.Calm) (burst : Burst 4 bytes bytes') {offset count : Nat}
    {read : Bytes} {after : World Fs} (ran : FileRead.readAt ⟨bytes⟩ offset count world = .ok read after) :
    Ends Error.IsCorruption (FileRead.readAt ⟨bytes'⟩ offset count) world' fun read' after' =>
      Burst 4 read read' ∧ after'.Calm := by
  obtain ⟨rfl, inside, _⟩ := FileRead.readAt_ensures _ _ _ _ ran
  have inside' : offset + count ≤ (FileRead.mk bytes').bytes.length := burst.length ▸ inside
  refine (readAt_ends calm inside').mono fun read' after' holds => ⟨?_, holds.2⟩
  rw [holds.1]
  exact burst.slice offset count

theorem checkBloomBounds_any {bloomOffset bloomLength indexLength fileLen : Nat} {after : World Fs}
    (checked : checkBloomBounds bloomOffset bloomLength indexLength fileLen world = .ok () after)
    (world' : World Fs) :
    checkBloomBounds bloomOffset bloomLength indexLength fileLen world' = .ok () world' := by
  unfold checkBloomBounds at checked ⊢
  by_cases empty : bloomLength = 0
  · rw [if_pos empty]
    rfl
  · rw [if_neg empty] at checked ⊢
    obtain ⟨bloomEnd, middle, summed, rest⟩ := bind_eq_ok.mp checked
    obtain ⟨sum, rfl⟩ := ofOption_eq_ok.mp summed
    by_cases past : bloomEnd > fileLen
    · rw [if_pos past] at rest
      cases rest
    · rw [sum]
      refine (bind_ok rfl _).trans ?_
      rw [if_neg past]
      rfl

theorem readBloom_burst (real : hashes.crc32 = crc32) (calm : world'.Calm) (burst : Burst 4 bytes bytes')
    {offset length : Nat} {bloom : Option BloomFilter} {after : World Fs}
    (ran : readBloom hashes ⟨bytes⟩ offset length world = .ok bloom after) :
    Ends Error.IsCorruption (readBloom hashes ⟨bytes'⟩ offset length) world' fun bloom' after' =>
      bloom' = bloom ∧ after'.Calm := by
  unfold readBloom at ran ⊢
  by_cases empty : length = 0
  · rw [if_pos empty] at ran ⊢
    cases ran
    exact Ends.pure ⟨rfl, calm⟩
  · rw [if_neg empty] at ran ⊢
    obtain ⟨read, middle, readRun, ran⟩ := bind_eq_ok.mp ran
    obtain ⟨filter, middle', decodeRun, ran⟩ := bind_eq_ok.mp ran
    cases ran
    refine Ends.bind ((readAt_burst calm burst readRun).mono fun read' after' holds => ?_)
    rcases BloomFilter.decode_burst real holds.1 (ofExcept_eq_ok.mp decodeRun).1 with
      same | ⟨error, failed, corrupt⟩
    · rw [same]
      exact Ends.bind (Ends.pure ⟨rfl, holds.2⟩)
    · rw [failed]
      exact Ends.bind corrupt

theorem openBody_burst (real : hashes.crc32 = crc32) (calm : world'.Calm) (burst : Burst 4 bytes bytes')
    {footer : Footer} {reader : SsTableReader} {after : World Fs}
    (ran : openBody hashes ⟨bytes⟩ bytes.length footer world = .ok reader after) :
    Ends Error.IsCorruption (openBody hashes ⟨bytes'⟩ bytes.length footer) world' fun reader' after' =>
      reader' = reader.onBytes bytes' ∧ after'.Calm := by
  unfold openBody at ran ⊢
  by_cases magic : footer.magic ≠ FOOTER_MAGIC
  · rw [if_pos magic] at ran
    cases ran
  · rw [if_neg magic] at ran ⊢
    obtain ⟨indexEnd, middle, summed, rest⟩ := bind_eq_ok.mp ran
    obtain ⟨total, rfl⟩ := ofOption_eq_ok.mp summed
    rw [total]
    refine Ends.bind (Ends.pure ?_)
    by_cases past : indexEnd > bytes.length
    · rw [if_pos past] at rest
      cases rest
    · rw [if_neg past] at rest ⊢
      obtain ⟨_, checked, bounds, rest⟩ := bind_eq_ok.mp rest
      obtain ⟨indexBytes, readIndex, indexRun, rest⟩ := bind_eq_ok.mp rest
      obtain ⟨index, parsed, parseRun, rest⟩ := bind_eq_ok.mp rest
      obtain ⟨bloom, filtered, bloomRun, rest⟩ := bind_eq_ok.mp rest
      cases rest
      have bounds' : Ends Error.IsCorruption (checkBloomBounds footer.bloomOffset footer.bloomLength
          footer.indexLength bytes.length) world' fun _ after => after = world' := by
        unfold Ends
        rw [checkBloomBounds_any bounds world']
      refine Ends.bind (bounds'.mono fun _ here same => ?_)
      subst same
      refine Ends.bind ((readAt_burst calm burst indexRun).mono fun read' here' holds => ?_)
      rcases parseIndexBlock_burst real holds.1 (ofExcept_eq_ok.mp parseRun).1 with
        same | ⟨error, failed, corrupt⟩
      · rw [same]
        refine Ends.bind (Ends.pure ?_)
        refine Ends.bind ((readBloom_burst real holds.2 burst bloomRun).mono fun bloom' last holds' => ?_)
        obtain ⟨rfl, calm'⟩ := holds'
        exact Ends.pure ⟨rfl, calm'⟩
      · rw [failed]
        exact Ends.bind corrupt

/-- **A damaged file** opens to the same index and filter, or is reported as corrupted. -/
theorem open_burst (real : hashes.crc32 = crc32) {name name' : FileName} {reader : SsTableReader}
    {after : World Fs} (calm : world.Calm) (stored : world.now.content name = some bytes)
    (opened : SsTableReader.open hashes name world = .ok reader after) (calm' : world'.Calm)
    (stored' : world'.now.content name' = some bytes') (burst : Burst 4 bytes bytes')
    (footer : footerOf bytes' = footerOf bytes) (long : FOOTER_LEN ≤ bytes.length) :
    Ends Error.IsCorruption (SsTableReader.open hashes name') world' fun reader' after' =>
      reader' = reader.onBytes bytes' ∧ after'.Calm := by
  obtain ⟨middle, _, run⟩ := open_body hashes calm stored long
  obtain ⟨middle', calm'', run'⟩ := open_body hashes calm' stored' (burst.length ▸ long)
  rw [run] at opened
  have ends := openBody_burst real calm'' burst opened
  rw [← footer, burst.length] at ends
  unfold Ends at ends ⊢
  rw [run']
  exact ends

/-! ### Lookups -/

/-- **A lookup in a damaged file** gives what it gave before, or reports corruption. -/
theorem get_burst (real : hashes.crc32 = crc32) {reader : SsTableReader} {key : Key} {found : Lookup}
    {after : World Fs} (looked : reader.get hashes key world = .ok found after) (calm : world'.Calm)
    (burst : Burst 4 reader.file.bytes bytes') :
    Ends Error.IsCorruption ((reader.onBytes bytes').get hashes key) world' fun found' after' =>
      found' = found ∧ after'.Calm := by
  have same : (reader.onBytes bytes').mayContain hashes key = reader.mayContain hashes key := rfl
  have index : (reader.onBytes bytes').index = reader.index := rfl
  unfold get at looked ⊢
  rw [same, index]
  obtain ⟨possible, middle, filtered, rest⟩ := bind_eq_ok.mp looked
  obtain ⟨may, rfl⟩ := ofOption_eq_ok.mp filtered
  rw [may]
  refine Ends.bind (Ends.pure ?_)
  by_cases excluded : ¬ possible = true
  · rw [if_pos excluded] at rest ⊢
    cases rest
    exact Ends.pure ⟨rfl, calm⟩
  · rw [if_neg excluded] at rest ⊢
    cases here : candidateBlock reader.index key with
    | none =>
      rw [here] at rest
      cases rest
      exact Ends.pure ⟨rfl, calm⟩
    | some candidate =>
      rw [here] at rest
      obtain ⟨read, middle', readRun, rest⟩ := bind_eq_ok.mp rest
      obtain ⟨block, middle'', uncheckRun, scanRun⟩ := bind_eq_ok.mp rest
      have passed := (ofExcept_eq_ok.mp uncheckRun).1
      have scanned := (ofExcept_eq_ok.mp scanRun).1
      refine Ends.bind ((readAt_burst calm burst readRun).mono fun read' here' holds => ?_)
      rcases unchecked_burst real holds.1 passed with unchanged | ⟨error, failed, corrupt⟩
      · rw [unchanged, passed]
        refine Ends.bind (Ends.pure ?_)
        rw [scanned]
        exact Ends.pure ⟨rfl, holds.2⟩
      · rw [failed]
        exact Ends.bind corrupt

end SsTableReader

/-! ### Iteration -/

namespace SsTableIterator

/-- The iterator over other bytes at the same place. -/
def onBytes (iterator : SsTableIterator) (bytes : Bytes) : SsTableIterator :=
  { iterator with file := ⟨bytes⟩ }

/-- What a round comes to, over other bytes. -/
def moved (bytes : Bytes) : SsTableIterator ⊕ Item → SsTableIterator ⊕ Item :=
  Sum.map (fun next => next.onBytes bytes) fun item => (item.1, item.2.onBytes bytes)

/-- A report of corruption, behind which nothing comes. -/
def Reports (item : Item) : Prop :=
  ∃ error, item.1 = some (.error error) ∧ error.IsCorruption ∧ item.2.Done

/-- The iterators of a result. -/
def fileOf : SsTableIterator ⊕ Item → FileRead := Sum.elim file fun item => item.2.file

theorem yieldFrom_onBytes (iterator : SsTableIterator) (block bytes : Bytes) :
    (iterator.onBytes bytes).yieldFrom block = moved bytes (iterator.yieldFrom block) := by
  have pos : (iterator.onBytes bytes).pos = iterator.pos := rfl
  unfold yieldFrom
  rw [pos]
  by_cases ended : iterator.pos ≥ block.length
  · rw [if_pos ended, if_pos ended]
    rfl
  · rw [if_neg ended, if_neg ended]
    cases decodeEntry (block.drop iterator.pos) with
    | error error => rfl
    | ok result => rfl

theorem yieldFrom_file (iterator : SsTableIterator) (block : Bytes) :
    fileOf (iterator.yieldFrom block) = iterator.file := by
  unfold yieldFrom
  by_cases ended : iterator.pos ≥ block.length
  · rw [if_pos ended]
    rfl
  · rw [if_neg ended]
    cases decodeEntry (block.drop iterator.pos) with
    | error error => rfl
    | ok result => rfl

theorem readBlock_burst (real : hashes.crc32 = crc32) {iterator : SsTableIterator} {entry : IndexEntry}
    {block : Bytes} {after : World Fs} (calm : world'.Calm)
    (burst : Burst 4 iterator.file.bytes bytes')
    (ran : iterator.readBlock hashes entry world = .ok block after) :
    Ends Error.IsCorruption ((iterator.onBytes bytes').readBlock hashes entry) world'
      fun block' after' => block' = block ∧ after'.Calm := by
  unfold readBlock at ran ⊢
  obtain ⟨read, middle, readRun, uncheckRun⟩ := bind_eq_ok.mp ran
  have passed := (ofExcept_eq_ok.mp uncheckRun).1
  refine Ends.bind ((SsTableReader.readAt_burst calm burst readRun).mono fun read' here holds => ?_)
  rcases unchecked_burst real holds.1 passed with unchanged | ⟨error, failed, corrupt⟩
  · rw [unchanged, passed]
    exact Ends.pure ⟨rfl, holds.2⟩
  · rw [failed]
    exact corrupt

/-- **One round over damaged bytes** comes to the same, or to a report. -/
theorem round_burst (real : hashes.crc32 = crc32) {iterator : SsTableIterator}
    {result : SsTableIterator ⊕ Item} {after : World Fs} (calm : world'.Calm)
    (burst : Burst 4 iterator.file.bytes bytes') (ran : round hashes iterator world = .ok result after)
    (clean : ∀ item error, result = .inr item → item.1 ≠ some (.error error)) :
    fileOf result = iterator.file ∧
    Succeeds (round hashes (iterator.onBytes bytes')) world' fun result' after' =>
      result' = moved bytes' result ∧ after'.Calm ∨ ∃ item, result' = .inr item ∧ Reports item := by
  have current : (iterator.onBytes bytes').currentBlock = iterator.currentBlock := rfl
  have index : (iterator.onBytes bytes').index[(iterator.onBytes bytes').blockIdx]? =
      iterator.index[iterator.blockIdx]? := rfl
  unfold round at ran ⊢
  rw [current, index]
  cases loaded : iterator.currentBlock with
  | some block =>
    rw [loaded] at ran
    cases ran
    exact ⟨yieldFrom_file iterator block,
      Succeeds.pure (Or.inl ⟨yieldFrom_onBytes iterator block bytes', calm⟩)⟩
  | none =>
    rw [loaded] at ran
    cases here : iterator.index[iterator.blockIdx]? with
    | none =>
      simp only [here] at ran
      cases ran
      exact ⟨rfl, Succeeds.pure (Or.inl ⟨rfl, calm⟩)⟩
    | some entry =>
      simp only [here] at ran
      obtain ⟨read, middle, attempted, rest⟩ := bind_eq_ok.mp ran
      cases readRun : iterator.readBlock hashes entry world with
      | stuck =>
        rw [attempt_stuck readRun] at attempted
        cases attempted
      | err error last =>
        rw [attempt_err readRun] at attempted
        cases attempted
        cases rest
        exact absurd rfl (clean _ error rfl)
      | ok block last =>
        rw [attempt_ok readRun] at attempted
        cases attempted
        cases rest
        refine ⟨yieldFrom_file _ block, ?_⟩
        rcases (readBlock_burst real calm burst readRun).cases with
          ⟨block', after', readRun', rfl, calm'⟩ | ⟨error, after', readRun', corrupt⟩
        · refine Succeeds.bind ⟨_, _, attempt_ok readRun', Succeeds.pure (Or.inl ⟨?_, calm'⟩)⟩
          exact yieldFrom_onBytes { iterator with currentBlock := some block', pos := 0 } block' bytes'
        · exact Succeeds.bind ⟨_, _, attempt_err readRun',
            Succeeds.pure (Or.inr ⟨_, rfl, error, rfl, corrupt, rfl, le_refl _⟩)⟩

/-- **One call over damaged bytes.** -/
theorem next_burst (real : hashes.crc32 = crc32) {iterator : SsTableIterator} {item : Item}
    {after : World Fs} (calm : world'.Calm) (burst : Burst 4 iterator.file.bytes bytes')
    (ran : next hashes iterator world = .ok item after)
    (clean : ∀ error, item.1 ≠ some (.error error)) :
    item.2.file = iterator.file ∧
    Succeeds (next hashes (iterator.onBytes bytes')) world' fun item' after' =>
      item' = (item.1, item.2.onBytes bytes') ∧ after'.Calm ∨ Reports item' := by
  have rounds : ∀ (fuel : Nat) (iterator : SsTableIterator) (world world' : World Fs), world'.Calm →
      Burst 4 iterator.file.bytes bytes' →
      Prog.loop (round hashes) fuel iterator world = .ok item after → item.2.file = iterator.file ∧
      Succeeds (Prog.loop (round hashes) fuel (iterator.onBytes bytes')) world' fun item' after' =>
        item' = (item.1, item.2.onBytes bytes') ∧ after'.Calm ∨ Reports item' := by
    intro fuel
    induction fuel with
    | zero =>
      intro _ _ _ _ _ ran
      cases ran
    | succ fuel ih =>
      intro iterator world world' calm burst ran
      obtain ⟨result, middle, roundRun, rest⟩ := bind_eq_ok.mp ran
      have good : ∀ item' error, result = .inr item' → item'.1 ≠ some (.error error) := by
        rintro item' error rfl
        cases rest
        exact clean error
      obtain ⟨kept, succeeds⟩ := round_burst real calm burst roundRun good
      cases result with
      | inr item' =>
        cases rest
        refine ⟨kept, Succeeds.bind (succeeds.mono fun result' middle' either => ?_)⟩
        rcases either with ⟨rfl, calm'⟩ | ⟨report, rfl, reports⟩
        · exact Succeeds.pure (Or.inl ⟨rfl, calm'⟩)
        · exact Succeeds.pure (Or.inr reports)
      | inl following =>
        have kept' : following.file = iterator.file := kept
        have burst' : Burst 4 following.file.bytes bytes' := kept'.symm ▸ burst
        have file := (ih following middle world' calm burst' rest).1
        refine ⟨file.trans kept', Succeeds.bind (succeeds.mono fun result' middle' either => ?_)⟩
        rcases either with ⟨rfl, calm'⟩ | ⟨report, rfl, reports⟩
        · exact (ih following middle middle' calm' burst' rest).2
        · exact Succeeds.pure (Or.inr reports)
  exact rounds _ iterator world world' calm burst ran

/-- What iterating over damaged bytes yields: the same, or a part of it and a report. -/
def Damaged (items items' : List (Option (Except Error (Key × Entry)))) : Prop :=
  items' = items ∨ ∃ front lost error, items = front ++ lost ∧ lost ≠ [] ∧ error.IsCorruption ∧
    items' = front ++ some (.error error) :: List.replicate (lost.length - 1) none

/-- **Iterating over damaged bytes.** -/
theorem nexts_burst (real : hashes.crc32 = crc32) :
    ∀ (count : Nat) {iterator : SsTableIterator} {items : List (Option (Except Error (Key × Entry)))}
      {world world' after : World Fs}, world'.Calm → Burst 4 iterator.file.bytes bytes' →
      nexts hashes count iterator world = .ok items after → (∀ error, some (.error error) ∉ items) →
      items.length = count ∧
      Succeeds (nexts hashes count (iterator.onBytes bytes')) world' fun items' _ => Damaged items items' := by
  intro count
  induction count with
  | zero =>
    intro iterator items world world' after calm burst ran clean
    cases ran
    exact ⟨rfl, Succeeds.pure (Or.inl rfl)⟩
  | succ count ih =>
    intro iterator items world world' after calm burst ran clean
    obtain ⟨item, middle, nextRun, rest⟩ := bind_eq_ok.mp ran
    obtain ⟨items, last, restRun, same⟩ := bind_eq_ok.mp rest
    cases same
    have good : ∀ error, item.1 ≠ some (.error error) := fun error same =>
      clean error (same ▸ List.mem_cons_self)
    obtain ⟨kept, succeeds⟩ := next_burst real calm burst nextRun good
    have burst' : Burst 4 item.2.file.bytes bytes' := kept.symm ▸ burst
    have clean' : ∀ error, some (.error error) ∉ items := fun error member =>
      clean error (List.mem_cons_of_mem _ member)
    have length := (ih calm burst' restRun clean').1
    refine ⟨by rw [List.length_cons, length], Succeeds.bind (succeeds.mono fun item' middle' either => ?_)⟩
    rcases either with ⟨rfl, calm'⟩ | ⟨error, yielded, corrupt, done⟩
    · refine Succeeds.bind ((ih calm' burst' restRun clean').2.mono fun items' after' damaged =>
        Succeeds.pure ?_)
      rcases damaged with rfl | ⟨front, lost, error, rfl, some, corrupt, rfl⟩
      · exact Or.inl rfl
      · exact Or.inr ⟨item.1 :: front, lost, error, rfl, some, corrupt, rfl⟩
    · refine Succeeds.bind ((done.nexts count).mono fun items' after' nothing => Succeeds.pure (Or.inr ?_))
      refine ⟨[], item.1 :: items, error, rfl, List.cons_ne_nil _ _, corrupt, ?_⟩
      rw [yielded, nothing, List.length_cons, length]
      rfl

end SsTableIterator

/-! ### Damaged tables -/

/-- A file that opens has a footer. -/
theorem SsTableReader.open_long {name : FileName} {reader : SsTableReader} {after : World Fs}
    (calm : world.Calm) (stored : world.now.content name = some bytes)
    (opened : SsTableReader.open hashes name world = .ok reader after) : FOOTER_LEN ≤ bytes.length := by
  by_contra short
  obtain ⟨file, one, ran, _, content, quiet⟩ :=
    (Io.openRead_succeeds calm (by rw [stored]; exact Option.some_ne_none _)).and_ensures
      (Io.openRead_ensures name)
  obtain ⟨bytes'⟩ := file
  obtain rfl : bytes = bytes' := Option.some.inj (stored.symm.trans content)
  obtain ⟨length, two, ran', _, rfl, _⟩ :=
    (FileRead.len_succeeds (quiet.calm calm) : Succeeds (FileRead.len ⟨bytes⟩) one _).and_ensures
      FileRead.len_ensures
  unfold SsTableReader.open at opened
  rw [bind_ok ran, bind_ok ran', if_pos (not_le.mp short)] at opened
  cases opened

/-- **A damaged table never lies.** Change up to four bytes in a row of a table file, anywhere in front of
its footer. Opening it reports corruption, or every lookup and every iteration that succeeded before gives
the same again, up to a report of corruption, behind which an iteration yields nothing. -/
theorem table_burst (real : hashes.crc32 = crc32) {name name' : FileName} {reader : SsTableReader}
    {after : World Fs} (calm : world.Calm) (stored : world.now.content name = some bytes)
    (opened : SsTableReader.open hashes name world = .ok reader after) (calm' : world'.Calm)
    (stored' : world'.now.content name' = some bytes') (burst : Burst 4 bytes bytes')
    (footer : footerOf bytes' = footerOf bytes) :
    Ends Error.IsCorruption (SsTableReader.open hashes name') world' fun reader' _ =>
      (∀ key found one one' two, reader.get hashes key one = .ok found one' → two.Calm →
        Ends Error.IsCorruption (reader'.get hashes key) two fun found' _ => found' = found) ∧
      ∀ count items one one' two, SsTableIterator.nexts hashes count reader.iter one = .ok items one' →
        (∀ error, some (.error error) ∉ items) → two.Calm →
        Succeeds (SsTableIterator.nexts hashes count reader'.iter) two fun items' _ =>
          SsTableIterator.Damaged items items' := by
  have long := SsTableReader.open_long calm stored opened
  have own : reader.file.bytes = bytes := (SsTableReader.open_index stored opened).1
  have burst' : Burst 4 reader.file.bytes bytes' := own.symm ▸ burst
  refine (SsTableReader.open_burst real calm stored opened calm' stored' burst footer long).mono
    fun reader' after' holds => ?_
  obtain ⟨rfl, _⟩ := holds
  refine ⟨fun key found one one' two looked calm'' => ?_, fun count items one one' two ran clean calm'' => ?_⟩
  · exact (SsTableReader.get_burst real looked calm'' burst').mono fun found' last same => same.1
  · have iterator : (reader.onBytes bytes').iter = reader.iter.onBytes bytes' := rfl
    rw [iterator]
    exact (SsTableIterator.nexts_burst real count calm'' burst' ran clean).2

/-- A byte of a value was changed: the lookup of its key is the value or a report. -/
theorem table_burst_value :
    let hashes : Hashes := ⟨crc32, fun _ => (0, 0)⟩
    let disk (bytes : Bytes) : World Fs := World.fresh ((Fs.empty.create ['t']).extend 0 bytes)
    ∃ bytes reader after, bytes = tableBytes hashes [[([5], .put [6])]] none ∧
      SsTableReader.open hashes ['t'] (disk bytes) = .ok reader after ∧
      Ends Error.IsCorruption (SsTableReader.open hashes ['t']) (disk (bytes.set 10 7)) fun reader' _ =>
        Ends Error.IsCorruption (reader'.get hashes [5]) (disk []) fun found' _ => found' = .found [6] := by
  intro hashes disk
  obtain ⟨bytes, bytesDef⟩ : ∃ bytes, bytes = tableBytes hashes [[([5], .put [6])]] none := ⟨_, rfl⟩
  have run : ((SsTableReader.open hashes ['t'] (disk bytes)).result.bind Except.toOption).bind
      (fun reader => (reader.get hashes [5] (disk [])).result.bind Except.toOption) =
        some (.found [6]) := by
    rw [bytesDef]
    decide +kernel
  have stored : (disk bytes).now.content ['t'] = some bytes := by
    rw [bytesDef]
    decide +kernel
  have stored' : (disk (bytes.set 10 7)).now.content ['t'] = some (bytes.set 10 7) := by
    rw [bytesDef]
    decide +kernel
  have burst : Burst 4 bytes (bytes.set 10 7) := by
    refine ⟨bytes.take 10, [6], [7], bytes.drop 11, ?_, ?_, rfl, by decide⟩
    · rw [bytesDef]
      decide +kernel
    · rw [bytesDef]
      decide +kernel
  have footer : footerOf (bytes.set 10 7) = footerOf bytes := by
    have tail : slice (bytes.set 10 7) ((bytes.set 10 7).length - FOOTER_LEN) FOOTER_LEN =
        slice bytes (bytes.length - FOOTER_LEN) FOOTER_LEN := by
      rw [bytesDef]
      decide +kernel
    rw [footerOf, tail]
    rfl
  cases opened : SsTableReader.open hashes ['t'] (disk bytes) with
  | stuck => rw [opened] at run; cases run
  | err error after => rw [opened] at run; cases run
  | ok reader after =>
    rw [opened] at run
    refine ⟨bytes, reader, after, bytesDef, opened, (table_burst rfl (World.fresh_calm _) stored opened
      (World.fresh_calm _) stored' burst footer).mono fun reader' after' holds => ?_⟩
    obtain ⟨_, same, found⟩ := Option.bind_eq_some_iff.mp run
    cases same
    obtain ⟨result, ended, taken⟩ := Option.bind_eq_some_iff.mp found
    cases looked : reader.get hashes [5] (disk []) with
    | stuck => rw [looked] at ended; cases ended
    | err error last => rw [looked] at ended; cases ended; cases taken
    | ok found last =>
      rw [looked] at ended
      cases ended
      cases taken
      exact holds.1 [5] _ _ _ _ looked (World.fresh_calm _)

end Sastran

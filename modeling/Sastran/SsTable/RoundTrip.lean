/-
The table format round trip.

`writeTable_ensures` says what file the writer leaves for entries in ascending key order; a reader of it
returns every entry in order (`nexts_succeeds`) and the entry of each key.
-/

import Sastran.SsTable.Reader
import Sastran.SsTable.Writer

namespace Sastran

open Device SsTable

variable {hashes : Hashes}

/-! ### Reading it back -/

namespace SsTableIterator

/-- The result of a call that yields an entry. -/
def yielded (entry : Key × Entry) : Option (Except Error (Key × Entry)) := some (.ok entry)

/-- **The iterator yields what is left of the entries**, and nothing from then on. -/
theorem nexts_succeeds : ∀ (count : Nat) {rest : List (Key × Entry)} {iterator : SsTableIterator}
    {world : World Fs}, iterator.Yields hashes rest → world.Calm →
    Succeeds (nexts hashes count iterator) world fun items after =>
      items = (rest.map yielded ++ List.replicate count none).take count ∧
      Quiet world after := by
  intro count
  induction count with
  | zero => exact fun _ _ => Succeeds.pure ⟨by simp, Quiet.refl _⟩
  | succ count ih =>
    intro rest iterator world yields calm
    refine Succeeds.bind ((next_succeeds yields calm).mono fun result after holds => ?_)
    obtain ⟨next, quiet⟩ := holds
    obtain ⟨item, iterator'⟩ := result
    rcases item with _ | error | entry
    · obtain ⟨rfl, yields'⟩ := next
      refine Succeeds.bind ((ih yields' (quiet.calm calm)).mono fun items last holds => ?_)
      obtain ⟨rfl, quiet'⟩ := holds
      exact Succeeds.pure ⟨by simp [List.replicate_succ], quiet.trans quiet'⟩
    · exact next.elim
    · obtain ⟨rest', rfl, yields'⟩ := next
      refine Succeeds.bind ((ih yields' (quiet.calm calm)).mono fun items last holds => ?_)
      obtain ⟨rfl, quiet'⟩ := holds
      refine Succeeds.pure ⟨?_, quiet.trans quiet'⟩
      have enough : min (count - (rest'.map yielded).length) count =
          min (count - (rest'.map yielded).length) (count + 1) := by omega
      rw [List.map_cons, List.cons_append, List.take_succ_cons, List.take_append, List.take_append,
        List.take_replicate, List.take_replicate, enough]
      rfl

end SsTableIterator

/-- **Tables survive being written and read.** For entries in ascending key order within the size
limits, any number of expected keys and any filter size, the writer returns unless the file could get
larger than a file may be; a reader then opens the file, iteration yields the entries in order and nothing
from then on, and a key is found with its entry exactly when it was added. -/
theorem table_round_trip (hashes : Hashes) (name : FileName) (expectedKeys bitsPerKey : Nat)
    {entries : List (Key × Entry)} (ascending : entries.Pairwise fun one two => one.1 < two.1)
    (valid : ∀ entry ∈ entries, entry.1 ≠ [] ∧ entry.1.length ≤ 65536 ∧
      entry.2.payload.length ≤ 64 * 1024 * 1024) :
    (maxFileLen < tableRoom
          (if bitsPerKey > 0 then some (BloomFilter.new expectedKeys bitsPerKey) else none) entries ∧
        ∃ written, writeTable hashes name expectedKeys bitsPerKey entries (World.fresh Fs.empty) =
          .err (.io .fileTooLarge) written) ∨
      ∃ written, writeTable hashes name expectedKeys bitsPerKey entries (World.fresh Fs.empty) =
          .ok () written ∧
        ∀ world : World Fs, world.Calm → world.now.content name = written.now.content name →
          ∃ reader opened, SsTableReader.open hashes name world = .ok reader opened ∧
            (∀ count, ∃ after, SsTableIterator.nexts hashes count reader.iter opened =
              .ok ((entries.map SsTableIterator.yielded ++ List.replicate count none).take
                count) after) ∧
            ∀ key, ∃ after, reader.get hashes key opened =
              .ok (match SortedMap.lookupIn key entries with
                | some (.put value) => .found value
                | some (.vector bytes) => .found bytes
                | some .tombstone => .deleted
                | none => .missing) after := by
  have validMap : ValidMap ⟨entries, ascending⟩ := by
    intro key entry found
    obtain ⟨nonempty, short, small⟩ := valid _ (SortedMap.mem_of_lookupIn found)
    exact ⟨nonempty, short, small⟩
  have unwritten : (Fs.empty.content name).getD [] = [] := by
    rw [Fs.content_empty]
    rfl
  rcases ((writeTable_ends (World.fresh_calm Fs.empty) Fs.empty_wf unwritten expectedKeys
    bitsPerKey validMap).of_ensures
    (writeTable_ensures Fs.empty_wf expectedKeys bitsPerKey validMap)).cases with
    ⟨_, written, run, ⟨bytes, held, isTable⟩, _⟩ | ⟨_, written, run, rfl, large⟩
  · refine Or.inr ⟨written, run, fun world calm same => ?_⟩
    obtain ⟨reader, opened, ran, reads, quiet⟩ := SsTableReader.open_succeeds calm (same.trans held)
      isTable
    have calm' := quiet.calm calm
    refine ⟨reader, opened, ran, fun count => ?_, fun key => ?_⟩
    · obtain ⟨items, after, ran, rfl, _⟩ := SsTableIterator.nexts_succeeds count
        (SsTableReader.iter_yields reads) calm'
      exact ⟨after, ran⟩
    · obtain ⟨result, after, ran, rfl, _⟩ := SsTableReader.get_succeeds reads calm' key
      refine ⟨after, ran.trans ?_⟩
      show Outcome.ok (Lookup.of (SortedMap.lookupIn key entries)) after = _
      cases SortedMap.lookupIn key entries with
      | none => rfl
      | some entry => cases entry <;> rfl
  · exact Or.inl ⟨large, written, run⟩

/-- Three entries of all kinds, a filter of three bits a key, and a wrong number of expected keys: the
writer returns, and a reader of the file finds the three and nothing else. -/
theorem table_round_trip_kinds :
    let hashes : Hashes := ⟨fun _ => 0, fun _ => (1, 2)⟩
    let entries : List (Key × Entry) := [([1], .put [2]), ([1, 1], .tombstone), ([3], .vector [])]
    ∃ written, writeTable hashes WAL_FILENAME 7 3 entries (World.fresh Fs.empty) = .ok () written ∧
      ∀ world : World Fs, world.Calm → world.now.content WAL_FILENAME = written.now.content WAL_FILENAME →
        ∃ reader opened, SsTableReader.open hashes WAL_FILENAME world = .ok reader opened ∧
          (∃ after, SsTableIterator.nexts hashes 4 reader.iter opened =
            .ok [some (.ok ([1], .put [2])), some (.ok ([1, 1], .tombstone)), some (.ok ([3], .vector [])),
              none] after) ∧
          (∃ after, reader.get hashes [1] opened = .ok (.found [2]) after) ∧
          (∃ after, reader.get hashes [1, 1] opened = .ok .deleted after) ∧
          (∃ after, reader.get hashes [3] opened = .ok (.found []) after) ∧
          ∃ after, reader.get hashes [2] opened = .ok .missing after := by
  intro hashes entries
  rcases table_round_trip hashes WAL_FILENAME 7 3 (by decide : entries.Pairwise fun one two => one.1 < two.1)
    (by decide) with ⟨large, _⟩ | ⟨written, run, reads⟩
  · exact absurd large (by decide)
  · refine ⟨written, run, fun world calm same => ?_⟩
    obtain ⟨reader, opened, ran, items, gets⟩ := reads world calm same
    exact ⟨reader, opened, ran, items 4, gets [1], gets [1, 1], gets [3], gets [2]⟩

end Sastran

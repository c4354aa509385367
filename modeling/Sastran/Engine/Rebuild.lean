/-
What the recovery of the index does to the entries it reads.

Memtable and tables are gone through newest first, and of each key the first entry counts. So building
an index is one pass over a list of entries (`ingestAll_ends`), and what it has done with a part of them
is the same for a rebuild and for the entries newer than a snapshot (`Built`). Where all vectors that
count have one dimension and are accepted by the metric, both succeed.
-/

import Sastran.Engine.Open
import Sastran.Engine.Views

namespace Sastran

open Device VectorIndex

variable {D : Type} {env : Env D} {world : World Fs}

/-! ### One pass over the entries -/

theorem dataBytes_length_ge (hashes : Hashes) (blocks : List SsTable.Block) :
    blocks.flatten.length ≤ (SsTable.dataBytes hashes blocks).length := by
  induction blocks with
  | nil => exact Nat.zero_le _
  | cons block blocks ih =>
    have own := SsTable.blockBody_length_ge block
    rw [dataBytes_cons, List.flatten_cons, List.length_append, List.length_append,
      SsTable.blockBytes, SsTable.checked_length]
    omega

/-- A table has fewer entries than bytes. -/
theorem SsTableReader.Reads.entries_le {hashes : Hashes} {reader : SsTableReader}
    {map : SortedMap Key Entry} (reads : reader.Reads hashes map) :
    map.entries.length ≤ reader.file.bytes.length := by
  obtain ⟨_, _, blocks, back, flat, _, _, bytes⟩ := reads
  have long := dataBytes_length_ge hashes blocks
  rw [flat] at long
  rw [bytes, List.length_append]
  omega

section Ingesting

variable {fails : Error → Prop} {step : Building → Key → Entry → IoM Building}
  {inv : List (Key × Entry) → Building → Prop}
  (each : ∀ key entry rest built (world : World Fs), inv ((key, entry) :: rest) built →
    Ends fails (step built key entry) world fun after world' => inv rest after ∧ world' = world)

include each

theorem ingestSstable_ends (calm : world.Calm) {built : Building} {entry : SsTableEntry}
    {map : SortedMap Key Entry} (reads : entry.reader.Reads env.hashes map)
    (rest : List (Key × Entry)) (start : inv (map.entries ++ rest) built) :
    Ends fails (ingestSstable env step built entry) world fun after world' =>
      inv rest after ∧ Quiet world world' := by
  have rounds : ∀ (fuel : Nat) (left : List (Key × Entry)) (iterator : SsTableIterator)
      (built : Building) (world : World Fs), iterator.Yields env.hashes left → world.Calm →
      inv (left ++ rest) built → left.length < fuel →
      Ends fails (Prog.loop (ingestRound env step) fuel (iterator, built)) world fun after world' =>
        inv rest after ∧ Quiet world world' := by
    intro fuel
    induction fuel with
    | zero => exact fun _ _ _ _ _ _ _ bound => absurd bound (Nat.not_lt_zero _)
    | succ fuel ih =>
      intro left iterator built world yields calm holds bound
      refine Ends.bind (Ends.bind ((SsTableIterator.next_succeeds yields calm).ends.mono
        fun item middle got => ?_))
      obtain ⟨got, quiet⟩ := got
      obtain ⟨item, following⟩ := item
      match item, got with
      | none, got =>
        obtain ⟨rfl, _⟩ := got
        exact Ends.pure ⟨holds, quiet⟩
      | some (.ok (key, entry)), got =>
        obtain ⟨left', rfl, yields'⟩ := got
        refine Ends.bind ((each key entry (left' ++ rest) built middle holds).mono
          fun built' after both => ?_)
        obtain ⟨holds', rfl⟩ := both
        rw [List.length_cons] at bound
        refine Ends.pure ((ih left' following built' _ yields' (quiet.calm calm) holds' (by omega)).mono
          fun built'' last done => ?_)
        exact ⟨done.1, quiet.trans done.2⟩
  have few := reads.entries_le
  exact rounds _ _ _ _ _ (SsTableReader.iter_yields reads) calm start (by omega)

/-- **Recovery is one pass over the entries**, newest source first. -/
theorem ingestAll_ends (calm : world.Calm) {index : VectorIndex} {memtable : Memtable}
    {tables : List SsTableEntry} {maps : List (SortedMap Key Entry)}
    (loaded : List.Forall₂ (fun entry map => entry.reader.Reads env.hashes map) tables maps)
    (start : inv (memtable.map.entries ++ maps.flatMap SortedMap.entries) ⟨index, []⟩) :
    Ends fails (ingestAll env step index memtable tables) world fun after world' =>
      (∃ seen, inv [] ⟨after, seen⟩) ∧ Quiet world world' := by
  have held : Ends fails (Prog.foldM (fun state entry => step state entry.1 entry.2) ⟨index, []⟩
      memtable.iter) world fun built after =>
        inv (maps.flatMap SortedMap.entries) built ∧ after = world := by
    refine (Ends.foldM (fun rest built after =>
      inv (rest ++ maps.flatMap SortedMap.entries) built ∧ after = world) ?_ _ _ _
      ⟨start, rfl⟩).mono fun built after holds => holds
    rintro built ⟨key, entry⟩ rest after ⟨holds, rfl⟩
    exact each key entry _ built _ holds
  refine Ends.bind (held.mono fun built after holds => ?_)
  obtain ⟨holds, rfl⟩ := holds
  have folded : ∀ (tables : List SsTableEntry) (maps : List (SortedMap Key Entry)) (built : Building)
      (world : World Fs),
      List.Forall₂ (fun entry map => entry.reader.Reads env.hashes map) tables maps → world.Calm →
      inv (maps.flatMap SortedMap.entries) built →
      Ends fails (Prog.foldM (ingestSstable env step) built tables) world fun built' after =>
        inv [] built' ∧ Quiet world after := by
    intro tables
    induction tables with
    | nil =>
      rintro maps built world loaded calm holds
      obtain rfl := List.forall₂_nil_left_iff.mp loaded
      exact Ends.pure ⟨holds, Quiet.refl world⟩
    | cons first rest ih =>
      rintro maps built world loaded calm holds
      obtain ⟨map, maps', reads, loaded', rfl⟩ := List.forall₂_cons_left_iff.mp loaded
      rw [List.flatMap_cons] at holds
      refine Ends.bind ((ingestSstable_ends each calm reads _ holds).mono fun built' after both => ?_)
      refine (ih maps' built' after loaded' (both.2.calm calm) both.1).mono fun built'' last done => ?_
      exact ⟨done.1, both.2.trans done.2⟩
  refine Ends.bind ((folded tables maps built after loaded calm holds).mono fun built' last done => ?_)
  exact Ends.pure ⟨⟨built'.seen, done.1⟩, done.2⟩

end Ingesting

/-! ### What an entry does -/

def Entry.isVector : Entry → Bool
  | .vector _ => true
  | .put _ => false
  | .tombstone => false

/-- The vector an entry registers. -/
def Env.registers (env : Env D) : Entry → Option (List F32)
  | .vector bytes => env.ops.preprocessVector env.options.hnswParams.metric (decodeComponents bytes)
  | .put _ => none
  | .tombstone => none

@[simp] theorem Env.registers_encodeVector (v : List F32) :
    env.registers (.vector (encodeVector v)) =
      env.ops.preprocessVector env.options.hnswParams.metric v := by
  rw [Env.registers, decodeComponents_encodeVector]

/-- Tombstones register nothing. -/
theorem Env.registers_live (env : Env D) (newest : Option Entry) :
    (newest.filter Entry.isLive).bind env.registers = newest.bind env.registers := by
  cases newest with
  | none => rfl
  | some entry => cases entry <;> rfl

/-- An entry an index of this dimension takes: only vectors are looked at. -/
def Env.Takes (env : Env D) (dim : Nat) : Entry → Prop
  | .vector bytes => bytes.length = 4 * dim ∧ env.registers (.vector bytes) ≠ none
  | .put _ => True
  | .tombstone => True

instance Env.decidableTakes (env : Env D) (dim : Nat) : DecidablePred (env.Takes dim)
  | .vector bytes =>
    inferInstanceAs (Decidable (bytes.length = 4 * dim ∧ env.registers (.vector bytes) ≠ none))
  | .put _ => inferInstanceAs (Decidable True)
  | .tombstone => inferInstanceAs (Decidable True)

theorem decodeComponents_length : ∀ {bytes : Bytes} {dim : Nat}, bytes.length = 4 * dim →
    (decodeComponents bytes).length = dim
  | [], dim, sized => by
    simp only [List.length_nil] at sized
    simp only [decodeComponents, List.length_nil]
    omega
  | [_], dim, sized => by simp only [List.length_cons, List.length_nil] at sized; omega
  | [_, _], dim, sized => by simp only [List.length_cons, List.length_nil] at sized; omega
  | [_, _, _], dim, sized => by simp only [List.length_cons, List.length_nil] at sized; omega
  | a :: b :: c :: d :: rest, dim, sized => by
    simp only [List.length_cons] at sized
    have shorter : rest.length = 4 * (dim - 1) := by omega
    rw [decodeComponents, List.length_cons, decodeComponents_length shorter]
    omega

/-- A vector entry that is taken, decoded. -/
theorem Env.Takes.decoded {dim : Nat} {bytes : Bytes} (takes : env.Takes dim (.vector bytes)) :
    ∃ embedding processed, decodeVector bytes = .ok embedding ∧ embedding.length = dim ∧
      env.registers (.vector bytes) = some processed ∧
      env.ops.preprocessVector env.options.hnswParams.metric embedding = some processed := by
  obtain ⟨sized, accepted⟩ := takes
  obtain ⟨processed, registered⟩ := Option.ne_none_iff_exists'.mp accepted
  refine ⟨decodeComponents bytes, processed, ?_, decodeComponents_length sized, registered, registered⟩
  rw [decodeVector, if_neg (by rw [sized]; omega)]

theorem decodeComponents_whole {bytes : Bytes} (whole : bytes.length % 4 = 0) :
    bytes.length = 4 * (decodeComponents bytes).length := by
  have quarters : bytes.length = 4 * (bytes.length / 4) := by omega
  rwa [decodeComponents_length quarters]

theorem decodeVector_length {bytes : Bytes} {embedding : List F32}
    (decoded : decodeVector bytes = .ok embedding) : bytes.length = 4 * embedding.length := by
  unfold decodeVector at decoded
  split at decoded
  · cases decoded
  · rename_i whole
    obtain rfl := Except.ok.inj decoded
    exact decodeComponents_whole (not_not.mp whole)

/-- A vector entry that decodes to an accepted vector. -/
theorem Env.Takes.of_decoded {dim : Nat} {bytes : Bytes} {embedding : List F32}
    (decoded : decodeVector bytes = .ok embedding) (sized : embedding.length = dim)
    (accepted : env.ops.preprocessVector env.options.hnswParams.metric embedding ≠ none) :
    env.Takes dim (.vector bytes) := by
  have four := decodeVector_length decoded
  unfold decodeVector at decoded
  split at decoded
  · cases decoded
  · obtain rfl := Except.ok.inj decoded
    exact ⟨sized ▸ four, accepted⟩

/-- **What a pass has done** with the entries behind it: the first entry of each key counts, and a key
without one is as in the index the pass began with. -/
structure Built (env : Env D) (dim : Nat) (base : VectorIndex) (done : List (Key × Entry))
    (built : Building) : Prop where
  sound : built.index.Sound env.options.hnswParams
  fits : base.Fits dim → built.index.Fits dim
  seen : ∀ key, key ∈ built.seen ↔ SortedMap.lookupIn key done ≠ none
  view : ∀ key, built.index.view key =
    match SortedMap.lookupIn key done with
    | some entry => env.registers entry
    | none => base.view key
  inserted : ∃ keys : List Key, keys.Nodup ∧
    (∀ key ∈ keys, ∃ entry, SortedMap.lookupIn key done = some entry ∧ entry.isVector = true) ∧
    built.index.hnsw.nodes.length = base.hnsw.nodes.length + keys.length

/-- What a pass over all entries needs: vectors of one dimension that the metric accepts, and ids for
their nodes. -/
structure Passable (env : Env D) (dim start : Nat) (all : List (Key × Entry)) : Prop where
  positive : 0 < dim
  takes : ∀ key entry, SortedMap.lookupIn key all = some entry → env.Takes dim entry
  valid : ∀ entry ∈ all, ValidEntry entry.1 entry.2
  room : ∀ keys : List Key, keys.Nodup →
    (∀ key ∈ keys, ∃ entry, SortedMap.lookupIn key all = some entry ∧ entry.isVector = true) →
    start + keys.length < nodeIdBound

namespace Built

variable {dim : Nat} {base : VectorIndex} {done : List (Key × Entry)} {built : Building} {key : Key}
  {entry : Entry}

theorem start {base : VectorIndex} (sound : base.Sound env.options.hnswParams) :
    Built env dim base [] ⟨base, []⟩ :=
  ⟨sound, id, fun key => by simp [SortedMap.lookupIn], fun key => rfl, [], List.nodup_nil, nofun, rfl⟩

theorem lookupIn_next (done : List (Key × Entry)) (key : Key) (entry : Entry) (other : Key) :
    SortedMap.lookupIn other (done ++ [(key, entry)]) =
      (SortedMap.lookupIn other done).or (if key = other then some entry else none) := by
  rw [SortedMap.lookupIn_append]
  by_cases same : key = other <;> simp [SortedMap.lookupIn, same]

/-- An entry of a key a newer one decided. -/
theorem skip (holds : Built env dim base done built) (seen : key ∈ built.seen) :
    Built env dim base (done ++ [(key, entry)]) built := by
  have same : ∀ other, SortedMap.lookupIn other (done ++ [(key, entry)]) =
      SortedMap.lookupIn other done := by
    intro other
    rw [lookupIn_next]
    by_cases isKey : key = other
    · obtain ⟨held, found⟩ := Option.ne_none_iff_exists'.mp ((holds.seen key).mp seen)
      rw [← isKey, found]
      rfl
    · rw [if_neg isKey, Option.or_none]
  refine ⟨holds.sound, holds.fits, fun other => ?_, fun other => ?_, ?_⟩
  · rw [same]
    exact holds.seen other
  · rw [same]
    exact holds.view other
  · obtain ⟨keys, distinct, vectors, length⟩ := holds.inserted
    exact ⟨keys, distinct, fun other member => by rw [same]; exact vectors other member, length⟩

/-- The first entry of a key. -/
theorem next (holds : Built env dim base done built) (unseen : key ∉ built.seen) {index : VectorIndex}
    (sound : index.Sound env.options.hnswParams) (fits : base.Fits dim → index.Fits dim)
    (view : index.view = Function.update built.index.view key (env.registers entry))
    (length : index.hnsw.nodes.length =
      built.index.hnsw.nodes.length + if entry.isVector = true then 1 else 0) :
    Built env dim base (done ++ [(key, entry)]) ⟨index, key :: built.seen⟩ := by
  have fresh : SortedMap.lookupIn key done = none := by
    by_contra present
    exact unseen ((holds.seen key).mpr present)
  have older : ∀ {other : Key}, key ≠ other → SortedMap.lookupIn other (done ++ [(key, entry)]) =
      SortedMap.lookupIn other done := by
    intro other apart
    rw [lookupIn_next, if_neg apart, Option.or_none]
  have here : SortedMap.lookupIn key (done ++ [(key, entry)]) = some entry := by
    rw [lookupIn_next, fresh, if_pos rfl]
    rfl
  refine ⟨sound, fits, fun other => ?_, fun other => ?_, ?_⟩
  · by_cases same : key = other
    · subst same
      simp [here]
    · rw [older same, List.mem_cons, holds.seen]
      exact or_iff_right (Ne.symm same)
  · show index.view other = _
    rw [view]
    by_cases same : key = other
    · subst same
      rw [Function.update_self, here]
    · rw [Function.update_of_ne (Ne.symm same), older same]
      exact holds.view other
  · obtain ⟨keys, distinct, vectors, grown⟩ := holds.inserted
    have kept : ∀ other ∈ keys, ∃ entry', SortedMap.lookupIn other (done ++ [(key, entry)]) =
        some entry' ∧ entry'.isVector = true := by
      intro other member
      obtain ⟨entry', found, isVector⟩ := vectors other member
      refine ⟨entry', ?_, isVector⟩
      rw [lookupIn_next, found]
      rfl
    cases isVector : entry.isVector with
    | false =>
      rw [isVector, if_neg Bool.false_ne_true] at length
      exact ⟨keys, distinct, kept, length.trans grown⟩
    | true =>
      rw [isVector, if_pos rfl] at length
      refine ⟨key :: keys, List.nodup_cons.mpr ⟨fun member => ?_, distinct⟩, fun other member => ?_, ?_⟩
      · obtain ⟨entry', found, _⟩ := vectors key member
        rw [fresh] at found
        cases found
      · rcases List.mem_cons.mp member with rfl | member
        · exact ⟨entry, here, isVector⟩
        · exact kept other member
      · show index.hnsw.nodes.length = _
        rw [length, grown, List.length_cons]
        omega

variable {all rest : List (Key × Entry)}

/-- There are ids for a vector still to come. -/
theorem room (holds : Built env dim base done built) (split : done ++ (key, entry) :: rest = all)
    (passable : Passable env dim base.hnsw.nodes.length all) (unseen : key ∉ built.seen)
    (isVector : entry.isVector = true) : built.index.hnsw.nodes.length < nodeIdBound := by
  obtain ⟨keys, distinct, vectors, grown⟩ := holds.inserted
  have fresh : SortedMap.lookupIn key done = none := by
    by_contra present
    exact unseen ((holds.seen key).mpr present)
  have enough := passable.room (key :: keys) (List.nodup_cons.mpr ⟨fun member => ?_, distinct⟩) ?_
  · rw [List.length_cons] at enough
    omega
  · obtain ⟨entry', found, _⟩ := vectors key member
    rw [fresh] at found
    cases found
  · intro other member
    rw [← split, SortedMap.lookupIn_append]
    rcases List.mem_cons.mp member with rfl | member
    · refine ⟨entry, ?_, isVector⟩
      rw [fresh, SortedMap.lookupIn, if_pos rfl]
      rfl
    · obtain ⟨entry', found, isVector'⟩ := vectors other member
      exact ⟨entry', by rw [found]; rfl, isVector'⟩

/-- There are ids for the nodes so far. -/
theorem within (holds : Built env dim base done built) (split : done ++ rest = all)
    (passable : Passable env dim base.hnsw.nodes.length all) :
    built.index.hnsw.nodes.length < nodeIdBound := by
  obtain ⟨keys, distinct, vectors, grown⟩ := holds.inserted
  rw [grown]
  refine passable.room keys distinct fun other member => ?_
  obtain ⟨entry', found, isVector⟩ := vectors other member
  refine ⟨entry', ?_, isVector⟩
  rw [← split, SortedMap.lookupIn_append, found]
  rfl

/-- The first entry of a key is the one that counts of all. -/
theorem first_of_all (holds : Built env dim base done built)
    (split : done ++ (key, entry) :: rest = all) (unseen : key ∉ built.seen) :
    SortedMap.lookupIn key all = some entry := by
  have fresh : SortedMap.lookupIn key done = none := by
    by_contra present
    exact unseen ((holds.seen key).mpr present)
  rw [← split, SortedMap.lookupIn_append, fresh, SortedMap.lookupIn, if_pos rfl]
  rfl

end Built

theorem Building.once_ends {fails : Error → Prop} {state : Building} {key : Key} {program : IndexM Unit}
    {post : Building → Prop} (skipped : key ∈ state.seen → post state)
    (run : key ∉ state.seen →
      Ends fails program state.index fun _ after => post ⟨after, key :: state.seen⟩) :
    Ends fails (state.once key program) world fun after world' => post after ∧ world' = world := by
  unfold Building.once
  split
  · rename_i seen
    exact Ends.pure ⟨skipped seen, rfl⟩
  · rename_i unseen
    have ends := run unseen
    unfold Ends at ends ⊢
    rw [bind_eq, building]
    cases ran : program state.index with
    | ok value after =>
      rw [ran] at ends
      exact ⟨ends, rfl⟩
    | err error after =>
      rw [ran] at ends
      exact ends
    | stuck =>
      rw [ran] at ends
      exact ends

/-! ### The two passes -/

variable [LinearOrder D]

omit [LinearOrder D] in
theorem VectorIndex.Fits.admits {dim : Nat} {index : VectorIndex} (fits : index.Fits dim)
    (sound : index.Sound env.options.hnswParams) (positive : 0 < dim) {embedding processed : List F32}
    (sized : embedding.length = dim)
    (accepted : env.ops.preprocessVector env.options.hnswParams.metric embedding = some processed) :
    index.Admits env.ops embedding processed := by
  refine ⟨fun expected found => sized.trans (fits.expected expected found).symm, ?_, ?_, ?_⟩
  · rintro rfl
    rw [List.length_nil] at sized
    omega
  · rw [sized]
    exact fits.graph.imp_right Eq.symm
  · rw [sound.metric]
    exact accepted

namespace Built

variable {dim : Nat} {base : VectorIndex} {done rest all : List (Key × Entry)} {built : Building}
  {key : Key} {entry : Entry}

/-- **A vector that counts** is registered, if the index the pass began with has its dimension. -/
theorem vector {bytes : Bytes} (holds : Built env dim base done built)
    (split : done ++ (key, .vector bytes) :: rest = all)
    (passable : Passable env dim base.hnsw.nodes.length all) (unseen : key ∉ built.seen)
    (mismatch : List F32 → Nat → Error) :
    ∃ embedding, decodeVector bytes = .ok embedding ∧
      Ends (fun _ => ¬ base.Fits dim) (do
        IndexM.establish embedding.length (mismatch embedding)
        IndexM.dropKey env.ops key
        IndexM.addKey env.ops key embedding) built.index
        fun _ after => Built env dim base (done ++ [(key, .vector bytes)]) ⟨after, key :: built.seen⟩ := by
  have counts := holds.first_of_all split unseen
  obtain ⟨embedding, processed, decoded, sized, registered, accepted⟩ :=
    (passable.takes key _ counts).decoded
  have valid : ValidEntry key (.vector bytes) := passable.valid (key, .vector bytes)
    (split ▸ List.mem_append_right _ (List.mem_cons_self ..))
  have short : key.length < 2 ^ 32 := lt_of_le_of_lt valid.key_le (by decide)
  have few : embedding.length < 2 ^ 32 := by
    have large := valid.payload_le
    have four := (passable.takes key _ counts).1
    have bytes_few : bytes.length ≤ Wal.MAX_VALUE_LEN := large
    have : Wal.MAX_VALUE_LEN < 2 ^ 32 := by decide
    omega
  refine ⟨embedding, decoded, ?_⟩
  rcases replaceKey_outcome env.ops holds.sound (holds.room split passable unseen rfl) valid.key_ne_nil
    short few (mismatch embedding) with
    ⟨processed', after, admits, run, sound, view, length, established⟩ | ⟨error, after, rejected, run, _⟩
  · have same : processed' = processed := by
      have taken := admits.graph.2.2
      rw [holds.sound.metric, accepted] at taken
      exact (Option.some.inj taken).symm
    rw [Ends, run]
    refine holds.next unseen sound (fun _ => sized ▸ established.fits) ?_ length
    rw [view, same, registered]
  · rw [Ends, run]
    exact fun fits => rejected processed
      ((holds.fits fits).admits holds.sound passable.positive sized accepted)

/-- A key that has no vector any more. -/
theorem dropped (holds : Built env dim base done built)
    (room : built.index.hnsw.nodes.length ≤ nodeIdBound) (unseen : key ∉ built.seen)
    (none : env.registers entry = none) (isVector : entry.isVector = false) :
    Ends (fun _ => ¬ base.Fits dim) (IndexM.dropKey env.ops key) built.index
      fun _ after => Built env dim base (done ++ [(key, entry)]) ⟨after, key :: built.seen⟩ := by
  refine (dropKey_sound env.ops holds.sound room key).ends.mono fun _ after facts => ?_
  obtain ⟨sound, view, length, dim, expected, _⟩ := facts
  refine holds.next unseen sound (fun fits => ?_) (by rw [view, none]) (by rw [length, isVector]; rfl)
  have fits' := holds.fits fits
  exact ⟨fun other found => fits'.expected other (expected ▸ found), dim ▸ fits'.graph⟩

omit [LinearOrder D] in
/-- A key that never had one. -/
theorem ignored (holds : Built env dim base done built) (unseen : key ∉ built.seen)
    (none : env.registers entry = none) (isVector : entry.isVector = false)
    (blank : base.view key = Option.none) :
    Built env dim base (done ++ [(key, entry)]) ⟨built.index, key :: built.seen⟩ := by
  refine holds.next unseen holds.sound holds.fits ?_ (by rw [isVector]; rfl)
  have absent : built.index.view key = Option.none := by
    have fresh : SortedMap.lookupIn key done = Option.none := by
      by_contra present
      exact unseen ((holds.seen key).mpr present)
    rw [holds.view, fresh]
    exact blank
  rw [none, eq_comm, Function.update_eq_self_iff, eq_comm]
  exact absent

end Built

section Passes

variable {dim : Nat} {memtable : Memtable} {tables : List SsTableEntry}
  {maps : List (SortedMap Key Entry)}

/-- What a pass keeps: the entries behind it are dealt with. -/
def Passing (env : Env D) (dim : Nat) (base : VectorIndex) (all rest : List (Key × Entry))
    (built : Building) : Prop :=
  ∃ done, done ++ rest = all ∧ Built env dim base done built

omit [LinearOrder D] in
theorem Passing.step {base : VectorIndex} {all rest : List (Key × Entry)} {key : Key} {entry : Entry}
    {after : Building} {done : List (Key × Entry)} (split : done ++ (key, entry) :: rest = all)
    (holds : Built env dim base (done ++ [(key, entry)]) after) :
    Passing env dim base all rest after :=
  ⟨done ++ [(key, entry)], by rw [← split, List.append_assoc]; rfl, holds⟩

/-- **Newer entries are applied to an index**, if it has their dimension. -/
theorem applyDelta_ends (calm : world.Calm) {base : VectorIndex}
    (sound : base.Sound env.options.hnswParams)
    (loaded : List.Forall₂ (fun entry map => entry.reader.Reads env.hashes map) tables maps)
    (passable : Passable env dim base.hnsw.nodes.length
      (memtable.map.entries ++ maps.flatMap SortedMap.entries)) :
    Ends (fun _ => ¬ base.Fits dim) (ingestAll env (applyDeltaEntry env) base memtable tables) world
      fun after world' => (∃ seen, Built env dim base
        (memtable.map.entries ++ maps.flatMap SortedMap.entries) ⟨after, seen⟩) ∧ Quiet world world' := by
  have each : ∀ key entry rest built (world : World Fs), Passing env dim base
      (memtable.map.entries ++ maps.flatMap SortedMap.entries) ((key, entry) :: rest) built →
      Ends (fun _ => ¬ base.Fits dim) (applyDeltaEntry env built key entry) world fun after world' =>
        Passing env dim base (memtable.map.entries ++ maps.flatMap SortedMap.entries) rest after ∧
          world' = world := by
    rintro key entry rest built world ⟨done, split, holds⟩
    refine Building.once_ends (fun seen => Passing.step split (holds.skip seen)) fun unseen => ?_
    have room := holds.within split passable
    cases entry with
    | tombstone => exact (holds.dropped room.le unseen rfl rfl).mono fun _ after => Passing.step split
    | put value => exact (holds.dropped room.le unseen rfl rfl).mono fun _ after => Passing.step split
    | vector bytes =>
      obtain ⟨embedding, decoded, ends⟩ := holds.vector split passable unseen fun embedding d =>
        .corruption s!"delta vector dim {embedding.length} != index dim {d}"
      rw [deltaProgram, decoded]
      exact ends.mono fun _ after => Passing.step split
  refine (ingestAll_ends each calm loaded ⟨[], rfl, Built.start sound⟩).mono fun after world' facts => ?_
  obtain ⟨⟨seen, done, split, holds⟩, quiet⟩ := facts
  rw [List.append_nil] at split
  exact ⟨⟨seen, split ▸ holds⟩, quiet⟩

/-- **A rebuild succeeds**, and registers the vectors that count. -/
theorem fullRebuild_succeeds (calm : world.Calm) {inner : EngineInner}
    (loaded : List.Forall₂ (fun entry map => entry.reader.Reads env.hashes map)
      (inner.levels.l0 ++ inner.levels.l1) maps)
    (passable : Passable env dim 0 (inner.memtable.map.entries ++ maps.flatMap SortedMap.entries))
    (fits : (VectorIndex.new env.options.hnswParams).Fits dim) :
    Succeeds (fullRebuildIndexFromLsm env inner) world fun after world' =>
      (∃ seen, Built env dim (VectorIndex.new env.options.hnswParams)
        (inner.memtable.map.entries ++ maps.flatMap SortedMap.entries) ⟨after, seen⟩) ∧
        Quiet world world' := by
  set base := VectorIndex.new env.options.hnswParams with baseDef
  set all := inner.memtable.map.entries ++ maps.flatMap SortedMap.entries
  have each : ∀ key entry rest built (world : World Fs), Passing env dim base all ((key, entry) :: rest)
      built → Ends (fun _ => ¬ base.Fits dim) (ingestEntry env built key entry) world
        fun after world' => Passing env dim base all rest after ∧ world' = world := by
    rintro key entry rest built world ⟨done, split, holds⟩
    refine Building.once_ends (fun seen => Passing.step split (holds.skip seen)) fun unseen => ?_
    cases entry with
    | tombstone => exact Ends.pure (Passing.step split (holds.ignored unseen rfl rfl rfl))
    | put value => exact Ends.pure (Passing.step split (holds.ignored unseen rfl rfl rfl))
    | vector bytes =>
      obtain ⟨embedding, decoded, ends⟩ := holds.vector split passable unseen fun embedding d =>
        .corruption ("vector entry dim mismatch during index rebuild: " ++
          s!"stored {embedding.length} but expected {d}")
      have fresh : built.index.keyToNode.find? key = none := by
        rw [← holds.sound.matched.view_eq_none, holds.view]
        have first : SortedMap.lookupIn key done = none := by
          by_contra present
          exact unseen ((holds.seen key).mpr present)
        rw [first]
        rfl
      rw [rebuildProgram, insertIntoIndex, decoded]
      have ends' := ends.mono fun _ after => Passing.step split
      unfold Ends at ends' ⊢
      rw [← IndexM.replaceKey_unregistered env.ops fresh] at ends'
      exact ends'
  have ends := ingestAll_ends each calm loaded ⟨[], rfl, Built.start (new_sound _)⟩
  rcases ends.cases with ⟨after, world', run, ⟨seen, done, split, holds⟩, quiet⟩ | ⟨_, _, _, unfit⟩
  · rw [List.append_nil] at split
    exact ⟨after, world', run, ⟨seen, split ▸ holds⟩, quiet⟩
  · exact absurd fits unfit

end Passes

end Sastran

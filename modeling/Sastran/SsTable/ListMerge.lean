/-
The merge of lists that may end in an error.

`ListSource` gives its entries and then, if there is one, its error. Up to the first error a merge of
such sources does what it does where every error is taken for the end of its list (`nextEntry`), so
the results about sources without errors apply (`next_cases`); and no error is passed over, because
a source that still has one is in the heap (`Carried`). `newest_wins` says what draining a merge
gives, construction included.
-/

import Mathlib.Data.Set.Finite.Lemmas
import Sastran.SsTable.Merge
import Sastran.Store.Lsm

namespace Sastran

open Device

/-! ### The merge of layers exists -/

section Layers

variable {layers : List Layer}

theorem Layered.of_perm {layers' : List Layer} (layered : Layered layers)
    (perm : layers'.Perm layers) : Layered layers' := by
  refine ⟨fun layer member => layered.ascending layer (perm.mem_iff.mp member), ?_⟩
  exact perm.symm.pairwise layered.distinct fun different => Ne.symm different

theorem IsMerge.of_perm {layers' : List Layer} {merged : List (Key × Entry)}
    (isMerge : IsMerge layers merged) (perm : layers'.Perm layers) : IsMerge layers' merged := by
  refine ⟨isMerge.ascending, fun key entry => (isMerge.newest key entry).trans ?_⟩
  simp only [IsNewest, perm.mem_iff]

/-- Layers of descending sequences are merged by the union of their maps. -/
theorem isMerge_union {tables : List Table}
    (descending : tables.Pairwise fun newer older => older.1 < newer.1) :
    IsMerge (tables.map fun table => (table.1, table.2.entries))
      (SortedMap.union (tables.map Prod.snd)).entries := by
  refine ⟨(SortedMap.union _).ascending, fun key entry => ?_⟩
  have lookup : SortedMap.lookupIn key (SortedMap.union (tables.map Prod.snd)).entries =
      newestOf (tables.map fun table => table.2.find?) key := by
    have found := SortedMap.find?_union (tables.map Prod.snd) key
    rw [List.map_map] at found
    exact found
  rw [lookup, Lsm.newestOf_descending descending]
  constructor
  · rintro ⟨table, member, held, highest⟩
    refine ⟨(table.1, table.2.entries), List.mem_map_of_mem member, held, fun other member' => ?_⟩
    obtain ⟨table', inside, rfl⟩ := List.mem_map.mp member'
    exact highest table' inside
  · rintro ⟨layer, member, held, highest⟩
    obtain ⟨table, inside, rfl⟩ := List.mem_map.mp member
    exact ⟨table, inside, held, fun other member' => highest _ (List.mem_map_of_mem member')⟩

/-- The layers as tables, the newest first. -/
theorem exists_isMerge (layered : Layered layers) : ∃ merged, IsMerge layers merged := by
  let tables : List Table := layers.pmap (fun layer ascending => (layer.1, ⟨layer.2, ascending⟩))
    layered.ascending
  let newer : Table → Table → Bool := fun one two => decide (two.1 ≤ one.1)
  have asLayers : tables.map (fun table => (table.1, table.2.entries)) = layers := by
    rw [List.map_pmap]
    show List.pmap (fun layer _ => layer) layers layered.ascending = layers
    rw [List.pmap_eq_map, List.map_id']
  have perm : (tables.mergeSort newer).Perm tables := List.mergeSort_perm tables newer
  have distinct : (tables.mergeSort newer).Pairwise fun one two => one.1 ≠ two.1 := by
    have unsorted : tables.Pairwise fun one two => one.1 ≠ two.1 := by
      have distinct := layered.distinct
      rw [← asLayers, List.pairwise_map] at distinct
      exact distinct
    exact perm.symm.pairwise unsorted fun different => Ne.symm different
  have transitive : ∀ one two three : Table, newer one two → newer two three → newer one three := by
    intro one two three first second
    simp only [newer, decide_eq_true_eq] at first second ⊢
    omega
  have total : ∀ one two : Table, newer one two || newer two one := by
    intro one two
    simp only [newer, Bool.or_eq_true, decide_eq_true_eq]
    omega
  have sorted := List.pairwise_mergeSort transitive total tables
  have descending : (tables.mergeSort newer).Pairwise fun one two => two.1 < one.1 := by
    refine (sorted.and distinct).imp fun {one two} holds => ?_
    have least : two.1 ≤ one.1 := by simpa [newer] using holds.1
    exact lt_of_le_of_ne least (Ne.symm holds.2)
  refine ⟨_, (isMerge_union descending).of_perm ?_⟩
  rw [← asLayers]
  exact (perm.map _).symm

/-- A merge has the keys of its layers. -/
theorem IsMerge.keys {merged : List (Key × Entry)} (isMerge : IsMerge layers merged) (key : Key) :
    (∃ entry, (key, entry) ∈ merged) ↔ ∃ layer ∈ layers, ∃ entry, (key, entry) ∈ layer.2 := by
  constructor
  · rintro ⟨entry, member⟩
    obtain ⟨layer, inside, found, _⟩ := (isMerge.newest key entry).mp
      (SortedMap.lookupIn_of_mem isMerge.ascending member)
    exact ⟨layer, inside, entry, SortedMap.mem_of_lookupIn found⟩
  · rintro ⟨layer, inside, entry, member⟩
    have present : SortedMap.lookupIn key layer.2 ≠ none := fun absent =>
      SortedMap.lookupIn_eq_none.mp absent _ member rfl
    -- The newest of the layers that have the key.
    obtain ⟨newest, holds, highest⟩ := Set.exists_max_image
      {layer : Layer | layer ∈ layers ∧ SortedMap.lookupIn key layer.2 ≠ none} Prod.fst
      ((List.finite_toSet layers).subset fun _ holds => holds.1) ⟨layer, inside, present⟩
    obtain ⟨held, found⟩ := Option.ne_none_iff_exists'.mp holds.2
    refine ⟨held, SortedMap.mem_of_lookupIn ((isMerge.newest key held).mpr
      ⟨newest, holds.1, found, fun other member' present' => highest other ⟨member', present'⟩⟩)⟩

end Layers

/-! ### Lists as sources -/

/-- A source that gives its entries and then, if there is one, its error. -/
structure ListSource where
  entries : List (Key × Entry)
  fault : Option Error

namespace ListSource

/-- The next item of the list. -/
def next (source : ListSource) : IoM (Option (Except Error (Key × Entry)) × ListSource) :=
  match source.entries, source.fault with
  | entry :: rest, fault => pure (some (.ok entry), ⟨rest, fault⟩)
  | [], some error => pure (some (.error error), ⟨[], none⟩)
  | [], none => pure (none, ⟨[], none⟩)

/-- `next`, with an error taken for the end of the list. -/
def nextEntry (source : ListSource) : IoM (Option (Except Error (Key × Entry)) × ListSource) :=
  match source.entries with
  | entry :: rest => pure (some (.ok entry), ⟨rest, source.fault⟩)
  | [] => pure (none, source)

/-- The source has these entries left. -/
def Gives (source : ListSource) (rest : List (Key × Entry)) : Prop := source.entries = rest

theorem nextEntry_sourced : MergingIterator.Sourced nextEntry Gives := by
  rintro ⟨entries, fault⟩ rest world rfl _
  cases entries with
  | nil => exact Succeeds.pure ⟨⟨rfl, rfl⟩, Quiet.refl _⟩
  | cons entry entries => exact Succeeds.pure ⟨⟨entries, rfl, rfl⟩, Quiet.refl _⟩

theorem nextEntry_pure (source : ListSource) : ∃ item after, nextEntry source = pure (item, after) ∧
    after.fault = source.fault ∧ ∀ error, item ≠ some (.error error) := by
  obtain ⟨entries, fault⟩ := source
  cases entries with
  | nil => exact ⟨_, _, rfl, rfl, nofun⟩
  | cons entry entries => exact ⟨_, _, rfl, rfl, nofun⟩

/-- The two differ at an error only. -/
theorem next_cases (source : ListSource) : next source = nextEntry source ∨
    ∃ error, source.fault = some error ∧ next source = pure (some (.error error), ⟨[], none⟩) := by
  obtain ⟨entries, fault⟩ := source
  cases entries with
  | cons entry entries => exact Or.inl rfl
  | nil =>
    cases fault with
    | none => exact Or.inl rfl
    | some error => exact Or.inr ⟨error, rfl, rfl⟩

end ListSource

namespace MergingIterator

/-- The answers of the next `count` calls. -/
def nexts {S : Type} (pull : S → IoM (Option (Except Error (Key × Entry)) × S)) (rounds : Nat) :
    Nat → MergingIterator S → IoM (List (Option (Except Error (Key × Entry))))
  | 0, _ => pure []
  | count + 1, merge => do
    let (item, merge) ← next pull rounds merge
    let items ← nexts pull rounds count merge
    pure (item :: items)

/-- Make a merge of the sources and call it `count` times. -/
def drain {S : Type} (pull : S → IoM (Option (Except Error (Key × Entry)) × S))
    (sources : List (MergeSource S)) (count : Nat) :
    IoM (List (Option (Except Error (Key × Entry)))) := do
  let merge ← new pull sources
  nexts pull sources.length count merge

variable {merge : MergingIterator ListSource}

instance : Nonempty (World Fs) := ⟨World.fresh Fs.empty⟩

/-! ### Up to the first error -/

/-- What taking entries from the sources leaves as it is. -/
structure Kept (before after : MergingIterator ListSource) : Prop where
  sequences : after.sequences = before.sequences
  faults : after.sources.map ListSource.fault = before.sources.map ListSource.fault
  pendingError : after.pendingError = before.pendingError
  poisoned : after.poisoned = before.poisoned

theorem Kept.refl (merge : MergingIterator ListSource) : Kept merge merge := ⟨rfl, rfl, rfl, rfl⟩

theorem Kept.trans {first middle last : MergingIterator ListSource} (one : Kept first middle)
    (two : Kept middle last) : Kept first last :=
  ⟨two.sequences.trans one.sequences, two.faults.trans one.faults,
    two.pendingError.trans one.pendingError, two.poisoned.trans one.poisoned⟩

theorem Kept.length {before after : MergingIterator ListSource} (kept : Kept before after) :
    after.sources.length = before.sources.length := by
  have same := congrArg List.length kept.faults
  rwa [List.length_map, List.length_map] at same

/-- Some source ends in the error. -/
def Threatens (merge : MergingIterator ListSource) (error : Error) : Prop :=
  ∃ source ∈ merge.sources, source.fault = some error

theorem threatens_iff {error : Error} :
    Threatens merge error ↔ some error ∈ merge.sources.map ListSource.fault := by
  rw [List.mem_map]
  exact Iff.rfl

theorem Kept.threatens {before after : MergingIterator ListSource} (kept : Kept before after)
    {error : Error} : Threatens after error ↔ Threatens before error := by
  rw [threatens_iff, threatens_iff, kept.faults]

/-- An error of a source is queued; the iterator has not reported it yet. -/
structure Failed (before after : MergingIterator ListSource) : Prop where
  pendingError : ∃ error, after.pendingError = some error ∧ Threatens before error
  poisoned : after.poisoned = before.poisoned
  sequences : after.sequences = before.sequences
  length : after.sources.length = before.sources.length

theorem refill_constant (merge : MergingIterator ListSource) (idx : Nat) :
    Constant (refill ListSource.nextEntry merge idx) := by
  refine (Constant.ofOption _).bind fun source => (Constant.ofOption _).bind fun sequence => ?_
  obtain ⟨item, after, pulled, _⟩ := source.nextEntry_pure
  rw [pulled]
  match item with
  | none => exact .pure _
  | some (.error error) => exact .pure _
  | some (.ok (key, entry)) => exact .pure _

theorem drainRound_constant (winner : Key) (merge : MergingIterator ListSource) :
    Constant (drainRound ListSource.nextEntry winner merge) := by
  unfold drainRound
  cases Heap.popMax HeapEntry.below merge.heap with
  | none => exact .pure _
  | some popped =>
    obtain ⟨top, rest⟩ := popped
    simp only
    split
    · exact .pure _
    · refine (refill_constant _ _).bind fun result => ?_
      obtain ⟨error, merge'⟩ := result
      cases error with
      | none => exact .pure _
      | some error => exact .pure _

theorem next_constant (rounds : Nat) (merge : MergingIterator ListSource) :
    Constant (next ListSource.nextEntry rounds merge) := by
  unfold next
  split
  · exact .pure _
  · cases merge.pendingError with
    | some error => exact .pure _
    | none =>
      simp only
      cases Heap.popMax HeapEntry.below merge.heap with
      | none => exact .pure _
      | some popped =>
        obtain ⟨winner, rest⟩ := popped
        exact (Constant.loop (drainRound_constant winner.key) rounds _).bind fun drained =>
          (refill_constant drained winner.sourceIdx).bind fun _ => .pure _

/-- What a refill without errors returns. -/
theorem refill_nextEntry {idx : Nat} {result : Option Error × MergingIterator ListSource}
    (run : refill ListSource.nextEntry merge idx = pure result) :
    result.1 = none ∧ Kept merge result.2 ∧ idx < merge.sources.length ∧
      idx < merge.sequences.length := by
  unfold refill at run
  obtain ⟨source, found, run⟩ := (Constant.ofOption _).bind_pure run
  obtain ⟨sequence, found', run⟩ := (Constant.ofOption _).bind_pure run
  cases here : merge.sources[idx]? with
  | none =>
    rw [here] at found
    cases congrFun found (World.fresh Fs.empty)
  | some source' =>
    rw [here] at found
    obtain rfl : source' = source := pure_inj found
    cases here' : merge.sequences[idx]? with
    | none =>
      rw [here'] at found'
      cases congrFun found' (World.fresh Fs.empty)
    | some sequence' =>
      obtain ⟨item, after, pulled, fault, noError⟩ := source'.nextEntry_pure
      rw [pulled] at run
      obtain ⟨inside, here⟩ := List.getElem?_eq_some_iff.mp here
      have inside' := (List.getElem?_eq_some_iff.mp here').1
      have faults : (merge.sources.set idx after).map ListSource.fault =
          merge.sources.map ListSource.fault := by
        have mapped : idx < (merge.sources.map ListSource.fault).length := by rwa [List.length_map]
        have first : (merge.sources.map ListSource.fault)[idx] = source'.fault := by
          rw [List.getElem_map, here]
        rw [List.map_set, fault, ← first, List.set_getElem_self]
      match item with
      | none =>
        obtain rfl := pure_inj run
        exact ⟨rfl, ⟨rfl, faults, rfl, rfl⟩, inside, inside'⟩
      | some (.error error) => exact absurd rfl (noError error)
      | some (.ok (key, entry)) =>
        obtain rfl := pure_inj run
        exact ⟨rfl, ⟨rfl, faults, rfl, rfl⟩, inside, inside'⟩

/-- A refill meets the error of its source, or does what it does without errors. -/
theorem refill_cases (merge : MergingIterator ListSource) (idx : Nat) :
    refill ListSource.next merge idx = refill ListSource.nextEntry merge idx ∨
      ∃ error, Threatens merge error ∧ refill ListSource.next merge idx =
        pure (some error, { merge with sources := merge.sources.set idx ⟨[], none⟩ }) := by
  unfold refill
  cases found : merge.sources[idx]? with
  | none => exact Or.inl rfl
  | some source =>
    cases merge.sequences[idx]? with
    | none => exact Or.inl rfl
    | some sequence =>
      rcases source.next_cases with same | ⟨error, fault, failed⟩
      · left
        show ListSource.next source >>= _ = ListSource.nextEntry source >>= _
        rw [same]
      · right
        refine ⟨error, ⟨source, List.mem_of_getElem? found, fault⟩, ?_⟩
        show ListSource.next source >>= _ = _
        rw [failed]
        rfl

/-- A refill of a source that is there never hangs, whatever the source does. -/
theorem refill_returns {idx : Nat} (inside : idx < merge.sources.length)
    (inside' : idx < merge.sequences.length) :
    ∃ error after, refill ListSource.next merge idx = pure (error, after) ∧
      after.pendingError = merge.pendingError ∧ after.poisoned = merge.poisoned := by
  rcases refill_cases merge idx with same | ⟨error, _, failed⟩
  · rw [same]
    unfold refill
    rw [List.getElem?_eq_getElem inside, List.getElem?_eq_getElem inside']
    obtain ⟨item, after, pulled, _⟩ := merge.sources[idx].nextEntry_pure
    show ∃ error left, ListSource.nextEntry merge.sources[idx] >>= _ = pure (error, left) ∧ _
    rw [pulled]
    match item with
    | none => exact ⟨_, _, rfl, rfl, rfl⟩
    | some (.error error) => exact ⟨_, _, rfl, rfl, rfl⟩
    | some (.ok (key, entry)) => exact ⟨_, _, rfl, rfl, rfl⟩
  · exact ⟨_, _, failed, rfl, rfl⟩

/-- **Draining older entries** meets an error, or does what it does without errors. -/
theorem drain_cases (winner : Key) : ∀ (rounds : Nat) (merge drained : MergingIterator ListSource),
    Prog.loop (drainRound ListSource.nextEntry winner) rounds merge = pure drained →
    merge.pendingError = none →
    Kept merge drained ∧
      (Prog.loop (drainRound ListSource.next winner) rounds merge = pure drained ∨
        ∃ failed, Prog.loop (drainRound ListSource.next winner) rounds merge = pure failed ∧
          Failed merge failed) := by
  intro rounds
  induction rounds with
  | zero =>
    intro merge drained run _
    cases congrFun run (World.fresh Fs.empty)
  | succ rounds ih =>
    intro merge drained run clean
    obtain ⟨round, ran, run⟩ := (drainRound_constant winner merge).bind_pure run
    -- One round, with the error it may meet.
    show Kept merge drained ∧ ((drainRound ListSource.next winner merge >>= _) = pure drained ∨
      ∃ failed, (drainRound ListSource.next winner merge >>= _) = pure failed ∧ Failed merge failed)
    unfold drainRound at ran ⊢
    cases popped : Heap.popMax HeapEntry.below merge.heap with
    | none =>
      simp only [popped] at ran ⊢
      obtain rfl := pure_inj ran
      obtain rfl := pure_inj run
      exact ⟨Kept.refl _, Or.inl rfl⟩
    | some found =>
      obtain ⟨top, rest⟩ := found
      simp only [popped] at ran ⊢
      by_cases past : top.key ≠ winner
      · rw [if_pos past] at ran ⊢
        obtain rfl := pure_inj ran
        obtain rfl := pure_inj run
        exact ⟨Kept.refl _, Or.inl rfl⟩
      · rw [if_neg past] at ran ⊢
        obtain ⟨refilled, filled, ran⟩ := (refill_constant _ _).bind_pure ran
        obtain ⟨none, kept, _⟩ := refill_nextEntry filled
        obtain ⟨error, merge'⟩ := refilled
        simp only at none kept
        subst none
        obtain rfl := pure_inj ran
        have kept' : Kept merge merge' := ⟨kept.sequences, kept.faults, kept.pendingError, kept.poisoned⟩
        obtain ⟨kept'', follows⟩ := ih merge' drained run (kept'.pendingError.trans clean)
        refine ⟨kept'.trans kept'', ?_⟩
        rcases refill_cases { merge with heap := rest } top.sourceIdx with same | ⟨error, threat, failed⟩
        · rw [same, filled]
          rcases follows with same | ⟨failed, run, why⟩
          · exact Or.inl same
          · obtain ⟨error, pending, threat⟩ := why.pendingError
            refine Or.inr ⟨failed, run, ⟨error, pending, kept'.threatens.mp threat⟩,
              why.poisoned.trans kept'.poisoned, why.sequences.trans kept'.sequences,
              why.length.trans kept'.length⟩
        · rw [failed]
          refine Or.inr ⟨_, rfl, ⟨error, ?_, threat⟩, rfl, rfl, List.length_set⟩
          show merge.pendingError.or (some error) = some error
          rw [clean, Option.none_or]

/-- **One call** returns what it returns without errors; the errors it met are queued. -/
theorem next_cases {rounds : Nat} {item : Option (Except Error (Key × Entry))}
    {after : MergingIterator ListSource}
    (run : next ListSource.nextEntry rounds merge = pure (item, after))
    (clean : merge.pendingError = none ∧ merge.poisoned = false) :
    Kept merge after ∧
      (next ListSource.next rounds merge = pure (item, after) ∨
        ∃ failed error, next ListSource.next rounds merge = pure (item, failed) ∧
          failed.pendingError = some error ∧ failed.poisoned = false ∧ Threatens merge error) := by
  obtain ⟨sources, heap, sequences, pendingError, poisoned⟩ := merge
  obtain ⟨rfl, rfl⟩ : pendingError = none ∧ poisoned = false := clean
  unfold next at run ⊢
  rw [if_neg nofun] at run ⊢
  simp only at run ⊢
  cases popped : Heap.popMax HeapEntry.below heap with
  | none =>
    simp only [popped] at run ⊢
    obtain ⟨rfl, rfl⟩ := Prod.ext_iff.mp (pure_inj run)
    exact ⟨Kept.refl _, Or.inl rfl⟩
  | some found =>
    obtain ⟨winner, rest⟩ := found
    simp only [popped] at run ⊢
    obtain ⟨drained, loop, run⟩ :=
      (Constant.loop (drainRound_constant winner.key) rounds _).bind_pure run
    obtain ⟨kept, follows⟩ := drain_cases winner.key rounds _ drained loop rfl
    obtain ⟨refilled, filled, run⟩ := (refill_constant _ _).bind_pure run
    obtain ⟨none, kept', inside, inside'⟩ := refill_nextEntry filled
    obtain ⟨error, merge'⟩ := refilled
    simp only at none kept'
    subst none
    obtain ⟨rfl, rfl⟩ := Prod.ext_iff.mp (pure_inj run)
    have unqueued : merge'.queue none = merge' := by
      simp [queue]
    rw [unqueued]
    have whole := kept.trans kept'
    refine ⟨⟨whole.sequences, whole.faults, whole.pendingError, whole.poisoned⟩, ?_⟩
    rcases follows with same | ⟨failed, run, why⟩
    · rw [same]
      rcases refill_cases drained winner.sourceIdx with same | ⟨error, threat, failed⟩
      · left
        show refill ListSource.next drained winner.sourceIdx >>= _ = _
        rw [same, filled]
        exact congrArg (fun left => (pure (some (.ok (winner.key, winner.entry)), left) :
          IoM (Option (Except Error (Key × Entry)) × MergingIterator ListSource))) unqueued
      · right
        refine ⟨_, error, by
          show refill ListSource.next drained winner.sourceIdx >>= _ = _
          rw [failed]
          rfl, ?_, ?_, kept.threatens.mp threat⟩
        · show drained.pendingError.or (some error) = some error
          rw [kept.pendingError, Option.none_or]
        · exact kept.poisoned
    · right
      rw [run]
      obtain ⟨error, pending, threat⟩ := why.pendingError
      have there : winner.sourceIdx < failed.sources.length := by
        rw [why.length, ← kept.length]
        exact inside
      have there' : winner.sourceIdx < failed.sequences.length := by
        rw [why.sequences, ← kept.sequences]
        exact inside'
      obtain ⟨refused, after, refill, pending', poisoned'⟩ := refill_returns there there'
      refine ⟨_, error, by
        show MergingIterator.refill ListSource.next failed winner.sourceIdx >>= _ = _
        rw [refill]
        rfl, ?_, ?_, threat⟩
      · show after.pendingError.or refused = some error
        rw [pending', pending, Option.some_or]
      · exact poisoned'.trans why.poisoned

/-! ### No error is passed over -/

/-- A source that still has an error has an entry in the heap, unless it is being refilled. -/
def Carried (merge : MergingIterator ListSource) (held : List Nat) : Prop :=
  ∀ (idx : Nat) (source : ListSource), merge.sources[idx]? = some source → source.fault ≠ none →
    idx ∈ held ∨ ∃ entry ∈ merge.heap, entry.sourceIdx = idx

theorem Carried.pop {held : List Nat} (carried : Carried merge held) {top : HeapEntry}
    {rest : List HeapEntry} (popped : Heap.popMax HeapEntry.below merge.heap = some (top, rest)) :
    Carried { merge with heap := rest } (top.sourceIdx :: held) := by
  intro idx source here fault
  rcases carried idx source here fault with isHeld | ⟨entry, member, same⟩
  · exact Or.inl (List.mem_cons_of_mem _ isHeld)
  · rcases List.mem_cons.mp ((Heap.popMax_perm popped).mem_iff.mp member) with rfl | inside
    · exact Or.inl (same ▸ List.mem_cons_self ..)
    · exact Or.inr ⟨entry, inside, same⟩

/-- A refill that meets no error leaves its source in the heap or without an error. -/
theorem refill_carried {held : List Nat} {idx : Nat}
    (carried : merge.pendingError = none → Carried merge (idx :: held)) (world : World Fs) :
    Ensures (refill ListSource.next merge idx) world fun result _ =>
      result.1 = none → result.2.pendingError = none → Carried result.2 held := by
  unfold refill
  refine Ensures.bind (Ensures.ofOption fun source here => ?_)
  refine Ensures.bind (Ensures.ofOption fun sequence _ => ?_)
  have inside := (List.getElem?_eq_some_iff.mp here).1
  obtain ⟨entries, fault⟩ := source
  -- Elsewhere nothing changes.
  have away : merge.pendingError = none → ∀ (after : ListSource) (other : Nat)
      (source : ListSource), other ≠ idx → (merge.sources.set idx after)[other]? = some source →
      source.fault ≠ none → other ∈ held ∨ ∃ entry ∈ merge.heap, entry.sourceIdx = other := by
    intro clean after other source different found fault
    rw [List.getElem?_set_ne (Ne.symm different)] at found
    rcases carried clean other source found fault with isHeld | inHeap
    · exact Or.inl ((List.mem_cons.mp isHeld).resolve_left different)
    · exact Or.inr inHeap
  cases entries with
  | nil =>
    cases fault with
    | none =>
      refine Ensures.pure fun _ clean other source found fault => ?_
      by_cases same : other = idx
      · subst same
        have found : (merge.sources.set other ⟨[], none⟩)[other]? = some source := found
        rw [List.getElem?_set_self inside] at found
        cases found
        exact absurd rfl fault
      · exact away clean _ other source same found fault
    | some error => exact Ensures.pure nofun
  | cons entry entries =>
    refine Ensures.pure fun _ clean other source found fault => ?_
    by_cases same : other = idx
    · exact Or.inr ⟨_, List.mem_cons_self .., same.symm⟩
    · rcases away clean _ other source same found fault with isHeld | ⟨entry', member, source'⟩
      · exact Or.inl isHeld
      · exact Or.inr ⟨entry', List.mem_cons_of_mem _ member, source'⟩

/-- **A call that meets no error** passes none over. -/
theorem next_carried (carried : Carried merge []) (rounds : Nat) (world : World Fs) :
    Ensures (next ListSource.next rounds merge) world fun result _ =>
      result.2.pendingError = none → result.2.poisoned = false → Carried result.2 [] := by
  obtain ⟨sources, heap, sequences, pendingError, poisoned⟩ := merge
  unfold next
  split
  · exact Ensures.pure fun _ _ => carried
  · cases pendingError with
    | some error => exact Ensures.pure nofun
    | none =>
      simp only
      cases popped : Heap.popMax HeapEntry.below heap with
      | none => exact Ensures.pure fun _ _ => carried
      | some found =>
        obtain ⟨winner, rest⟩ := found
        have loop : ∀ state, Ensures (Prog.loop (drainRound ListSource.next winner.key) rounds
            ⟨sources, rest, sequences, none, poisoned⟩) state fun drained _ =>
              drained.pendingError = none → Carried drained [winner.sourceIdx] := by
          intro state
          refine Ensures.loop (fun merge _ => merge.pendingError = none →
            Carried merge [winner.sourceIdx]) ?_ rounds _ state fun _ => carried.pop popped
          intro merge state carried
          unfold drainRound
          cases popped : Heap.popMax HeapEntry.below merge.heap with
          | none => exact Ensures.pure carried
          | some found =>
            obtain ⟨top, rest⟩ := found
            refine Ensures.ite (fun _ => Ensures.pure carried) fun _ => ?_
            have popping : merge.pendingError = none →
                Carried { merge with heap := rest } (top.sourceIdx :: [winner.sourceIdx]) :=
              fun clean => (carried clean).pop popped
            refine Ensures.bind ((refill_carried popping state).mono fun refilled after holds => ?_)
            obtain ⟨error, merge'⟩ := refilled
            cases error with
            | none => exact Ensures.pure (holds rfl)
            | some error =>
              refine Ensures.pure fun clean => ?_
              have queued : merge'.pendingError.or (some error) = none := clean
              exact absurd (Option.or_eq_none_iff.mp queued).2 nofun
        refine Ensures.bind ((loop world).mono fun drained middle holds => ?_)
        refine Ensures.bind ((refill_carried holds middle).mono fun refilled after fills => ?_)
        obtain ⟨error, merge'⟩ := refilled
        refine Ensures.pure fun clean _ => ?_
        have queued : merge'.pendingError.or error = none := clean
        obtain ⟨clean', none⟩ := Option.or_eq_none_iff.mp queued
        exact fills none clean'

/-! ### Draining -/

/-- The answers of `count` calls that give the items and nothing behind them. -/
def answers (items : List (Except Error (Key × Entry))) (count : Nat) :
    List (Option (Except Error (Key × Entry))) :=
  (List.range count).map fun number => items[number]?

theorem answers_succ_cons (item : Except Error (Key × Entry))
    (items : List (Except Error (Key × Entry))) (count : Nat) :
    answers (item :: items) (count + 1) = some item :: answers items count := by
  unfold answers
  rw [List.range_succ_eq_map, List.map_cons, List.map_map]
  rfl

theorem answers_succ_nil (count : Nat) : answers [] (count + 1) = none :: answers [] count := by
  unfold answers
  rw [List.range_succ_eq_map, List.map_cons, List.map_map]
  rfl

theorem nexts_succ {S : Type} {pull : S → IoM (Option (Except Error (Key × Entry)) × S)}
    {rounds count : Nat} {merge after : MergingIterator S}
    {item : Option (Except Error (Key × Entry))}
    {items : List (Option (Except Error (Key × Entry)))}
    (run : next pull rounds merge = pure (item, after))
    (others : nexts pull rounds count after = pure items) :
    nexts pull rounds (count + 1) merge = pure (item :: items) := by
  show next pull rounds merge >>= _ = _
  rw [run]
  show nexts pull rounds count after >>= _ = _
  rw [others]
  rfl

/-- A merge whose calls change nothing and give nothing is at its end. -/
theorem nexts_ended {S : Type} {pull : S → IoM (Option (Except Error (Key × Entry)) × S)}
    {rounds : Nat} {merge : MergingIterator S}
    (run : next pull rounds merge = pure (none, merge)) :
    ∀ count, nexts pull rounds count merge = pure (answers [] count) := by
  intro count
  induction count with
  | zero => rfl
  | succ count ih =>
    rw [answers_succ_nil]
    exact nexts_succ run ih

/-- A queued error is the next answer, and the last. -/
theorem nexts_failed {S : Type} {pull : S → IoM (Option (Except Error (Key × Entry)) × S)}
    {rounds : Nat} {merge : MergingIterator S} {error : Error}
    (pending : merge.pendingError = some error) (fresh : merge.poisoned = false) :
    ∀ count, nexts pull rounds count merge = pure (answers [.error error] count) := by
  intro count
  cases count with
  | zero => rfl
  | succ count =>
    rw [answers_succ_cons]
    have reports : next pull rounds merge = pure (some (.error error),
        { merge with pendingError := none, poisoned := true }) := by
      unfold next
      rw [if_neg (by rw [fresh]; exact nofun), pending]
    exact nexts_succ reports (nexts_ended (by unfold next; rw [if_pos rfl]) count)

section Runs

variable {layers : List Layer} {rounds : Nat}

/-- One call of a merge without errors, as an equation. -/
theorem next_equation (layered : Layered layers) (merging : Merging ListSource.Gives merge layers [])
    {merged : List (Key × Entry)} (isMerge : IsMerge layers merged) (enough : layers.length ≤ rounds) :
    ∃ result, next ListSource.nextEntry rounds merge = pure result ∧
      Yielded ListSource.Gives layers.length merged result := by
  have calm := World.fresh_calm Fs.empty
  obtain ⟨result, run, yielded, _⟩ := (next_constant rounds merge).eq_pure
    (next_succeeds ListSource.nextEntry_sourced layered merging calm isMerge enough)
  exact ⟨result, run, yielded⟩

/-- Where nothing is left to merge, the heap is empty. -/
theorem Merging.ended (layered : Layered layers) (merging : Merging ListSource.Gives merge layers [])
    (isMerge : IsMerge layers []) : merge.heap = [] := by
  cases popped : Heap.popMax HeapEntry.below merge.heap with
  | none => exact Heap.popMax_eq_none.mp popped
  | some found =>
    obtain ⟨top, rest⟩ := found
    cases (isMerge.newest top.key top.entry).mpr (merging.top layered popped).2

theorem next_empty {S : Type} (pull : S → IoM (Option (Except Error (Key × Entry)) × S))
    {merge : MergingIterator S} (empty : merge.heap = [])
    (clean : merge.pendingError = none ∧ merge.poisoned = false) :
    next pull rounds merge = pure (none, merge) := by
  unfold next
  rw [if_neg (by rw [clean.2]; exact nofun), clean.1, empty]
  rfl

/-- **Sources without errors** are drained to the end of their merge. -/
theorem nexts_clean : ∀ (merged : List (Key × Entry)) (merge : MergingIterator ListSource)
    (layers : List Layer), Layered layers → Merging ListSource.Gives merge layers [] →
    IsMerge layers merged → layers.length ≤ rounds → (∀ error, ¬ Threatens merge error) →
    ∀ count, nexts ListSource.next rounds count merge = pure (answers (merged.map .ok) count) := by
  intro merged
  induction merged with
  | nil =>
    intro merge layers layered merging isMerge _ _ count
    exact nexts_ended (next_empty _ (merging.ended layered isMerge) merging.clean) count
  | cons entry rest ih =>
    intro merge layers layered merging isMerge enough safe count
    obtain ⟨⟨item, after⟩, run, rfl, layers', length, layered', merging', isMerge'⟩ :=
      next_equation layered merging isMerge enough
    obtain ⟨kept, same | ⟨_, error, _, _, _, threat⟩⟩ := next_cases run merging.clean
    · cases count with
      | zero => rfl
      | succ count =>
        rw [List.map_cons, answers_succ_cons]
        exact nexts_succ same (ih after layers' layered' merging' isMerge' (length ▸ enough)
          (fun error threat => safe error (kept.threatens.mp threat)) count)
    · exact absurd threat (safe error)

/-- **Sources with errors** give a part of their merge, one error, and then nothing. -/
theorem nexts_faulty : ∀ (merged : List (Key × Entry)) (merge : MergingIterator ListSource)
    (layers : List Layer), Layered layers → Merging ListSource.Gives merge layers [] →
    IsMerge layers merged → layers.length ≤ rounds → Carried merge [] →
    (∃ error, Threatens merge error) →
    ∃ emitted error, emitted <+: merged ∧ Threatens merge error ∧ ∀ count,
      nexts ListSource.next rounds count merge =
        pure (answers (emitted.map .ok ++ [.error error]) count) := by
  intro merged
  induction merged with
  | nil =>
    -- The merge is at its end, yet a source with an error would still be in the heap.
    intro merge layers layered merging isMerge _ carried ⟨error, source, member, fault⟩
    obtain ⟨idx, here⟩ := List.getElem?_of_mem member
    have heap := merging.ended layered isMerge
    rcases carried idx source here (by rw [fault]; exact nofun) with held | ⟨entry, inHeap, _⟩
    · cases held
    · rw [heap] at inHeap
      cases inHeap
  | cons entry rest ih =>
    intro merge layers layered merging isMerge enough carried threatened
    obtain ⟨⟨item, after⟩, run, rfl, layers', length, layered', merging', isMerge'⟩ :=
      next_equation layered merging isMerge enough
    obtain ⟨kept, same | ⟨failed, error, ran, pending, fresh, threat⟩⟩ := next_cases run merging.clean
    · have carried' := next_carried carried rounds (World.fresh Fs.empty) _ _ (congrFun same _)
        merging'.clean.1 merging'.clean.2
      obtain ⟨error, threat⟩ := threatened
      obtain ⟨emitted, error, below, threat, others⟩ := ih after layers' layered' merging' isMerge'
        (length ▸ enough) carried' ⟨error, kept.threatens.mpr threat⟩
      refine ⟨entry :: emitted, error, List.cons_prefix_cons.mpr ⟨rfl, below⟩,
        kept.threatens.mp threat, fun count => ?_⟩
      cases count with
      | zero => rfl
      | succ count =>
        rw [List.map_cons, List.cons_append, answers_succ_cons]
        exact nexts_succ same (others count)
    · refine ⟨[entry], error, List.cons_prefix_cons.mpr ⟨rfl, List.nil_prefix⟩, threat, fun count => ?_⟩
      cases count with
      | zero => rfl
      | succ count =>
        show _ = pure (answers (.ok entry :: [.error error]) (count + 1))
        rw [answers_succ_cons]
        exact nexts_succ ran (nexts_failed pending fresh count)

end Runs

/-! ### Construction -/

theorem addSource_constant (merge : MergingIterator ListSource) (source : MergeSource ListSource) :
    Constant (addSource ListSource.nextEntry merge source) := by
  obtain ⟨item, after, pulled, _⟩ := source.iter.nextEntry_pure
  show Constant (ListSource.nextEntry source.iter >>= _)
  rw [pulled]
  match item with
  | none => exact .pure _
  | some (.error error) => exact .throw error
  | some (.ok (key, entry)) => exact .pure _

/-- Taking over a source meets its error, or does what it does without errors. -/
theorem addSource_cases (merge : MergingIterator ListSource) (source : MergeSource ListSource) :
    addSource ListSource.next merge source = addSource ListSource.nextEntry merge source ∨
      ∃ error, source.iter.fault = some error ∧
        addSource ListSource.next merge source = Prog.throw error := by
  rcases source.iter.next_cases with same | ⟨error, fault, failed⟩
  · left
    show ListSource.next source.iter >>= _ = ListSource.nextEntry source.iter >>= _
    rw [same]
  · right
    refine ⟨error, fault, ?_⟩
    show ListSource.next source.iter >>= _ = _
    rw [failed]
    rfl

/-- So does construction. -/
theorem new_cases (sources : List (MergeSource ListSource)) :
    new ListSource.next sources = new ListSource.nextEntry sources ∨
      ∃ source ∈ sources, ∃ error, source.iter.fault = some error ∧
        new ListSource.next sources = Prog.throw error := by
  unfold new
  generalize (⟨[], [], [], none, false⟩ : MergingIterator ListSource) = merge
  induction sources generalizing merge with
  | nil => exact Or.inl rfl
  | cons source sources ih =>
    rcases addSource_cases merge source with same | ⟨error, fault, failed⟩
    · have folds : ∀ pull, Prog.foldM (addSource pull) merge (source :: sources) =
          addSource pull merge source >>= fun merge => Prog.foldM (addSource pull) merge sources :=
        fun _ => rfl
      rw [folds, folds, same]
      have constant := addSource_constant merge source
      generalize addSource ListSource.nextEntry merge source = added at constant ⊢
      cases constant with
      | pure merge' =>
        rcases ih merge' with same | ⟨source', member, error, fault, failed⟩
        · exact Or.inl same
        · exact Or.inr ⟨source', List.mem_cons_of_mem _ member, error, fault, failed⟩
      | throw error => exact Or.inl rfl
      | stop => exact Or.inl rfl
    · refine Or.inr ⟨source, List.mem_cons_self .., error, fault, ?_⟩
      show addSource ListSource.next merge source >>= _ = _
      rw [failed]
      rfl

/-- The entries of the sources, with their sequences. -/
def layersOf (sources : List (MergeSource ListSource)) : List Layer :=
  sources.map fun source => (source.sequence, source.iter.entries)

/-- Construction without errors, as an equation. -/
theorem new_equation (sources : List (MergeSource ListSource)) :
    ∃ merge, new ListSource.nextEntry sources = pure merge ∧
      Merging ListSource.Gives merge (layersOf sources) [] := by
  have constant : Constant (new ListSource.nextEntry sources) :=
    Constant.foldM addSource_constant sources _
  have given : List.Forall₂ (fun source rest => ListSource.Gives source.iter rest) sources
      (sources.map fun source => source.iter.entries) := by
    rw [List.forall₂_map_right_iff]
    exact List.forall₂_same.mpr fun _ _ => rfl
  obtain ⟨merge, run, merging, _⟩ := constant.eq_pure
    (new_succeeds ListSource.nextEntry_sourced (World.fresh_calm Fs.empty) given)
  rw [List.zip_map'] at merging
  exact ⟨merge, run, merging⟩

/-- A new merge has the errors of its sources, and passed none over. -/
theorem new_carried (sources : List (MergeSource ListSource)) (world : World Fs) :
    Ensures (new ListSource.next sources) world fun merge _ =>
      merge.sources.map ListSource.fault = sources.map (fun source => source.iter.fault) ∧
      Carried merge [] := by
  refine (Ensures.foldM (fun (left : List (MergeSource ListSource)) merge (_ : World Fs) =>
    merge.sources.map ListSource.fault ++ left.map (fun source => source.iter.fault) =
      sources.map (fun source => source.iter.fault) ∧ Carried merge []) ?_ sources _ world
    ⟨rfl, fun _ _ found => by simp at found⟩).mono fun merge _ holds => ⟨by simpa using holds.1, holds.2⟩
  rintro merge ⟨sequence, entries, fault⟩ left world ⟨faults, carried⟩
  -- The sources before the new one keep their place.
  have before : ∀ (after : ListSource) (idx : Nat) (source : ListSource),
      (merge.sources ++ [after])[idx]? = some source → source.fault ≠ none →
      (∃ entry ∈ merge.heap, entry.sourceIdx = idx) ∨ (idx = merge.sources.length ∧ source = after) := by
    intro after idx source found fault
    by_cases inside : idx < merge.sources.length
    · rw [List.getElem?_append_left inside] at found
      exact Or.inl ((carried idx source found fault).resolve_left nofun)
    · rw [List.getElem?_append_right (not_lt.mp inside)] at found
      obtain ⟨short, same⟩ := List.getElem?_eq_some_iff.mp found
      have last : idx = merge.sources.length := by
        rw [List.length_singleton] at short
        omega
      subst last
      rw [Nat.sub_self] at found
      cases found
      exact Or.inr ⟨rfl, rfl⟩
  cases entries with
  | cons entry entries =>
    refine Ensures.pure ⟨?_, fun idx source found fault => Or.inr ?_⟩
    · rw [← faults]
      simp
    · rcases before _ idx source found fault with ⟨entry', member, same⟩ | ⟨same, _⟩
      · exact ⟨entry', List.mem_cons_of_mem _ member, same⟩
      · exact ⟨_, List.mem_cons_self .., same.symm⟩
  | nil =>
    cases fault with
    | some error => exact Ensures.throw
    | none =>
      refine Ensures.pure ⟨?_, fun idx source found fault => Or.inr ?_⟩
      · rw [← faults]
        simp
      · rcases before _ idx source found fault with inHeap | ⟨_, rfl⟩
        · exact inHeap
        · exact absurd rfl fault

/-! ### Newest wins, also when sources fail -/

/-- **Draining a merge of lists.** Without errors it gives the newest-wins union, whatever the order
of the sources; with errors it gives a part of it from the start, then one error and then nothing,
unless construction failed. -/
theorem newest_wins {sources : List (MergeSource ListSource)}
    (distinct : (sources.map MergeSource.sequence).Nodup)
    (ascending : ∀ source ∈ sources, source.iter.entries.Pairwise fun one two => one.1 < two.1) :
    ∃ merged, IsMerge (layersOf sources) merged ∧
      (∀ key, (∃ entry, (key, entry) ∈ merged) ↔
        ∃ source ∈ sources, ∃ entry, (key, entry) ∈ source.iter.entries) ∧
      ((∀ source ∈ sources, source.iter.fault = none) → ∀ listed, listed.Perm sources → ∀ count,
        drain ListSource.next listed count = pure (answers (merged.map .ok) count)) ∧
      ((∃ source ∈ sources, source.iter.fault ≠ none) → ∀ world merge after,
        new ListSource.next sources world = .ok merge after →
        ∃ emitted error, emitted <+: merged ∧ (∃ source ∈ sources, source.iter.fault = some error) ∧
          ∀ count, drain ListSource.next sources count =
            pure (answers (emitted.map .ok ++ [.error error]) count)) := by
  have layered : Layered (layersOf sources) := by
    refine ⟨fun layer member => ?_, ?_⟩
    · obtain ⟨source, inside, rfl⟩ := List.mem_map.mp member
      exact ascending source inside
    · rw [layersOf, List.pairwise_map]
      exact List.pairwise_map.mp distinct
  obtain ⟨merged, isMerge⟩ := exists_isMerge layered
  refine ⟨merged, isMerge, fun key => ?_, fun clean listed perm count => ?_, ?_⟩
  · rw [isMerge.keys]
    simp only [layersOf, List.mem_map, exists_exists_and_eq_and]
  · have layers : (layersOf listed).Perm (layersOf sources) := perm.map _
    obtain ⟨merge, run, merging⟩ := new_equation listed
    have clean : ∀ source ∈ listed, source.iter.fault = none := fun source member =>
      clean source (perm.mem_iff.mp member)
    have same : new ListSource.next listed = pure merge := by
      rcases new_cases listed with same | ⟨source, member, error, fault, _⟩
      · rw [same, run]
      · rw [clean source member] at fault
        cases fault
    obtain ⟨faults, _⟩ := new_carried listed (World.fresh Fs.empty) _ _ (congrFun same _)
    have safe : ∀ error, ¬ Threatens merge error := by
      intro error threat
      rw [threatens_iff, faults] at threat
      obtain ⟨source, member, fault⟩ := List.mem_map.mp threat
      rw [clean source member] at fault
      cases fault
    show new ListSource.next listed >>= _ = _
    rw [same]
    exact nexts_clean merged merge (layersOf listed) (layered.of_perm layers) merging
      (isMerge.of_perm layers) (by rw [layersOf, List.length_map]) safe count
  · rintro ⟨source, member, fault⟩ world merge after run
    obtain ⟨merge', run', merging⟩ := new_equation sources
    have same : new ListSource.next sources = pure merge := by
      rcases new_cases sources with same | ⟨_, _, error, _, failed⟩
      · rw [same, run'] at run
        cases run
        rw [same, run']
      · rw [failed] at run
        cases run
    have merging : Merging ListSource.Gives merge (layersOf sources) [] := by
      rcases new_cases sources with same' | ⟨_, _, error, _, failed⟩
      · rw [same', run'] at same
        exact pure_inj same ▸ merging
      · rw [failed] at run
        cases run
    obtain ⟨faults, carried⟩ := new_carried sources world _ _ run
    obtain ⟨error, ends⟩ := Option.ne_none_iff_exists'.mp fault
    have threat : Threatens merge error := by
      rw [threatens_iff, faults]
      exact List.mem_map.mpr ⟨source, member, ends⟩
    have enough : (layersOf sources).length ≤ sources.length := by rw [layersOf, List.length_map]
    obtain ⟨emitted, error, below, threat, others⟩ := nexts_faulty merged merge (layersOf sources)
      layered merging isMerge enough carried ⟨error, threat⟩
    refine ⟨emitted, error, below, ?_, fun count => ?_⟩
    · rw [threatens_iff, faults] at threat
      exact List.mem_map.mp threat
    · show new ListSource.next sources >>= _ = _
      rw [same]
      exact others count

/-- The older one of two sources fails behind its entries; they share a key. -/
theorem newest_wins_poisoned : ∃ merged emitted error, emitted <+: merged ∧
    IsMerge (layersOf [⟨0, [([97], .put [49]), ([98], .put [51])], some (.corruption "synthetic")⟩,
      ⟨1, [([97], .tombstone), ([99], .put [50])], none⟩]) merged ∧
    SortedMap.lookupIn [97] merged = some .tombstone ∧
    ∀ count, drain ListSource.next [⟨0, [([97], .put [49]), ([98], .put [51])], some (.corruption "synthetic")⟩,
      ⟨1, [([97], .tombstone), ([99], .put [50])], none⟩] count =
        pure (answers (emitted.map .ok ++ [.error error]) count) := by
  obtain ⟨merged, isMerge, _, _, faulty⟩ := @newest_wins
    [⟨0, [([97], .put [49]), ([98], .put [51])], some (.corruption "synthetic")⟩,
      ⟨1, [([97], .tombstone), ([99], .put [50])], none⟩]
    (by decide) (by decide)
  obtain ⟨emitted, error, below, _, drained⟩ := faulty ⟨_, List.mem_cons_self .., Option.some_ne_none _⟩
    (World.fresh Fs.empty) _ _ rfl
  exact ⟨merged, emitted, error, below, isMerge, (isMerge.newest _ _).mpr
    ⟨(1, [([97], .tombstone), ([99], .put [50])]), by decide, by decide, by decide⟩, drained⟩

end MergingIterator

end Sastran

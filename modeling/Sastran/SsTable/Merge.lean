/-
The merge of several tables, newest wins.

`MergingIterator` keeps the next entry of every source in a heap whose top is the smallest key and,
among entries of one key, the source with the highest sequence number. It is generic in the sources:
`pull` is the `next` of a source. `Merging` is the invariant between calls, with the entries every
source still has to give (`Layer`); `IsMerge` says which list the merge of layers is, and
`next_succeeds` that one call yields its first entry.
-/

import Sastran.Library.Heap
import Sastran.SsTable.Reader

namespace Sastran

open Device

/-- One source of a merge; a higher sequence is newer. -/
structure MergeSource (S : Type) where
  sequence : Nat
  iter : S

structure HeapEntry where
  key : Key
  entry : Entry
  sourceIdx : Nat
  sequence : Nat

/-- The order of the heap: larger keys are below smaller ones, and older entries of a key below
newer ones. -/
def HeapEntry.below (first second : HeapEntry) : Bool :=
  decide (second.key < first.key) ||
    (decide (first.key = second.key) && decide (first.sequence < second.sequence))

structure MergingIterator (S : Type) where
  sources : List S
  heap : List HeapEntry
  sequences : List Nat
  pendingError : Option Error
  poisoned : Bool

namespace MergingIterator

variable {S : Type} (pull : S → IoM (Option (Except Error (Key × Entry)) × S))

/-- Take over one source, priming the heap with its first entry. -/
def addSource (merge : MergingIterator S) (source : MergeSource S) : IoM (MergingIterator S) := do
  let idx := merge.sources.length
  let (item, iter) ← pull source.iter
  let merge := { merge with
    sources := merge.sources ++ [iter], sequences := merge.sequences ++ [source.sequence] }
  match item with
  | none => pure merge
  | some (.error error) => Prog.throw error
  | some (.ok (key, entry)) =>
    pure { merge with heap := ⟨key, entry, idx, source.sequence⟩ :: merge.heap }

def new (sources : List (MergeSource S)) : IoM (MergingIterator S) :=
  Prog.foldM (addSource pull) ⟨[], [], [], none, false⟩ sources

/-- Pull the next entry of a source and push it onto the heap. -/
def refill (merge : MergingIterator S) (idx : Nat) : IoM (Option Error × MergingIterator S) := do
  let source ← Prog.ofOption merge.sources[idx]?
  let sequence ← Prog.ofOption merge.sequences[idx]?
  let (item, source) ← pull source
  let merge := { merge with sources := merge.sources.set idx source }
  match item with
  | none => pure (none, merge)
  | some (.error error) => pure (some error, merge)
  | some (.ok (key, entry)) =>
    pure (none, { merge with heap := ⟨key, entry, idx, sequence⟩ :: merge.heap })

/-- Keep the first error for the next call. -/
def queue (merge : MergingIterator S) (error : Option Error) : MergingIterator S :=
  { merge with pendingError := merge.pendingError.or error }

/-- Drop one older entry of the winner's key; the loop ends when the top has another key or a refill
fails. -/
def drainRound (winner : Key) (merge : MergingIterator S) :
    IoM (MergingIterator S ⊕ MergingIterator S) :=
  match Heap.popMax HeapEntry.below merge.heap with
  | none => pure (.inr merge)
  | some (top, rest) =>
    if top.key ≠ winner then pure (.inr merge)
    else do
      let (error, merge) ← refill pull { merge with heap := rest } top.sourceIdx
      match error with
      | some error => pure (.inr (merge.queue (some error)))
      | none => pure (.inl merge)

/-- The next entry. `rounds` bounds the older entries of one key. -/
def next (rounds : Nat) (merge : MergingIterator S) :
    IoM (Option (Except Error (Key × Entry)) × MergingIterator S) :=
  if merge.poisoned then pure (none, merge)
  else
    match merge.pendingError with
    | some error =>
      pure (some (.error error), { merge with pendingError := none, poisoned := true })
    | none =>
      match Heap.popMax HeapEntry.below merge.heap with
      | none => pure (none, merge)
      | some (winner, rest) => do
        let merge ← Prog.loop (drainRound pull winner.key) rounds { merge with heap := rest }
        let (error, merge) ← refill pull merge winner.sourceIdx
        pure (some (.ok (winner.key, winner.entry)), merge.queue error)

end MergingIterator

/-! ### The merge of layers -/

/-- A sequence number and the entries a source still has to give. -/
abbrev Layer := Nat × List (Key × Entry)

/-- The key's entry in the newest layer that has one. -/
def IsNewest (layers : List Layer) (key : Key) (entry : Entry) : Prop :=
  ∃ layer ∈ layers, SortedMap.lookupIn key layer.2 = some entry ∧
    ∀ other ∈ layers, SortedMap.lookupIn key other.2 ≠ none → other.1 ≤ layer.1

/-- The list is the newest-wins union of the layers, in ascending order. -/
structure IsMerge (layers : List Layer) (merged : List (Key × Entry)) : Prop where
  ascending : merged.Pairwise fun one two => one.1 < two.1
  newest : ∀ key entry, SortedMap.lookupIn key merged = some entry ↔ IsNewest layers key entry

/-- Every layer ascends, and no two have the same sequence. -/
structure Layered (layers : List Layer) : Prop where
  ascending : ∀ layer ∈ layers, layer.2.Pairwise fun one two => one.1 < two.1
  distinct : layers.Pairwise fun one two => one.1 ≠ two.1

/-- A layer without its first entry, if that is the key's. -/
def dropKey (key : Key) (layer : Layer) : Layer :=
  match layer.2 with
  | [] => layer
  | head :: rest => if head.1 = key then (layer.1, rest) else layer

section Layers

variable {layers : List Layer} {key : Key}

@[simp] theorem dropKey_fst (key : Key) (layer : Layer) : (dropKey key layer).1 = layer.1 := by
  unfold dropKey
  split
  · rfl
  · split <;> rfl

theorem dropKey_sublist (key : Key) (layer : Layer) : (dropKey key layer).2.Sublist layer.2 := by
  unfold dropKey
  split
  · exact List.Sublist.refl _
  · rename_i head rest found
    split
    · rw [found]
      exact List.sublist_cons_self _ _
    · exact List.Sublist.refl _

/-- All keys of the layers are at least `key`. -/
def AtLeast (key : Key) (layers : List Layer) : Prop :=
  ∀ layer ∈ layers, ∀ entry ∈ layer.2, key ≤ entry.1

/-- Behind a dropped first entry all keys are larger. -/
theorem dropKey_above {layer : Layer} (ascending : layer.2.Pairwise fun one two => one.1 < two.1)
    (least : ∀ entry ∈ layer.2, key ≤ entry.1) : ∀ entry ∈ (dropKey key layer).2, key < entry.1 := by
  intro entry member
  unfold dropKey at member
  cases found : layer.2 with
  | nil =>
    rw [found] at member
    simp only [found] at member
    cases member
  | cons head rest =>
    rw [found] at member ascending
    have above := (List.pairwise_cons.mp ascending).1
    simp only at member
    split at member
    · rename_i same
      exact same ▸ above entry member
    · rename_i different
      rw [found] at member
      have headLeast := least head (by rw [found]; exact List.mem_cons_self ..)
      have headAbove : key < head.1 := lt_of_le_of_ne headLeast (Ne.symm different)
      rcases List.mem_cons.mp member with rfl | member
      · exact headAbove
      · exact headAbove.trans (above entry member)

/-- A lookup of another key does not see the drop. -/
theorem lookupIn_dropKey {layer : Layer} {other : Key} (different : other ≠ key) :
    SortedMap.lookupIn other (dropKey key layer).2 = SortedMap.lookupIn other layer.2 := by
  unfold dropKey
  split
  · rfl
  · rename_i head rest found
    split
    · rename_i same
      rw [found, SortedMap.lookupIn, if_neg (by rw [same]; exact Ne.symm different)]
    · rfl

theorem dropKey_idem {layer : Layer} (ascending : layer.2.Pairwise fun one two => one.1 < two.1) :
    dropKey key (dropKey key layer) = dropKey key layer := by
  obtain ⟨sequence, entries⟩ := layer
  cases entries with
  | nil => rfl
  | cons head rest =>
    by_cases same : head.1 = key
    · have dropped : dropKey key (sequence, head :: rest) = (sequence, rest) := by
        simp [dropKey, same]
      rw [dropped]
      cases rest with
      | nil => rfl
      | cons second rest =>
        have above := (List.pairwise_cons.mp ascending).1 second (List.mem_cons_self ..)
        rw [same] at above
        simp [dropKey, above.ne']
    · have kept : dropKey key (sequence, head :: rest) = (sequence, head :: rest) := by
        simp [dropKey, same]
      rw [kept, kept]

theorem Layered.dropKey (layered : Layered layers) (key : Key) :
    Layered (layers.map (dropKey key)) := by
  constructor
  · intro layer member
    obtain ⟨before, held, rfl⟩ := List.mem_map.mp member
    exact (layered.ascending before held).sublist (dropKey_sublist key before)
  · rw [List.pairwise_map]
    exact layered.distinct.imp fun different => by simpa using different

/-- Layers of distinct sequences determine the newest entry. -/
theorem IsNewest.unique (layered : Layered layers) {one two : Entry} (first : IsNewest layers key one)
    (second : IsNewest layers key two) : one = two := by
  obtain ⟨layer, member, found, newest⟩ := first
  obtain ⟨layer', member', found', newest'⟩ := second
  have same : layer.1 = layer'.1 :=
    le_antisymm (newest' layer member (by rw [found]; exact nofun))
      (newest layer' member' (by rw [found']; exact nofun))
  have distinct := layered.distinct
  have : Std.Symm fun one two : Layer => one.1 ≠ two.1 := ⟨fun _ _ different => Ne.symm different⟩
  by_cases equal : layer = layer'
  · subst equal
    rw [found] at found'
    exact Option.some.inj found'
  · exact absurd same (distinct.forall member member' equal)

/-- **The merge goes on behind its first entry** with the layers that dropped it. -/
theorem IsMerge.tail (layered : Layered layers) {entry : Entry} {rest : List (Key × Entry)}
    (least : AtLeast key layers) (merged : IsMerge layers ((key, entry) :: rest)) :
    IsMerge (layers.map (Sastran.dropKey key)) rest := by
  obtain ⟨above, ascending⟩ := List.pairwise_cons.mp merged.ascending
  refine ⟨ascending, fun other held => ?_⟩
  by_cases same : other = key
  · subst same
    have absent : SortedMap.lookupIn other rest = none := by
      rw [SortedMap.lookupIn_eq_none]
      exact fun entry member => (above entry member).ne'
    rw [absent]
    refine ⟨nofun, ?_⟩
    rintro ⟨layer, member, found, _⟩
    obtain ⟨before, inside, rfl⟩ := List.mem_map.mp member
    have larger := dropKey_above (layered.ascending before inside) (least before inside)
      (other, held) (SortedMap.mem_of_lookupIn found)
    exact absurd larger (lt_irrefl _)
  · have lookup : SortedMap.lookupIn other ((key, entry) :: rest) =
        SortedMap.lookupIn other rest := by
      rw [SortedMap.lookupIn, if_neg (Ne.symm same)]
    rw [← lookup, merged.newest]
    constructor
    · rintro ⟨layer, member, found, newest⟩
      refine ⟨Sastran.dropKey key layer, List.mem_map_of_mem member,
        by rw [lookupIn_dropKey same, found], ?_⟩
      intro dropped held present
      obtain ⟨before, inside, rfl⟩ := List.mem_map.mp held
      rw [lookupIn_dropKey same] at present
      simpa using newest before inside present
    · rintro ⟨dropped, member, found, newest⟩
      obtain ⟨before, inside, rfl⟩ := List.mem_map.mp member
      rw [lookupIn_dropKey same] at found
      refine ⟨before, inside, found, fun layer held present => ?_⟩
      have limit := newest (Sastran.dropKey key layer) (List.mem_map_of_mem held)
        (by rwa [lookupIn_dropKey same])
      simpa using limit

end Layers

/-! ### The invariant between calls -/

namespace MergingIterator

variable {S : Type}

/-- What a source has to do when it is pulled with `rest` left. -/
def PullStep (pulls : S → List (Key × Entry) → Prop) (rest : List (Key × Entry)) :
    Option (Except Error (Key × Entry)) × S → Prop
  | (none, source) => rest = [] ∧ pulls source []
  | (some (.ok entry), source) => ∃ rest', rest = entry :: rest' ∧ pulls source rest'
  | (some (.error _), _) => False

/-- Sources that give the lists `pulls` says they have left, without changing the device. -/
def Sourced (pull : S → IoM (Option (Except Error (Key × Entry)) × S))
    (pulls : S → List (Key × Entry) → Prop) : Prop :=
  ∀ source rest (world : World Fs), pulls source rest → world.Calm →
    Succeeds (pull source) world fun item after => PullStep pulls rest item ∧ Quiet world after

/-- The iterator's state when the layers have these entries left: the first entry of a layer is in
the heap (unless its source is being refilled, `held`), the rest is still in its source. -/
structure Merging (pulls : S → List (Key × Entry) → Prop) (merge : MergingIterator S)
    (layers : List Layer) (held : List Nat) : Prop where
  sequences : merge.sequences = layers.map Prod.fst
  length : merge.sources.length = layers.length
  sources : ∀ (idx : Nat) (source : S) (sequence : Nat) (entries : List (Key × Entry)),
    merge.sources[idx]? = some source → layers[idx]? = some (sequence, entries) → pulls source entries.tail
  heap : ∀ entry : HeapEntry, entry ∈ merge.heap ↔ entry.sourceIdx ∉ held ∧
    ∃ rest, layers[entry.sourceIdx]? = some (entry.sequence, (entry.key, entry.entry) :: rest)
  nodup : merge.heap.Nodup
  clean : merge.pendingError = none ∧ merge.poisoned = false

theorem below_strictWeak : Heap.StrictWeak HeapEntry.below := by
  constructor
  · intro one two below
    simp only [HeapEntry.below, Bool.or_eq_true, Bool.and_eq_true, decide_eq_true_eq,
      Bool.or_eq_false_iff, Bool.and_eq_false_iff, decide_eq_false_iff_not] at below ⊢
    rcases below with above | ⟨same, older⟩
    · exact ⟨above.le.not_gt, Or.inl above.ne⟩
    · exact ⟨by rw [same]; exact lt_irrefl _, Or.inr (by omega)⟩
  · intro one two three first second
    simp only [HeapEntry.below, Bool.or_eq_false_iff, Bool.and_eq_false_iff,
      decide_eq_false_iff_not] at first second ⊢
    have one_two := not_lt.mp first.1
    have two_three := not_lt.mp second.1
    refine ⟨not_lt.mpr (one_two.trans two_three), ?_⟩
    by_cases same : one.key = three.key
    · have equal : one.key = two.key := le_antisymm one_two (same ▸ two_three)
      have equal' : two.key = three.key := equal.symm.trans same
      refine Or.inr ?_
      have older := first.2.resolve_left (not_not_intro equal)
      have older' := second.2.resolve_left (not_not_intro equal')
      omega
    · exact Or.inl same

section Invariant

variable {pull : S → IoM (Option (Except Error (Key × Entry)) × S)}
  {pulls : S → List (Key × Entry) → Prop} {merge : MergingIterator S} {layers : List Layer}
  {held : List Nat} {world : World Fs}

/-- Taking the top off the heap holds its source. -/
theorem Merging.pop (merging : Merging pulls merge layers held) {top : HeapEntry}
    {rest : List HeapEntry} (popped : Heap.popMax HeapEntry.below merge.heap = some (top, rest)) :
    Merging pulls { merge with heap := rest } layers (top.sourceIdx :: held) := by
  have perm := Heap.popMax_perm popped
  have nodup := perm.nodup_iff.mp merging.nodup
  obtain ⟨fresh, nodup⟩ := List.nodup_cons.mp nodup
  obtain ⟨free, topRest, topHere⟩ := (merging.heap top).mp (Heap.popMax_mem popped)
  refine ⟨merging.sequences, merging.length, merging.sources, fun entry => ?_, nodup, merging.clean⟩
  have member : entry ∈ merge.heap ↔ entry = top ∨ entry ∈ rest := by
    rw [perm.mem_iff, List.mem_cons]
  constructor
  · intro (inside : entry ∈ rest)
    obtain ⟨notHeld, tail, here⟩ := (merging.heap entry).mp (member.mpr (Or.inr inside))
    refine ⟨?_, tail, here⟩
    rw [List.mem_cons, not_or]
    refine ⟨fun same => ?_, notHeld⟩
    -- A source has only one entry in the heap.
    rw [same, topHere] at here
    have equal : entry = top := by
      obtain ⟨key, value, idx, sequence⟩ := entry
      obtain ⟨key', value', idx', sequence'⟩ := top
      simp only [Option.some.injEq, Prod.mk.injEq, List.cons.injEq] at here same
      obtain ⟨rfl, ⟨rfl, rfl⟩, rfl⟩ := here
      rw [same]
    exact fresh (equal ▸ inside)
  · rintro ⟨notHeld, tail, here⟩
    rw [List.mem_cons, not_or] at notHeld
    rcases member.mp ((merging.heap entry).mpr ⟨notHeld.2, tail, here⟩) with same | inside
    · exact absurd (same ▸ rfl) notHeld.1
    · exact inside

/-- **A refill** drops the held source's first entry and puts its next one into the heap. -/
theorem refill_succeeds (sourced : Sourced pull pulls) (merging : Merging pulls merge layers held)
    (calm : world.Calm) {idx sequence : Nat} {head : Key × Entry} {tail : List (Key × Entry)}
    (isHeld : idx ∈ held) (once : held.Nodup)
    (here : layers[idx]? = some (sequence, head :: tail)) :
    Succeeds (refill pull merge idx) world fun result after =>
      result.1 = none ∧
      Merging pulls result.2 (layers.set idx (sequence, tail)) (held.erase idx) ∧
      Quiet world after := by
  have inside : idx < layers.length := (List.getElem?_eq_some_iff.mp here).1
  obtain ⟨source, sourceHere⟩ : ∃ source, merge.sources[idx]? = some source :=
    ⟨_, List.getElem?_eq_getElem (merging.length ▸ inside)⟩
  have sequenceHere : merge.sequences[idx]? = some sequence := by
    rw [merging.sequences, List.getElem?_map, here]
    rfl
  have left : pulls source tail := merging.sources idx source sequence _ sourceHere here
  have notHeld : idx ∉ held.erase idx := fun member => (List.Nodup.mem_erase_iff once).mp member |>.1 rfl
  -- Away from the refilled source nothing changes.
  have away : ∀ other, other ≠ idx → ((other ∉ held.erase idx ↔ other ∉ held) ∧
      (layers.set idx (sequence, tail))[other]? = layers[other]?) := by
    intro other different
    exact ⟨not_congr (List.mem_erase_of_ne different), List.getElem?_set_ne (Ne.symm different)⟩
  have set : (layers.set idx (sequence, tail))[idx]? = some (sequence, tail) :=
    List.getElem?_set_self inside
  have sequences : merge.sequences = (layers.set idx (sequence, tail)).map Prod.fst := by
    have mapped : idx < (layers.map Prod.fst).length := by rwa [List.length_map]
    have same : (layers.map Prod.fst)[idx] = sequence := by
      have layer := (List.getElem?_eq_some_iff.mp here).2
      rw [List.getElem_map, layer]
    rw [merging.sequences, List.map_set, ← same, List.set_getElem_self]
  have sources : ∀ after, pulls after tail.tail → ∀ (other : Nat) (source' : S)
      (sequence' : Nat) (entries' : List (Key × Entry)),
      (merge.sources.set idx after)[other]? = some source' →
      (layers.set idx (sequence, tail))[other]? = some (sequence', entries') →
      pulls source' entries'.tail := by
    intro after gives other source' sequence' entries' found layer
    by_cases same : other = idx
    · subst same
      rw [List.getElem?_set_self (merging.length ▸ inside)] at found
      rw [set] at layer
      cases found
      cases layer
      exact gives
    · rw [List.getElem?_set_ne (Ne.symm same)] at found layer
      exact merging.sources other source' sequence' entries' found layer
  unfold refill
  rw [sourceHere, sequenceHere]
  refine Succeeds.bind (Succeeds.pure (Succeeds.bind (Succeeds.pure ?_)))
  refine Succeeds.bind ((sourced source tail world left calm).mono fun result after holds => ?_)
  obtain ⟨step, quiet⟩ := holds
  obtain ⟨item, source'⟩ := result
  match item, step with
  | none, step =>
    obtain ⟨rfl, gives⟩ := step
    refine Succeeds.pure ⟨rfl, ⟨sequences, ?_, sources source' gives, fun entry => ?_,
      merging.nodup, merging.clean⟩, quiet⟩
    · rw [List.length_set, List.length_set, merging.length]
    · show entry ∈ merge.heap ↔ _
      rw [merging.heap]
      by_cases same : entry.sourceIdx = idx
      · rw [same, set]
        constructor
        · exact fun bad => absurd isHeld bad.1
        · rintro ⟨_, rest, impossible⟩
          cases impossible
      · rw [(away _ same).1, (away _ same).2]
  | some (.ok (key, value)), step =>
    obtain ⟨rest', rfl, gives⟩ := step
    refine Succeeds.pure ⟨rfl, ⟨sequences, ?_, sources source' gives, fun entry => ?_,
      List.nodup_cons.mpr ⟨?_, merging.nodup⟩, merging.clean⟩, quiet⟩
    · rw [List.length_set, List.length_set, merging.length]
    · show entry ∈ HeapEntry.mk key value idx sequence :: merge.heap ↔ _
      rw [List.mem_cons, merging.heap]
      by_cases same : entry.sourceIdx = idx
      · rw [same, set]
        constructor
        · rintro (rfl | bad)
          · exact ⟨notHeld, rest', rfl⟩
          · exact absurd isHeld bad.1
        · rintro ⟨_, rest, found⟩
          refine Or.inl ?_
          obtain ⟨key', value', idx', sequence'⟩ := entry
          simp only [Option.some.injEq, Prod.mk.injEq, List.cons.injEq] at found same
          obtain ⟨rfl, ⟨rfl, rfl⟩, _⟩ := found
          rw [same]
      · rw [(away _ same).1, (away _ same).2]
        constructor
        · rintro (rfl | found)
          · exact absurd rfl same
          · exact found
        · exact Or.inr
    · intro member
      exact ((merging.heap _).mp member).1 isHeld

/-- The heap is empty exactly when every layer is. -/
theorem Merging.heap_nil (merging : Merging pulls merge layers []) :
    merge.heap = [] ↔ ∀ layer ∈ layers, layer.2 = [] := by
  constructor
  · intro empty layer member
    obtain ⟨idx, found⟩ := List.getElem?_of_mem member
    obtain ⟨sequence, entries⟩ := layer
    cases entries with
    | nil => rfl
    | cons head rest =>
      have inHeap := (merging.heap ⟨head.1, head.2, idx, sequence⟩).mpr ⟨nofun, rest, found⟩
      rw [empty] at inHeap
      cases inHeap
  · intro empty
    rw [List.eq_nil_iff_forall_not_mem]
    intro entry member
    obtain ⟨_, rest, found⟩ := (merging.heap entry).mp member
    have nil := empty _ (List.mem_of_getElem? found)
    cases nil

/-- Where the heads not held have no key below `key`, no entry of their layers has. -/
theorem heads_least (layered : Layered layers) {key : Key} {idx : Nat} {sequence : Nat}
    {head : Key × Entry} {tail : List (Key × Entry)}
    (here : layers[idx]? = some (sequence, head :: tail)) (least : key ≤ head.1) :
    ∀ entry ∈ head :: tail, key ≤ entry.1 := by
  intro entry member
  have ascending := layered.ascending _ (List.mem_of_getElem? here)
  rcases List.mem_cons.mp member with rfl | member
  · exact least
  · exact least.trans ((List.pairwise_cons.mp ascending).1 entry member).le

/-- The top of the heap has the least key of all, and the highest sequence of its key. -/
theorem Merging.top (layered : Layered layers) (merging : Merging pulls merge layers [])
    {top : HeapEntry} {rest : List HeapEntry}
    (popped : Heap.popMax HeapEntry.below merge.heap = some (top, rest)) :
    AtLeast top.key layers ∧ IsNewest layers top.key top.entry := by
  have maximal := Heap.popMax_max below_strictWeak popped
  have notBelow : ∀ other ∈ merge.heap, top.key ≤ other.key ∧
      (other.key = top.key → other.sequence ≤ top.sequence) := by
    intro other member
    have max := maximal other member
    simp only [HeapEntry.below, Bool.or_eq_false_iff, Bool.and_eq_false_iff,
      decide_eq_false_iff_not] at max
    refine ⟨not_lt.mp max.1, fun same => ?_⟩
    have older := max.2.resolve_left (not_not_intro same.symm)
    omega
  obtain ⟨_, tail, here⟩ := (merging.heap top).mp (Heap.popMax_mem popped)
  have least : AtLeast top.key layers := by
    intro layer member entry inside
    obtain ⟨idx, found⟩ := List.getElem?_of_mem member
    obtain ⟨sequence, entries⟩ := layer
    cases entries with
    | nil => cases inside
    | cons head others =>
      have inHeap := (merging.heap ⟨head.1, head.2, idx, sequence⟩).mpr ⟨nofun, others, found⟩
      exact heads_least layered found (notBelow _ inHeap).1 entry inside
  refine ⟨least, _, List.mem_of_getElem? here, by rw [SortedMap.lookupIn, if_pos rfl], ?_⟩
  intro other member present
  obtain ⟨idx, found⟩ := List.getElem?_of_mem member
  obtain ⟨sequence, entries⟩ := other
  cases entries with
  | nil => exact absurd rfl present
  | cons head others =>
    have inHeap := (merging.heap ⟨head.1, head.2, idx, sequence⟩).mpr ⟨nofun, others, found⟩
    -- Every key of the layer is at least the top's, so the top's key can only be its first.
    have first : head.1 = top.key := by
      by_contra different
      have above : top.key < head.1 := lt_of_le_of_ne (notBelow _ inHeap).1 (Ne.symm different)
      refine present ((SortedMap.lookupIn_eq_none).mpr fun entry inside => ?_)
      have ascending := layered.ascending _ member
      rcases List.mem_cons.mp inside with rfl | inside
      · exact different
      · exact (above.trans ((List.pairwise_cons.mp ascending).1 entry inside)).ne'
    exact (notBelow _ inHeap).2 first

/-- How many layers still start with the key. -/
def heads (key : Key) (layers : List Layer) : Nat :=
  layers.countP fun layer => decide (layer.2.head?.map Prod.fst = some key)

theorem map_dropKey_set (layered : Layered layers) {key : Key} {idx sequence : Nat} {entry : Entry}
    {tail : List (Key × Entry)} (here : layers[idx]? = some (sequence, (key, entry) :: tail)) :
    (layers.set idx (sequence, tail)).map (dropKey key) = layers.map (dropKey key) := by
  have member := List.mem_of_getElem? here
  have dropped : dropKey key (sequence, (key, entry) :: tail) = (sequence, tail) := by
    simp [dropKey]
  have again : dropKey key (sequence, tail) = (sequence, tail) := by
    rw [← dropped]
    exact dropKey_idem (layered.ascending _ member)
  obtain ⟨inside, layer⟩ := List.getElem?_eq_some_iff.mp here
  have mapped : idx < (layers.map (dropKey key)).length := by rwa [List.length_map]
  have same : (layers.map (dropKey key))[idx] = (sequence, tail) := by
    rw [List.getElem_map, layer, dropped]
  rw [List.map_set, again, ← same, List.set_getElem_self]

theorem layered_set (layered : Layered layers) {idx sequence : Nat} {head : Key × Entry}
    {tail : List (Key × Entry)} (here : layers[idx]? = some (sequence, head :: tail)) :
    Layered (layers.set idx (sequence, tail)) := by
  obtain ⟨inside, layer⟩ := List.getElem?_eq_some_iff.mp here
  constructor
  · intro other member
    rcases List.mem_or_eq_of_mem_set member with member | rfl
    · exact layered.ascending other member
    · exact (List.pairwise_cons.mp (layered.ascending _ (List.mem_of_getElem? here))).2
  · have same : (layers.set idx (sequence, tail)).map Prod.fst = layers.map Prod.fst := by
      have mapped : idx < (layers.map Prod.fst).length := by rwa [List.length_map]
      have first : (layers.map Prod.fst)[idx] = sequence := by
        rw [List.getElem_map, layer]
      rw [List.map_set, ← first, List.set_getElem_self]
    have distinct := layered.distinct
    rw [← List.pairwise_map (f := Prod.fst) (R := fun one two : Nat => one ≠ two)] at distinct ⊢
    rwa [same]

/-- Dropping a first entry leaves one head of its key fewer. -/
theorem heads_set (layered : Layered layers) {key : Key} {idx sequence : Nat} {entry : Entry}
    {tail : List (Key × Entry)} (here : layers[idx]? = some (sequence, (key, entry) :: tail)) :
    heads key (layers.set idx (sequence, tail)) + 1 = heads key layers := by
  obtain ⟨inside, layer⟩ := List.getElem?_eq_some_iff.mp here
  have ascending := layered.ascending _ (List.mem_of_getElem? here)
  have gone : ¬ tail.head?.map Prod.fst = some key := by
    cases tail with
    | nil => exact nofun
    | cons second rest =>
      have above := (List.pairwise_cons.mp ascending).1 second (List.mem_cons_self ..)
      simpa using above.ne'
  have counted : 0 < heads key layers := by
    rw [heads, List.countP_pos_iff]
    exact ⟨_, List.mem_of_getElem? here, by simp⟩
  have set := List.countP_set (p := fun layer : Layer =>
    decide (layer.2.head?.map Prod.fst = some key)) (a := (sequence, tail)) inside
  rw [← heads, ← heads, layer] at set
  simp only [gone, decide_false, Bool.false_eq_true, if_false, List.head?_cons, Option.map_some,
    decide_true, if_true] at set
  omega

/-- What the loop over older entries keeps: only first entries of the winner's key were dropped. -/
structure Draining (pulls : S → List (Key × Entry) → Prop) (start : List Layer) (winner : Key)
    (idx : Nat) (merge : MergingIterator S) (layers : List Layer) : Prop where
  merging : Merging pulls merge layers [idx]
  layered : Layered layers
  least : AtLeast winner layers
  dropped : layers.map (dropKey winner) = start.map (dropKey winner)
  held : layers[idx]? = start[idx]?

/-- **The older entries are drained**: no source but the winner's has its key left. -/
theorem drain_succeeds (sourced : Sourced pull pulls) {start : List Layer} {winner : Key} {idx : Nat}
    {sequence : Nat} {entry : Entry} {tail : List (Key × Entry)}
    (winnerHere : start[idx]? = some (sequence, (winner, entry) :: tail)) :
    ∀ (rounds : Nat) (merge : MergingIterator S) (layers : List Layer) (world : World Fs),
      Draining pulls start winner idx merge layers → world.Calm → heads winner layers ≤ rounds →
      Succeeds (Prog.loop (drainRound pull winner) rounds merge) world fun result after =>
        ∃ layers', Draining pulls start winner idx result layers' ∧
          (∀ other layer, other ≠ idx → layers'[other]? = some layer → dropKey winner layer = layer) ∧
          Quiet world after := by
  intro rounds
  induction rounds with
  | zero =>
    intro merge layers world draining _ bound
    have counted : 0 < heads winner layers := by
      rw [heads, List.countP_pos_iff]
      exact ⟨_, List.mem_of_getElem? (draining.held.trans winnerHere), by simp⟩
    omega
  | succ rounds ih =>
    intro merge layers world draining calm bound
    have inHeap : ∀ other sequence' (head : Key × Entry) others, other ≠ idx →
        layers[other]? = some (sequence', head :: others) →
        HeapEntry.mk head.1 head.2 other sequence' ∈ merge.heap := by
      intro other sequence' head others different found
      exact (draining.merging.heap _).mpr ⟨by simpa using different, others, found⟩
    refine Succeeds.bind (Succeeds.mono (?_ : Succeeds _ world fun result after =>
      (match result with
        | .inl merge' => ∃ layers', Draining pulls start winner idx merge' layers' ∧
            heads winner layers' + 1 = heads winner layers
        | .inr merge' => ∃ layers', Draining pulls start winner idx merge' layers' ∧
            ∀ other layer, other ≠ idx → layers'[other]? = some layer →
              dropKey winner layer = layer) ∧ Quiet world after) ?_)
    · unfold drainRound
      cases popped : Heap.popMax HeapEntry.below merge.heap with
      | none =>
        have empty := Heap.popMax_eq_none.mp popped
        refine Succeeds.pure ⟨⟨layers, draining, ?_⟩, Quiet.refl _⟩
        intro other layer different found
        obtain ⟨sequence', entries⟩ := layer
        cases entries with
        | nil => rfl
        | cons head others =>
          have member := inHeap other sequence' head others different found
          rw [empty] at member
          cases member
      | some result =>
        obtain ⟨top, rest⟩ := result
        simp only
        split
        · rename_i past
          refine Succeeds.pure ⟨⟨layers, draining, ?_⟩, Quiet.refl _⟩
          intro other layer different found
          obtain ⟨sequence', entries⟩ := layer
          cases entries with
          | nil => rfl
          | cons head others =>
            -- The top has the least key of the heap, and it is above the winner's.
            have maximal := Heap.popMax_max below_strictWeak popped _
              (inHeap other sequence' head others different found)
            simp only [HeapEntry.below, Bool.or_eq_false_iff, decide_eq_false_iff_not,
              not_lt] at maximal
            obtain ⟨_, topTail, topHere⟩ :=
              (draining.merging.heap top).mp (Heap.popMax_mem popped)
            have topLeast := draining.least _ (List.mem_of_getElem? topHere) _
              (List.mem_cons_self ..)
            have above : winner < head.1 :=
              lt_of_lt_of_le (lt_of_le_of_ne topLeast (Ne.symm past)) maximal.1
            simp [dropKey, above.ne']
        · rename_i same
          have same : top.key = winner := not_not.mp same
          obtain ⟨notIdx, topTail, topHere⟩ :=
            (draining.merging.heap top).mp (Heap.popMax_mem popped)
          have other : top.sourceIdx ≠ idx := by simpa using notIdx
          have popping := draining.merging.pop popped
          refine Succeeds.bind ((refill_succeeds sourced popping calm (List.mem_cons_self ..)
            (by simpa using other) topHere).mono fun refilled after holds => ?_)
          obtain ⟨none, merging, quiet⟩ := holds
          obtain ⟨error, merge'⟩ := refilled
          simp only at none merging
          subst none
          rw [List.erase_cons_head] at merging
          rw [same] at topHere
          refine Succeeds.pure ⟨⟨_, ⟨merging, layered_set draining.layered topHere, ?_, ?_, ?_⟩,
            heads_set draining.layered topHere⟩, quiet⟩
          · intro layer member held inside
            rcases List.mem_or_eq_of_mem_set member with member | rfl
            · exact draining.least layer member held inside
            · exact draining.least _ (List.mem_of_getElem? topHere) held
                (List.mem_cons_of_mem _ inside)
          · rw [map_dropKey_set draining.layered topHere, draining.dropped]
          · rw [List.getElem?_set_ne other, draining.held]
    · rintro result middle ⟨step, quiet⟩
      cases result with
      | inl merge' =>
        obtain ⟨layers', draining', fewer⟩ := step
        refine (ih merge' layers' middle draining' (quiet.calm calm) (by omega)).mono
          fun result after holds => ?_
        obtain ⟨layers'', draining'', ended, quiet'⟩ := holds
        exact ⟨layers'', draining'', ended, quiet.trans quiet'⟩
      | inr merge' =>
        obtain ⟨layers', draining', ended⟩ := step
        exact Succeeds.pure ⟨layers', draining', ended, quiet⟩

/-- What one call yields when `merged` is left. -/
def Yielded (pulls : S → List (Key × Entry) → Prop) (count : Nat) :
    List (Key × Entry) → Option (Except Error (Key × Entry)) × MergingIterator S → Prop
  | [], result => result.1 = none
  | entry :: rest, result => result.1 = some (.ok entry) ∧ ∃ layers, layers.length = count ∧
      Layered layers ∧ Merging pulls result.2 layers [] ∧ IsMerge layers rest

/-- **One call yields the first entry of the merge**, and the rest of it is left. -/
theorem next_succeeds (sourced : Sourced pull pulls) (layered : Layered layers)
    (merging : Merging pulls merge layers []) (calm : world.Calm) {merged : List (Key × Entry)}
    (isMerge : IsMerge layers merged) {rounds : Nat} (enough : layers.length ≤ rounds) :
    Succeeds (next pull rounds merge) world fun result after =>
      Yielded pulls layers.length merged result ∧ Quiet world after := by
  obtain ⟨iters, heap, sequences, pendingError, poisoned⟩ := merge
  obtain ⟨rfl, rfl⟩ : pendingError = none ∧ poisoned = false := merging.clean
  unfold next
  rw [if_neg nofun]
  simp only
  cases popped : Heap.popMax HeapEntry.below heap with
  | none =>
    have empty := merging.heap_nil.mp (Heap.popMax_eq_none.mp popped)
    cases merged with
    | nil => exact Succeeds.pure ⟨rfl, Quiet.refl _⟩
    | cons entry rest =>
      obtain ⟨layer, member, found, _⟩ := (isMerge.newest entry.1 entry.2).mp
        (by rw [SortedMap.lookupIn, if_pos rfl])
      rw [empty layer member] at found
      cases found
  | some result =>
    obtain ⟨winner, rest⟩ := result
    obtain ⟨least, newest⟩ := merging.top layered popped
    obtain ⟨_, tail, here⟩ := (merging.heap winner).mp (Heap.popMax_mem popped)
    -- The merge starts with the winner: its key is the least, its entry the newest.
    have first : ∃ others, merged = (winner.key, winner.entry) :: others := by
      have found := (isMerge.newest winner.key winner.entry).mpr newest
      cases merged with
      | nil => cases found
      | cons head others =>
        refine ⟨others, ?_⟩
        have headFound : SortedMap.lookupIn head.1 (head :: others) = some head.2 := by
          rw [SortedMap.lookupIn, if_pos rfl]
        obtain ⟨layer, member, held, _⟩ := (isMerge.newest head.1 head.2).mp headFound
        have low := least layer member _ (SortedMap.mem_of_lookupIn held)
        have same : head.1 = winner.key := by
          rcases List.mem_cons.mp (SortedMap.mem_of_lookupIn found) with same | later
          · rw [← same]
          · exact absurd ((List.pairwise_cons.mp isMerge.ascending).1 _ later) (not_lt.mpr low)
        rw [same] at headFound
        rw [found] at headFound
        have value := Option.some.inj headFound
        rw [← same, value]
    obtain ⟨others, rfl⟩ := first
    have start : Draining pulls layers winner.key winner.sourceIdx
        ⟨iters, rest, sequences, none, false⟩ layers :=
      ⟨merging.pop popped, layered, least, rfl, rfl⟩
    have bound : heads winner.key layers ≤ rounds := List.countP_le_length.trans enough
    refine Succeeds.bind ((drain_succeeds sourced here rounds _ layers world start calm bound).mono
      fun drained middle holds => ?_)
    obtain ⟨layers', draining, ended, quiet⟩ := holds
    have here' := draining.held.trans here
    refine Succeeds.bind ((refill_succeeds sourced draining.merging (quiet.calm calm)
      (List.mem_singleton_self _) (List.pairwise_singleton _ _) here').mono fun refilled after holds => ?_)
    obtain ⟨none, merging', quiet'⟩ := holds
    obtain ⟨error, merge'⟩ := refilled
    simp only at none merging'
    subst none
    have erased : [winner.sourceIdx].erase winner.sourceIdx = [] := by simp
    rw [erased] at merging'
    have all : layers'.set winner.sourceIdx (winner.sequence, tail) =
        layers.map (dropKey winner.key) := by
      rw [← draining.dropped]
      apply List.ext_getElem?
      intro idx
      obtain ⟨inside, layer⟩ := List.getElem?_eq_some_iff.mp here'
      by_cases same : idx = winner.sourceIdx
      · subst same
        rw [List.getElem?_set_self inside, List.getElem?_map, here']
        simp [dropKey]
      · rw [List.getElem?_set_ne (Ne.symm same), List.getElem?_map]
        cases found : layers'[idx]? with
        | none => rfl
        | some layer => rw [Option.map_some, ended idx layer same found]
    rw [all] at merging'
    have unqueued : merge'.queue none = merge' := by
      simp [queue]
    refine Succeeds.pure ⟨⟨rfl, layers.map (dropKey winner.key), List.length_map _,
      layered.dropKey _, ?_, isMerge.tail layered least⟩, quiet.trans quiet'⟩
    rw [unqueued]
    exact merging'

/-- **A new merge** has every source's entries left. -/
theorem new_succeeds (sourced : Sourced pull pulls) (calm : world.Calm)
    {sources : List (MergeSource S)} {entries : List (List (Key × Entry))}
    (given : List.Forall₂ (fun source rest => pulls source.iter rest) sources entries) :
    Succeeds (new pull sources) world fun merge after =>
      Merging pulls merge ((sources.map MergeSource.sequence).zip entries) [] ∧
      Quiet world after := by
  have build : ∀ (sources : List (MergeSource S)) (entries : List (List (Key × Entry)))
      (merge : MergingIterator S) (layers : List Layer) (world : World Fs),
      List.Forall₂ (fun source rest => pulls source.iter rest) sources entries →
      Merging pulls merge layers [] → world.Calm →
      Succeeds (Prog.foldM (addSource pull) merge sources) world fun merge' after =>
        Merging pulls merge' (layers ++ (sources.map MergeSource.sequence).zip entries) [] ∧
        Quiet world after := by
    intro sources
    induction sources with
    | nil =>
      intro entries merge layers world given merging calm
      cases given
      refine Succeeds.pure ⟨?_, Quiet.refl _⟩
      rw [List.map_nil, List.zip_nil_left, List.append_nil]
      exact merging
    | cons source sources ih =>
      intro entries merge layers world given merging calm
      obtain ⟨rest, entries, first, following, rfl⟩ := List.forall₂_cons_left_iff.mp given
      have added : Succeeds (addSource pull merge source) world fun merge' after =>
          Merging pulls merge' (layers ++ [(source.sequence, rest)]) [] ∧ Quiet world after := by
        refine Succeeds.bind ((sourced source.iter rest world first calm).mono
          fun result after holds => ?_)
        obtain ⟨step, quiet⟩ := holds
        obtain ⟨item, iter⟩ := result
        have length := merging.length
        have sequences : merge.sequences ++ [source.sequence] =
            (layers ++ [(source.sequence, rest)]).map Prod.fst := by
          rw [merging.sequences, List.map_append]
          rfl
        have given' : ∀ (left : pulls iter rest.tail) (idx : Nat) (source' : S) (sequence : Nat)
            (entries : List (Key × Entry)), (merge.sources ++ [iter])[idx]? = some source' →
            (layers ++ [(source.sequence, rest)])[idx]? = some (sequence, entries) →
            pulls source' entries.tail := by
          intro left idx source' sequence entries found layer
          rcases lt_trichotomy idx layers.length with before | same | behind
          · rw [List.getElem?_append_left (by omega)] at found layer
            exact merging.sources idx source' sequence entries found layer
          · rw [List.getElem?_append_right (by omega), same, length, Nat.sub_self] at found
            rw [List.getElem?_append_right (by omega), same, Nat.sub_self] at layer
            cases found
            cases layer
            exact left
          · rw [List.getElem?_append_right (by omega), List.getElem?_eq_none (by simp; omega)] at layer
            cases layer
        have old : ∀ entry : HeapEntry, entry ∈ merge.heap ↔ ∃ others,
            layers[entry.sourceIdx]? =
              some (entry.sequence, (entry.key, entry.entry) :: others) := by
          intro entry
          rw [merging.heap]
          exact ⟨fun holds => holds.2, fun holds => ⟨nofun, holds⟩⟩
        match item, step with
        | none, step =>
          obtain ⟨rfl, gives⟩ := step
          refine Succeeds.pure ⟨⟨sequences, by simp [length], given' gives, fun entry => ?_,
            merging.nodup, merging.clean⟩, quiet⟩
          show entry ∈ merge.heap ↔ _
          rw [old]
          constructor
          · rintro ⟨others, found⟩
            have inside := (List.getElem?_eq_some_iff.mp found).1
            exact ⟨nofun, others, by rw [List.getElem?_append_left inside, found]⟩
          · rintro ⟨_, others, found⟩
            rcases Nat.lt_or_ge entry.sourceIdx layers.length with inside | behind
            · rw [List.getElem?_append_left inside] at found
              exact ⟨others, found⟩
            · rw [List.getElem?_append_right behind] at found
              have last := List.mem_of_getElem? found
              simp at last
        | some (.ok (key, value)), step =>
          obtain ⟨rest', rfl, gives⟩ := step
          refine Succeeds.pure ⟨⟨sequences, by simp [length], given' gives, fun entry => ?_,
            List.nodup_cons.mpr ⟨?_, merging.nodup⟩, merging.clean⟩, quiet⟩
          · show entry ∈ HeapEntry.mk key value merge.sources.length source.sequence ::
              merge.heap ↔ _
            rw [List.mem_cons, old]
            constructor
            · rintro (rfl | ⟨others, found⟩)
              · refine ⟨nofun, rest', ?_⟩
                show (layers ++ [(source.sequence, (key, value) :: rest')])[merge.sources.length]? = _
                rw [length, List.getElem?_concat_length]
              · have inside := (List.getElem?_eq_some_iff.mp found).1
                exact ⟨nofun, others, by rw [List.getElem?_append_left inside, found]⟩
            · rintro ⟨_, others, found⟩
              rcases Nat.lt_or_ge entry.sourceIdx layers.length with inside | behind
              · rw [List.getElem?_append_left inside] at found
                exact Or.inr ⟨others, found⟩
              · refine Or.inl ?_
                obtain ⟨key', value', idx, sequence⟩ := entry
                simp only at found behind
                have last : idx = layers.length := by
                  have short := (List.getElem?_eq_some_iff.mp found).1
                  simp at short
                  omega
                subst last
                rw [List.getElem?_concat_length] at found
                simp only [Option.some.injEq, Prod.mk.injEq, List.cons.injEq] at found
                obtain ⟨rfl, ⟨rfl, rfl⟩, _⟩ := found
                rw [length]
          · intro member
            obtain ⟨others, found⟩ := (old _).mp member
            have inside := (List.getElem?_eq_some_iff.mp found).1
            simp only at inside
            omega
      refine Succeeds.bind (added.mono fun merge' middle holds => ?_)
      obtain ⟨merging', quiet⟩ := holds
      refine (ih entries merge' _ middle following merging' (quiet.calm calm)).mono
        fun merge'' after holds => ?_
      obtain ⟨merging'', quiet'⟩ := holds
      rw [List.append_assoc] at merging''
      exact ⟨merging'', quiet.trans quiet'⟩
  have start : Merging pulls (⟨[], [], [], none, false⟩ : MergingIterator S) [] [] :=
    ⟨rfl, rfl, nofun, fun entry => ⟨nofun, fun holds => by
      obtain ⟨_, rest, found⟩ := holds
      cases found⟩, List.nodup_nil, rfl, rfl⟩
  exact build sources entries _ [] world given start calm

end Invariant

end MergingIterator

end Sastran

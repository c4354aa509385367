/-
Finite maps as strictly ascending association lists, and newest-wins stacks of them.

* `SortedMap κ ν` - the entries in strictly ascending key order, with the proof that they are. Two
  maps with the same lookups are equal (`ext_find?`), so a map is known from its lookups alone.
* `insert`, `erase`, `filter` with their lookups; `total` - the sum of a weight over the entries.
* `union layers` - the newest-wins union of a stack of maps as one map.
* `newestOf layers key` - the first layer that holds the key answers: the reading rule of a stack of
  maps whose top is the most recent one.
-/

import Mathlib.Algebra.GroupWithZero.Nat
import Mathlib.Data.List.Pairwise
import Mathlib.Order.Lattice

/-- A finite map: its entries in strictly ascending key order. -/
structure SortedMap (κ ν : Type) [LinearOrder κ] where
  entries : List (κ × ν)
  ascending : entries.Pairwise fun first second => first.1 < second.1

namespace SortedMap

variable {κ ν : Type} [LinearOrder κ]

/-! ### Association lists -/

/-- The value of the first entry with the key. -/
def lookupIn (key : κ) : List (κ × ν) → Option ν
  | [] => none
  | (key', value) :: rest => if key' = key then some value else lookupIn key rest

/-- Put an entry at its place in an ascending list, replacing the key's old entry. -/
def insertIn (key : κ) (value : ν) : List (κ × ν) → List (κ × ν)
  | [] => [(key, value)]
  | (key', value') :: rest =>
    if key < key' then (key, value) :: (key', value') :: rest
    else if key = key' then (key, value) :: rest
    else (key', value') :: insertIn key value rest

theorem lookupIn_eq_none {key : κ} {entries : List (κ × ν)} :
    lookupIn key entries = none ↔ ∀ entry ∈ entries, entry.1 ≠ key := by
  induction entries with
  | nil => simp [lookupIn]
  | cons entry rest ih =>
    obtain ⟨key', value⟩ := entry
    by_cases same : key' = key <;> simp [lookupIn, same, ih]

theorem mem_of_lookupIn {key : κ} {value : ν} {entries : List (κ × ν)}
    (found : lookupIn key entries = some value) : (key, value) ∈ entries := by
  induction entries with
  | nil => cases found
  | cons entry rest ih =>
    obtain ⟨key', value'⟩ := entry
    rw [lookupIn] at found
    split at found
    · rename_i same
      cases found
      rw [same]
      exact List.mem_cons_self
    · exact List.mem_cons_of_mem _ (ih found)

/-- In an ascending list an entry is found under its key. -/
theorem lookupIn_of_mem {key : κ} {value : ν} {entries : List (κ × ν)}
    (ascending : entries.Pairwise fun first second => first.1 < second.1)
    (member : (key, value) ∈ entries) : lookupIn key entries = some value := by
  induction entries with
  | nil => cases member
  | cons entry rest ih =>
    obtain ⟨key', value'⟩ := entry
    obtain ⟨above, ascending⟩ := List.pairwise_cons.mp ascending
    rcases List.mem_cons.mp member with same | member
    · cases same
      rw [lookupIn, if_pos rfl]
    · rw [lookupIn, if_neg (above _ member).ne]
      exact ih ascending member

theorem lookupIn_append (key : κ) (first second : List (κ × ν)) :
    lookupIn key (first ++ second) = (lookupIn key first).or (lookupIn key second) := by
  induction first with
  | nil => rfl
  | cons entry rest ih =>
    obtain ⟨key', value⟩ := entry
    by_cases same : key' = key <;> simp [lookupIn, same, ih]

theorem mem_insertIn {key : κ} {value : ν} {entries : List (κ × ν)} {entry : κ × ν}
    (member : entry ∈ insertIn key value entries) : entry = (key, value) ∨ entry ∈ entries := by
  induction entries with
  | nil => exact Or.inl (List.mem_singleton.mp member)
  | cons head rest ih =>
    obtain ⟨key', value'⟩ := head
    rw [insertIn] at member
    split at member
    · exact List.mem_cons.mp member
    · split at member
      · rcases List.mem_cons.mp member with same | member
        · exact Or.inl same
        · exact Or.inr (List.mem_cons_of_mem _ member)
      · rcases List.mem_cons.mp member with same | member
        · exact Or.inr (same ▸ List.mem_cons_self)
        · exact (ih member).imp_right (List.mem_cons_of_mem _)

theorem insertIn_ascending {key : κ} {value : ν} {entries : List (κ × ν)}
    (ascending : entries.Pairwise fun first second => first.1 < second.1) :
    (insertIn key value entries).Pairwise fun first second => first.1 < second.1 := by
  induction entries with
  | nil => exact List.pairwise_singleton _ _
  | cons head rest ih =>
    obtain ⟨key', value'⟩ := head
    obtain ⟨above, ascending'⟩ := List.pairwise_cons.mp ascending
    rw [insertIn]
    split
    · rename_i below
      refine List.pairwise_cons.mpr ⟨fun entry member => ?_, ascending⟩
      rcases List.mem_cons.mp member with same | member
      · rw [same]
        exact below
      · exact below.trans (above entry member)
    · split
      · rename_i same
        exact List.pairwise_cons.mpr ⟨fun entry member => same ▸ above entry member, ascending'⟩
      · rename_i notBelow different
        refine List.pairwise_cons.mpr ⟨fun entry member => ?_, ih ascending'⟩
        rcases mem_insertIn member with same | member
        · rw [same]
          exact lt_of_le_of_ne (not_lt.mp notBelow) (Ne.symm different)
        · exact above entry member

theorem lookupIn_insertIn (key : κ) (value : ν) (other : κ) (entries : List (κ × ν)) :
    lookupIn other (insertIn key value entries) =
      if key = other then some value else lookupIn other entries := by
  induction entries with
  | nil => rfl
  | cons head rest ih =>
    obtain ⟨key', value'⟩ := head
    rw [insertIn]
    split
    · rfl
    · split
      · rename_i same
        subst same
        by_cases atKey : key = other <;> simp [lookupIn, atKey]
      · rename_i different
        rw [lookupIn, ih, lookupIn]
        by_cases atHead : key' = other
        · subst atHead
          rw [if_pos rfl, if_pos rfl, if_neg different]
        · rw [if_neg atHead, if_neg atHead]

theorem lookupIn_filter (keep : κ × ν → Bool) {entries : List (κ × ν)} (key : κ)
    (ascending : entries.Pairwise fun first second => first.1 < second.1) :
    lookupIn key (entries.filter keep) =
      (lookupIn key entries).filter fun value => keep (key, value) := by
  induction entries with
  | nil => rfl
  | cons head rest ih =>
    obtain ⟨key', value⟩ := head
    obtain ⟨above, ascending'⟩ := List.pairwise_cons.mp ascending
    by_cases same : key' = key
    · subst same
      have absent : lookupIn key' rest = none :=
        lookupIn_eq_none.mpr fun entry member => (above entry member).ne'
      by_cases kept : keep (key', value) = true
      · simp [List.filter_cons_of_pos kept, lookupIn, Option.filter, kept]
      · rw [List.filter_cons_of_neg (by simpa using kept), ih ascending', absent]
        simp [lookupIn, Option.filter, kept]
    · by_cases kept : keep (key', value) = true
      · rw [List.filter_cons_of_pos kept, lookupIn, if_neg same, ih ascending', lookupIn,
          if_neg same]
      · rw [List.filter_cons_of_neg (by simpa using kept), ih ascending', lookupIn, if_neg same]

/-! ### Maps -/

/-- The value of a key. -/
def find? (map : SortedMap κ ν) (key : κ) : Option ν := lookupIn key map.entries

/-- The map that holds nothing. -/
def empty : SortedMap κ ν := ⟨[], List.Pairwise.nil⟩

/-- Set the value of a key. -/
def insert (map : SortedMap κ ν) (key : κ) (value : ν) : SortedMap κ ν :=
  ⟨insertIn key value map.entries, insertIn_ascending map.ascending⟩

/-- Keep the entries that satisfy a test. -/
def filter (map : SortedMap κ ν) (keep : κ × ν → Bool) : SortedMap κ ν :=
  ⟨map.entries.filter keep, map.ascending.filter _⟩

/-- Remove a key. -/
def erase (map : SortedMap κ ν) (key : κ) : SortedMap κ ν := map.filter fun entry => entry.1 ≠ key

/-- The keys, in ascending order. -/
def keys (map : SortedMap κ ν) : List κ := map.entries.map Prod.fst

@[simp] theorem find?_empty (key : κ) : (empty : SortedMap κ ν).find? key = none := rfl

theorem find?_insert (map : SortedMap κ ν) (key : κ) (value : ν) (other : κ) :
    (map.insert key value).find? other = if key = other then some value else map.find? other :=
  lookupIn_insertIn key value other map.entries

@[simp] theorem find?_insert_self (map : SortedMap κ ν) (key : κ) (value : ν) :
    (map.insert key value).find? key = some value := by
  rw [find?_insert, if_pos rfl]

theorem find?_insert_ne (map : SortedMap κ ν) {key other : κ} (value : ν) (different : key ≠ other) :
    (map.insert key value).find? other = map.find? other := by
  rw [find?_insert, if_neg different]

theorem find?_filter (map : SortedMap κ ν) (keep : κ × ν → Bool) (key : κ) :
    (map.filter keep).find? key = (map.find? key).filter fun value => keep (key, value) :=
  lookupIn_filter keep key map.ascending

theorem find?_erase (map : SortedMap κ ν) (key other : κ) :
    (map.erase key).find? other = if key = other then none else map.find? other := by
  rw [erase, find?_filter]
  by_cases same : key = other
  · subst same
    cases map.find? key <;> simp [Option.filter]
  · rw [if_neg same]
    cases map.find? other with
    | none => rfl
    | some value => simp [Option.filter, Ne.symm same]

@[simp] theorem find?_erase_self (map : SortedMap κ ν) (key : κ) :
    (map.erase key).find? key = none := by
  rw [find?_erase, if_pos rfl]

theorem find?_erase_ne (map : SortedMap κ ν) {key other : κ} (different : key ≠ other) :
    (map.erase key).find? other = map.find? other := by
  rw [find?_erase, if_neg different]

theorem mem_entries_iff (map : SortedMap κ ν) (key : κ) (value : ν) :
    (key, value) ∈ map.entries ↔ map.find? key = some value :=
  ⟨lookupIn_of_mem map.ascending, mem_of_lookupIn⟩

theorem mem_keys_iff (map : SortedMap κ ν) (key : κ) : key ∈ map.keys ↔ map.find? key ≠ none := by
  rw [keys, List.mem_map]
  constructor
  · rintro ⟨⟨key', value⟩, member, rfl⟩
    rw [(map.mem_entries_iff key' value).mp member]
    exact nofun
  · intro found
    obtain ⟨value, here⟩ := Option.ne_none_iff_exists'.mp found
    exact ⟨(key, value), (map.mem_entries_iff key value).mpr here, rfl⟩

/-- The keys of a map are strictly ascending. -/
theorem keys_ascending (map : SortedMap κ ν) : map.keys.Pairwise (· < ·) :=
  List.pairwise_map.mpr map.ascending

/-- Two ascending lists with the same lookups are equal. -/
theorem entries_ext {first second : List (κ × ν)}
    (one : first.Pairwise fun a b => a.1 < b.1) (two : second.Pairwise fun a b => a.1 < b.1)
    (same : ∀ key, lookupIn key first = lookupIn key second) : first = second := by
  induction first generalizing second with
  | nil =>
    cases second with
    | nil => rfl
    | cons entry rest =>
      obtain ⟨key, value⟩ := entry
      have here := same key
      simp [lookupIn] at here
  | cons entry rest ih =>
    obtain ⟨key, value⟩ := entry
    obtain ⟨above, one'⟩ := List.pairwise_cons.mp one
    cases second with
    | nil =>
      have here := same key
      simp [lookupIn] at here
    | cons entry' rest' =>
      obtain ⟨key', value'⟩ := entry'
      obtain ⟨above', two'⟩ := List.pairwise_cons.mp two
      -- the smaller of the two heads is found on one side only, unless they are equal
      have heads : key = key' := by
        by_contra different
        rcases lt_or_gt_of_ne different with less | greater
        · have here := same key
          rw [lookupIn, if_pos rfl, lookupIn, if_neg (Ne.symm different)] at here
          have absent : lookupIn key rest' = none :=
            lookupIn_eq_none.mpr fun entry member => (less.trans (above' entry member)).ne'
          rw [absent] at here
          cases here
        · have here := same key'
          rw [lookupIn, if_neg different, lookupIn, if_pos rfl] at here
          have absent : lookupIn key' rest = none :=
            lookupIn_eq_none.mpr fun entry member => (lt_trans greater (above entry member)).ne'
          rw [absent] at here
          cases here
      subst heads
      have values := same key
      rw [lookupIn, if_pos rfl, lookupIn, if_pos rfl] at values
      cases values
      rw [ih one' two' fun other => ?_]
      by_cases atKey : key = other
      · subst atKey
        rw [lookupIn_eq_none.mpr fun entry member => (above entry member).ne',
          lookupIn_eq_none.mpr fun entry member => (above' entry member).ne']
      · have here := same other
        rwa [lookupIn, if_neg atKey, lookupIn, if_neg atKey] at here

/-- **A map is its lookups.** -/
theorem ext_find? {first second : SortedMap κ ν} (same : ∀ key, first.find? key = second.find? key) :
    first = second := by
  obtain ⟨entries, one⟩ := first
  obtain ⟨entries', two⟩ := second
  have equal : entries = entries' := entries_ext one two same
  subst equal
  rfl

/-! ### Totals -/

theorem sum_insertIn (weigh : κ × ν → Nat) {key : κ} {value : ν} {entries : List (κ × ν)}
    (ascending : entries.Pairwise fun first second => first.1 < second.1) :
    ((insertIn key value entries).map weigh).sum +
        ((lookupIn key entries).elim 0 fun old => weigh (key, old)) =
      (entries.map weigh).sum + weigh (key, value) := by
  induction entries with
  | nil => simp [insertIn, lookupIn]
  | cons entry rest ih =>
    obtain ⟨key', value'⟩ := entry
    obtain ⟨above, ascending⟩ := List.pairwise_cons.mp ascending
    rw [insertIn, lookupIn]
    rcases lt_trichotomy key key' with less | rfl | greater
    · -- every key of the list is above the new one
      have missing : lookupIn key rest = none :=
        lookupIn_eq_none.mpr fun entry member => (less.trans (above entry member)).ne'
      rw [if_pos less, if_neg less.ne', missing]
      simp only [List.map_cons, List.sum_cons, Option.elim_none]
      omega
    · rw [if_neg (lt_irrefl _), if_pos rfl, if_pos rfl]
      simp only [List.map_cons, List.sum_cons, Option.elim_some]
      omega
    · rw [if_neg greater.not_gt, if_neg greater.ne', if_neg greater.ne]
      have rest' := ih ascending
      simp only [List.map_cons, List.sum_cons]
      omega

/-- The sum of a weight over the entries. -/
def total (weigh : κ × ν → Nat) (map : SortedMap κ ν) : Nat := (map.entries.map weigh).sum

/-- **An insertion** adds the weight of the new entry and takes that of the key's old one. -/
theorem total_insert (weigh : κ × ν → Nat) (map : SortedMap κ ν) (key : κ) (value : ν) :
    (map.insert key value).total weigh + ((map.find? key).elim 0 fun old => weigh (key, old)) =
      map.total weigh + weigh (key, value) := sum_insertIn weigh map.ascending

theorem total_insert_le (weigh : κ × ν → Nat) (map : SortedMap κ ν) (key : κ) (value : ν) :
    (map.insert key value).total weigh ≤ map.total weigh + weigh (key, value) :=
  (map.total_insert weigh key value) ▸ Nat.le_add_right _ _

theorem total_filter_le (weigh : κ × ν → Nat) (map : SortedMap κ ν) (keep : κ × ν → Bool) :
    (map.filter keep).total weigh ≤ map.total weigh := by
  show ((map.entries.filter keep).map weigh).sum ≤ (map.entries.map weigh).sum
  induction map.entries with
  | nil => exact Nat.le_refl _
  | cons entry rest ih =>
    rw [List.filter_cons, List.map_cons, List.sum_cons]
    split
    · rw [List.map_cons, List.sum_cons]
      exact Nat.add_le_add_left ih _
    · exact ih.trans (Nat.le_add_left _ _)

theorem find?_eq_none_of_entries_nil {map : SortedMap κ ν} (nil : map.entries = []) (key : κ) :
    map.find? key = none := by
  unfold find?
  rw [nil]
  rfl

end SortedMap

/-! ### Stacks of maps -/

section Newest

variable {κ ν : Type}

/-- The first layer that holds the key answers. -/
def newestOf (layers : List (κ → Option ν)) (key : κ) : Option ν := layers.findSome? fun layer => layer key

@[simp] theorem newestOf_nil (key : κ) : newestOf ([] : List (κ → Option ν)) key = none := rfl

theorem newestOf_cons (layer : κ → Option ν) (layers : List (κ → Option ν)) (key : κ) :
    newestOf (layer :: layers) key = (layer key).or (newestOf layers key) := by
  unfold newestOf
  rw [List.findSome?_cons]
  cases layer key <;> rfl

end Newest

namespace SortedMap

variable {κ ν : Type} [LinearOrder κ]

/-- Looking through the entries of a stack of maps, one map behind the other. -/
theorem lookupIn_flatMap (layers : List (SortedMap κ ν)) (key : κ) :
    lookupIn key (layers.flatMap entries) = newestOf (layers.map find?) key := by
  induction layers with
  | nil => rfl
  | cons first rest ih =>
    rw [List.flatMap_cons, lookupIn_append, ih, List.map_cons, newestOf_cons]
    rfl

/-! ### Unions -/

/-- The entries of a map over those of an older one. -/
def overlay (new old : SortedMap κ ν) : SortedMap κ ν :=
  new.entries.foldl (fun map entry => map.insert entry.1 entry.2) old

theorem find?_foldl_insert {entries : List (κ × ν)}
    (ascending : entries.Pairwise fun first second => first.1 < second.1) (old : SortedMap κ ν)
    (key : κ) :
    (entries.foldl (fun map entry => map.insert entry.1 entry.2) old).find? key =
      (lookupIn key entries).or (old.find? key) := by
  induction entries generalizing old with
  | nil => rfl
  | cons first rest ih =>
    obtain ⟨above, ascending⟩ := List.pairwise_cons.mp ascending
    rw [List.foldl_cons, ih ascending, find?_insert]
    simp only [lookupIn]
    split
    · rename_i same
      have absent : lookupIn key rest = none := by
        rw [lookupIn_eq_none]
        exact fun entry member => same ▸ (above entry member).ne'
      rw [absent]
      rfl
    · rfl

theorem find?_overlay (new old : SortedMap κ ν) (key : κ) :
    (overlay new old).find? key = (new.find? key).or (old.find? key) :=
  find?_foldl_insert new.ascending old key

/-- The newest-wins union of a stack of maps, newest first. -/
def union (layers : List (SortedMap κ ν)) : SortedMap κ ν := layers.foldr overlay empty

theorem find?_union (layers : List (SortedMap κ ν)) (key : κ) :
    (union layers).find? key = newestOf (layers.map find?) key := by
  induction layers with
  | nil => rfl
  | cons first rest ih => rw [List.map_cons, newestOf_cons, ← ih]; exact find?_overlay first _ key

theorem total_foldl_insert_le (weigh : κ × ν → Nat) (entries : List (κ × ν)) (old : SortedMap κ ν) :
    (entries.foldl (fun map entry => map.insert entry.1 entry.2) old).total weigh ≤
      (entries.map weigh).sum + old.total weigh := by
  induction entries generalizing old with
  | nil => exact Nat.le_add_left _ _
  | cons first rest ih =>
    have added : (old.insert first.1 first.2).total weigh ≤ old.total weigh + weigh first :=
      old.total_insert_le weigh first.1 first.2
    have rest := ih (old.insert first.1 first.2)
    rw [List.foldl_cons, List.map_cons, List.sum_cons]
    omega

/-- **A union weighs no more** than its layers. -/
theorem total_union_le (weigh : κ × ν → Nat) (layers : List (SortedMap κ ν)) :
    (union layers).total weigh ≤ (layers.map (total weigh)).sum := by
  induction layers with
  | nil => exact Nat.le_refl _
  | cons first rest ih =>
    rw [List.map_cons, List.sum_cons]
    exact (total_foldl_insert_le weigh first.entries (union rest)).trans (Nat.add_le_add_left ih _)

end SortedMap

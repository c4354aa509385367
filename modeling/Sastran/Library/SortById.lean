/-
Lists of items with numeric ids, sorted by id.

With distinct ids the sorted list depends on the members alone (`sortById_eq`), and strictly ascends
(`sortById_ascending`). `IsNext` says which id comes after those in use.
-/

import Mathlib.Data.List.Sort
import Sastran.Library.SortedMap

variable {α β : Type}

/-- Ascending by id; equal ids keep their order. -/
def sortById (items : List (Nat × α)) : List (Nat × α) :=
  items.insertionSort fun first second => first.1 ≤ second.1

/-- No two items have the same id. -/
def DistinctIds (items : List (Nat × α)) : Prop := items.Pairwise fun first second => first.1 ≠ second.1

theorem mem_sortById {items : List (Nat × α)} {item : Nat × α} :
    item ∈ sortById items ↔ item ∈ items := List.mem_insertionSort _

theorem length_sortById (items : List (Nat × α)) : (sortById items).length = items.length :=
  List.length_insertionSort _ _

theorem DistinctIds.filter {items : List (Nat × α)} (distinct : DistinctIds items)
    (keep : Nat × α → Bool) : DistinctIds (items.filter keep) := List.Pairwise.filter keep distinct

theorem DistinctIds.map {items : List (Nat × α)} (distinct : DistinctIds items) (f : Nat × α → β) :
    DistinctIds (items.map fun item => (item.1, f item)) := List.pairwise_map.mpr distinct

theorem DistinctIds.eq {items : List (Nat × α)} (distinct : DistinctIds items) {id : Nat} {one two : α}
    (here : (id, one) ∈ items) (there : (id, two) ∈ items) : one = two := by
  induction items with
  | nil => cases here
  | cons first rest ih =>
    obtain ⟨away, distinct⟩ := List.pairwise_cons.mp distinct
    rcases List.mem_cons.mp here with same | inside <;> rcases List.mem_cons.mp there with same' | inside'
    · rw [← same] at same'
      exact (Prod.mk.inj same').2.symm
    · exact absurd (by rw [← same]) (away _ inside')
    · exact absurd (by rw [← same']) (away _ inside)
    · exact ih distinct inside inside'

theorem sortById_ascending {items : List (Nat × α)} (distinct : DistinctIds items) :
    (sortById items).Pairwise fun first second => first.1 < second.1 := by
  have total : Std.Total fun first second : Nat × α => first.1 ≤ second.1 :=
    ⟨fun first second => Nat.le_total first.1 second.1⟩
  have trans : IsTrans (Nat × α) fun first second => first.1 ≤ second.1 :=
    ⟨fun _ _ _ => Nat.le_trans⟩
  have sorted := List.pairwise_insertionSort (fun first second : Nat × α => first.1 ≤ second.1) items
  have different : (sortById items).Pairwise fun first second => first.1 ≠ second.1 :=
    (List.perm_insertionSort _ items).symm.pairwise distinct fun away => Ne.symm away
  exact (sorted.and different).imp fun both => lt_of_le_of_ne both.1 both.2

/-- The last item is the one with the highest id. -/
theorem last_max {items : List (Nat × α)} (distinct : DistinctIds items) {item other : Nat × α}
    (found : (sortById items).getLast? = some item) (member : other ∈ items) :
    other = item ∨ other.1 < item.1 := by
  have ascending := sortById_ascending distinct
  have whole : sortById items = (sortById items).dropLast ++ [item] :=
    (List.dropLast_append_getLast? item (by simpa using found)).symm
  have member' := mem_sortById.mpr member
  rw [whole] at ascending member'
  rcases List.mem_append.mp member' with member' | member'
  · exact Or.inr ((List.pairwise_append.mp ascending).2.2 _ member' _ (List.mem_singleton_self _))
  · exact Or.inl (List.mem_singleton.mp member')

/-- It is the last one of every part it is in. -/
theorem last_of_subset {items part : List (Nat × α)} (distinct : DistinctIds items)
    (distinct' : DistinctIds part) (inside : ∀ item ∈ part, item ∈ items) {item : Nat × α}
    (found : (sortById items).getLast? = some item) (here : item ∈ part) :
    (sortById part).getLast? = some item := by
  cases found' : (sortById part).getLast? with
  | none =>
    rw [List.getLast?_eq_none_iff, ← List.length_eq_zero_iff, length_sortById,
      List.length_eq_zero_iff] at found'
    rw [found'] at here
    cases here
  | some other =>
    have listed : other ∈ part := mem_sortById.mp (List.mem_of_getLast? found')
    rcases last_max distinct' found' here with same | less
    · rw [same]
    · rcases last_max distinct found (inside other listed) with same | less'
      · rw [same]
      · exact absurd less (lt_asymm less')

/-- Strictly ascending lists with the same members are equal. -/
theorem ascending_ext {first second : List (Nat × α)}
    (one : first.Pairwise fun a b => a.1 < b.1) (two : second.Pairwise fun a b => a.1 < b.1)
    (same : ∀ item, item ∈ first ↔ item ∈ second) : first = second := by
  refine SortedMap.entries_ext one two fun key => ?_
  cases found : SortedMap.lookupIn key first with
  | none =>
    symm
    rw [SortedMap.lookupIn_eq_none] at found ⊢
    exact fun entry member => found entry ((same entry).mpr member)
  | some value =>
    exact (SortedMap.lookupIn_of_mem two ((same _).mp (SortedMap.mem_of_lookupIn found))).symm

/-- **The sorted list is known from the members.** -/
theorem sortById_eq {items : List (Nat × α)} (distinct : DistinctIds items) {sorted : List (Nat × α)}
    (ascending : sorted.Pairwise fun a b => a.1 < b.1) (same : ∀ item, item ∈ items ↔ item ∈ sorted) :
    sortById items = sorted :=
  ascending_ext (sortById_ascending distinct) ascending fun item => mem_sortById.trans (same item)

/-- Sorting does not look at what the ids stand for. -/
theorem sortById_map (items : List (Nat × α)) (f : Nat × α → β) :
    sortById (items.map fun item => (item.1, f item)) =
      (sortById items).map fun item => (item.1, f item) :=
  (List.map_insertionSort (fun first second : Nat × α => first.1 ≤ second.1)
    (fun first second : Nat × β => first.1 ≤ second.1) _ items fun _ _ _ _ => Iff.rfl).symm

/-- A descending list, sorted. -/
theorem sortById_descending {items : List (Nat × α)}
    (descending : items.Pairwise fun a b => b.1 < a.1) : sortById items = items.reverse := by
  refine sortById_eq (descending.imp fun above => above.ne') ?_ fun item => List.mem_reverse.symm
  exact List.pairwise_reverse.mpr descending

/-! ### The next id -/

/-- The least id above all of those in use. -/
def IsNext (ids : List Nat) (next : Nat) : Prop :=
  (∀ id ∈ ids, id < next) ∧ (next = 0 ∨ ∃ id ∈ ids, next = id + 1)

theorem IsNext.unique {ids : List Nat} {next next' : Nat} (one : IsNext ids next)
    (two : IsNext ids next') : next = next' := by
  obtain ⟨above, reached⟩ := one
  obtain ⟨above', reached'⟩ := two
  have le : next ≤ next' := by
    rcases reached with rfl | ⟨id, member, rfl⟩
    · exact Nat.zero_le _
    · exact above' id member
  have ge : next' ≤ next := by
    rcases reached' with rfl | ⟨id, member, rfl⟩
    · exact Nat.zero_le _
    · exact above id member
  exact le_antisymm le ge

/-- The highest id so far. -/
def topId (top : Option Nat) (id : Nat) : Option Nat :=
  some (match top with
    | none => id
    | some m => max m id)

/-- The id after the highest one. -/
def nextOf : Option Nat → Nat
  | none => 0
  | some m => m + 1

theorem isNext_topId {ids : List Nat} {top : Option Nat} (next : IsNext ids (nextOf top)) (id : Nat) :
    IsNext (ids ++ [id]) (nextOf (topId top id)) := by
  obtain ⟨above, reached⟩ := next
  constructor
  · intro other member
    rcases List.mem_append.mp member with member | member
    · have := above other member
      cases top with
      | none => simp [nextOf] at this
      | some m =>
        simp only [nextOf, topId] at this ⊢
        omega
    · rw [List.mem_singleton.mp member]
      cases top with
      | none => exact Nat.lt_succ_self _
      | some m =>
        simp only [nextOf, topId]
        omega
  · right
    cases top with
    | none => exact ⟨id, by simp, rfl⟩
    | some m =>
      rcases le_total m id with below | below
      · exact ⟨id, by simp, by simp [nextOf, topId, below]⟩
      · obtain zero | ⟨other, member, same⟩ := reached
        · cases zero
        · refine ⟨other, by simp [member], ?_⟩
          simp only [nextOf] at same ⊢
          rw [topId, max_eq_left below]
          exact same

theorem isNext_foldl (ids : List Nat) : IsNext ids (nextOf (ids.foldl topId none)) := by
  have step : ∀ (rest front : List Nat) (top : Option Nat), IsNext front (nextOf top) →
      IsNext (front ++ rest) (nextOf (rest.foldl topId top)) := by
    intro rest
    induction rest with
    | nil =>
      intro front top next
      rw [List.append_nil]
      exact next
    | cons first rest ih =>
      intro front top next
      rw [List.foldl_cons, ← List.singleton_append, ← List.append_assoc]
      exact ih _ _ (isNext_topId next first)
  exact step ids [] none ⟨nofun, Or.inl rfl⟩

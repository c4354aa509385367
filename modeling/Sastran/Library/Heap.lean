/-
A priority queue as the list of its elements.

`popMax` removes an element none of the others exceeds. Which of several maximal elements it is, and
the order of the rest, is that of the list; a binary heap leaves both open.
-/

import Mathlib.Data.List.Perm.Basic

namespace Heap

variable {α : Type}

/-- A maximal element and the rest, the first one where several are maximal. -/
def popMax (below : α → α → Bool) : List α → Option (α × List α)
  | [] => none
  | first :: heap =>
    match popMax below heap with
    | none => some (first, [])
    | some (best, rest) =>
      if below first best then some (best, first :: rest) else some (first, heap)

/-- The element `popMax` would remove. -/
def peek (below : α → α → Bool) (heap : List α) : Option α := (popMax below heap).map Prod.fst

variable {below : α → α → Bool} {heap : List α}

@[simp] theorem popMax_nil : popMax below ([] : List α) = none := rfl

theorem popMax_eq_none : popMax below heap = none ↔ heap = [] := by
  cases heap with
  | nil => simp
  | cons first heap =>
    simp only [popMax]
    cases popMax below heap with
    | none => simp
    | some result =>
      obtain ⟨best, rest⟩ := result
      simp only
      split <;> simp

/-- **Removal takes one element and keeps the others.** -/
theorem popMax_perm {best : α} {rest : List α} (popped : popMax below heap = some (best, rest)) :
    heap.Perm (best :: rest) := by
  induction heap generalizing best rest with
  | nil => cases popped
  | cons first heap ih =>
    simp only [popMax] at popped
    cases found : popMax below heap with
    | none =>
      rw [found] at popped
      cases popped
      rw [popMax_eq_none.mp found]
    | some result =>
      obtain ⟨best', rest'⟩ := result
      rw [found] at popped
      simp only at popped
      split at popped <;> cases popped
      · exact ((ih found).cons first).trans (List.Perm.swap best first rest')
      · exact List.Perm.refl _

theorem popMax_mem {best : α} {rest : List α} (popped : popMax below heap = some (best, rest)) :
    best ∈ heap :=
  (popMax_perm popped).mem_iff.mpr (List.mem_cons_self ..)

theorem popMax_rest_mem {best : α} {rest : List α} (popped : popMax below heap = some (best, rest))
    {other : α} (member : other ∈ rest) : other ∈ heap :=
  (popMax_perm popped).mem_iff.mpr (List.mem_cons_of_mem _ member)

theorem popMax_length {best : α} {rest : List α} (popped : popMax below heap = some (best, rest)) :
    heap.length = rest.length + 1 :=
  (popMax_perm popped).length_eq

theorem peek_eq_some {top : α} : peek below heap = some top ↔
    ∃ rest, popMax below heap = some (top, rest) := by
  simp [peek, Option.map_eq_some_iff]

theorem peek_eq_none : peek below heap = none ↔ heap = [] := by
  rw [peek, Option.map_eq_none_iff, popMax_eq_none]

/-- A strict order whose incomparability is transitive, as a Boolean test. -/
structure StrictWeak (below : α → α → Bool) : Prop where
  asymm : ∀ one two, below one two = true → below two one = false
  trans : ∀ one two three, below one two = false → below two three = false →
    below one three = false

theorem StrictWeak.irrefl (order : StrictWeak below) (one : α) : below one one = false := by
  by_contra reflexive
  exact reflexive (order.asymm one one (by simpa using reflexive))

/-- **What is removed is maximal.** -/
theorem popMax_max (order : StrictWeak below) {best : α} {rest : List α}
    (popped : popMax below heap = some (best, rest)) :
    ∀ other ∈ heap, below best other = false := by
  induction heap generalizing best rest with
  | nil => cases popped
  | cons first heap ih =>
    simp only [popMax] at popped
    cases found : popMax below heap with
    | none =>
      rw [found] at popped
      cases popped
      rw [popMax_eq_none.mp found]
      intro other member
      rw [List.mem_singleton.mp member]
      exact order.irrefl _
    | some result =>
      obtain ⟨best', rest'⟩ := result
      have maximal := ih found
      rw [found] at popped
      simp only at popped
      split at popped <;> rename_i compared <;> cases popped <;> intro other member
      · rcases List.mem_cons.mp member with rfl | member
        · exact order.asymm _ _ compared
        · exact maximal other member
      · rcases List.mem_cons.mp member with rfl | member
        · exact order.irrefl _
        · exact order.trans _ _ _ (by simpa using compared) (maximal other member)

end Heap

/-
Folds, maps and filters whose steps may fail, as functions to `Option`.

Each rule says that the whole goes through when every step does: `foldlM_some` carries an invariant
indexed by the elements left (`foldlM_rule` where it is known to, `foldlM_ok` for steps that say why
they fail), `mapM_some` and `filterM_some` say what the results are.
-/

import Mathlib.Data.List.Basic

namespace Partial

variable {α β : Type}

/-- **The rule of `foldlM`**: an invariant indexed by what is left of the list. -/
theorem foldlM_some {step : α → β → Option α} (inv : List β → α → Prop)
    (round : ∀ first rest value, inv (first :: rest) value →
      ∃ next, step value first = some next ∧ inv rest next) :
    ∀ (items : List β) (value : α), inv items value →
      ∃ result, items.foldlM step value = some result ∧ inv [] result := by
  intro items
  induction items with
  | nil => exact fun value start => ⟨value, rfl, start⟩
  | cons first rest ih =>
    intro value start
    obtain ⟨next, stepped, holds⟩ := round first rest value start
    obtain ⟨result, run, reached⟩ := ih next holds
    exact ⟨result, by rw [List.foldlM_cons, stepped]; exact run, reached⟩

/-- The rule for a fold that went through. -/
theorem foldlM_rule {step : α → β → Option α} (inv : List β → α → Prop)
    (round : ∀ first rest value next, inv (first :: rest) value → step value first = some next →
      inv rest next) :
    ∀ (items : List β) (value result : α), inv items value → items.foldlM step value = some result →
      inv [] result := by
  intro items
  induction items with
  | nil =>
    intro value result start run
    cases run
    exact start
  | cons first rest ih =>
    intro value result start run
    rw [List.foldlM_cons, Option.bind_eq_bind, Option.bind_eq_some_iff] at run
    obtain ⟨next, stepped, run⟩ := run
    exact ih next result (round first rest value next start stepped) run

/-- The rule for a fold with errors that went through. -/
theorem foldlM_ok {ε : Type} {step : α → β → Except ε α} (inv : List β → α → Prop)
    (round : ∀ first rest value next, inv (first :: rest) value → step value first = .ok next →
      inv rest next) :
    ∀ (items : List β) (value result : α), inv items value → items.foldlM step value = .ok result →
      inv [] result := by
  intro items
  induction items with
  | nil =>
    intro value result start run
    cases run
    exact start
  | cons first rest ih =>
    intro value result start run
    rw [List.foldlM_cons] at run
    cases stepped : step value first with
    | error error =>
      rw [stepped] at run
      cases run
    | ok next =>
      rw [stepped] at run
      exact ih next result (round first rest value next start stepped) run

/-- The rule for a fold, with the elements it has been over and those that are to come. -/
theorem foldlM_split {step : α → β → Option α} (inv : List β → List β → α → Prop) {items : List β}
    (round : ∀ done first rest value next, items = done ++ first :: rest → inv done (first :: rest) value →
      step value first = some next → inv (done ++ [first]) rest next)
    {value result : α} (start : inv [] items value) (run : items.foldlM step value = some result) :
    inv items [] result := by
  obtain ⟨done, whole, holds⟩ := foldlM_rule
    (fun rest value => ∃ done, done ++ rest = items ∧ inv done rest value)
    (fun first rest value next before stepped => by
      obtain ⟨done, whole, holds⟩ := before
      exact ⟨done ++ [first], by rw [← whole, List.append_assoc]; rfl,
        round done first rest value next whole.symm holds stepped⟩)
    items value result ⟨[], rfl, start⟩ run
  rw [List.append_nil] at whole
  exact whole ▸ holds

/-- What every step keeps, a fold keeps. -/
theorem foldlM_keeps {γ : Type} {step : α → β → Option α} (view : α → γ)
    (each : ∀ value item next, step value item = some next → view next = view value) :
    ∀ (items : List β) (value : α) {result : α}, items.foldlM step value = some result →
      view result = view value := by
  intro items
  induction items with
  | nil =>
    intro value result run
    cases run
    rfl
  | cons first rest ih =>
    intro value result run
    rw [List.foldlM_cons] at run
    obtain ⟨next, stepped, tail⟩ := Option.bind_eq_some_iff.mp run
    exact (ih next tail).trans (each value first next stepped)

/-- The results of a map are those of its elements. -/
theorem mapM_some {step : α → Option β} {items : List α}
    (each : ∀ item ∈ items, ∃ result, step item = some result) :
    ∃ results, items.mapM step = some results ∧ results.map some = items.map step := by
  induction items with
  | nil => exact ⟨[], rfl, rfl⟩
  | cons first rest ih =>
    obtain ⟨result, stepped⟩ := each first (List.mem_cons_self ..)
    obtain ⟨results, run, all⟩ := ih fun item member => each item (List.mem_cons_of_mem _ member)
    exact ⟨result :: results, by rw [List.mapM_cons, stepped]; simp [run], by simp [stepped, all]⟩

theorem mem_of_mapM_some {step : α → Option β} {items : List α} {results : List β}
    (all : results.map some = items.map step) {result : β} (member : result ∈ results) :
    ∃ item ∈ items, step item = some result := by
  have member' : some result ∈ items.map step := all ▸ List.mem_map_of_mem member
  exact List.mem_map.mp member'

theorem filterAuxM_some {test : α → Option Bool} {items : List α}
    (each : ∀ item ∈ items, ∃ result, test item = some result) (kept : List α) :
    items.filterAuxM test kept =
      some ((items.filter fun item => test item == some true).reverse ++ kept) := by
  induction items generalizing kept with
  | nil => rfl
  | cons first rest ih =>
    obtain ⟨result, tested⟩ := each first (List.mem_cons_self ..)
    have go := ih fun item member => each item (List.mem_cons_of_mem _ member)
    cases result with
    | true => simp [List.filterAuxM, tested, go]
    | false => simp [List.filterAuxM, tested, go]

/-- A filter whose tests all end keeps the elements that pass. -/
theorem filterM_some {test : α → Option Bool} {items : List α}
    (each : ∀ item ∈ items, ∃ result, test item = some result) :
    items.filterM test = some (items.filter fun item => test item == some true) := by
  simp [List.filterM, filterAuxM_some each]

end Partial

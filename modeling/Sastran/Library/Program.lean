/-
Programs over a device: a state, errors that keep the state, crash points, injected failures.

* `Prog ε σ α` - a program that reads and changes a state `σ` and ends with a value, with an error
  (the state reached so far is kept), or never returns (`stuck`: a panic or an endless loop).
* `World φ` - a device `φ` together with every state it went through, one for each call made on it.
  A crash between two calls leaves the device in one of these states, so the crash points of a run
  are the entries its world gained.
* `call` - one call on the device: it takes full effect, or it fails and has none.
* `Ensures`, `Succeeds` - what a run that returns has done, and that a run returns; each with its
  rules for `bind` and the loops. `Ends` allows for errors of one kind, and `Leads` and `Respects` are
  about every way to end.
* `Passes C` - the calls between two worlds left the device in states of `C` only; `Quiet` - they
  only read; `Visits P` - some call left it in a state of `P`.
-/

import Mathlib.Data.List.Basic

namespace Device

/-- How a run ends. -/
inductive Outcome (ε σ α : Type) where
  | ok (value : α) (state : σ)
  | err (error : ε) (state : σ)
  | stuck

/-- How a run ended, without the state it left. -/
def Outcome.result {ε σ α : Type} : Outcome ε σ α → Option (Except ε α)
  | .ok value _ => some (.ok value)
  | .err error _ => some (.error error)
  | .stuck => none

/-- The state a run that returned left. -/
def Outcome.left {ε σ α : Type} : Outcome ε σ α → Option σ
  | .ok _ state => some state
  | .err _ _ => none
  | .stuck => none

theorem Outcome.left_eq_some {ε σ α : Type} {outcome : Outcome ε σ α} {state : σ} :
    outcome.left = some state ↔ ∃ value, outcome = .ok value state := by
  cases outcome <;> simp [left, eq_comm]

/-- A program over the state `σ` with errors `ε`. -/
def Prog (ε σ α : Type) : Type := σ → Outcome ε σ α

namespace Prog

variable {ε σ τ α β : Type}

instance : Monad (Prog ε σ) where
  pure value := fun state => .ok value state
  bind first next := fun state =>
    match first state with
    | .ok value after => next value after
    | .err error after => .err error after
    | .stuck => .stuck

/-- End with an error, keeping the state. -/
def throw (error : ε) : Prog ε σ α := fun state => .err error state

/-- Never return. -/
def stop : Prog ε σ α := fun _ => .stuck

/-- The current state. -/
def get : Prog ε σ σ := fun state => .ok state state

/-- Replace the state. -/
def set (state : σ) : Prog ε σ Unit := fun _ => .ok () state

/-- Change the state. -/
def modify (change : σ → σ) : Prog ε σ Unit := fun state => .ok () (change state)

/-- The result of a pure computation that may fail. -/
def ofExcept : Except ε α → Prog ε σ α
  | .ok value => pure value
  | .error error => throw error

/-- The result of a pure computation that may never return. -/
def ofOption : Option α → Prog ε σ α
  | some value => pure value
  | none => stop

/-- Run a program and hand its error over as a value. -/
def attempt (program : Prog ε σ α) : Prog ε σ (Except ε α) := fun state =>
  match program state with
  | .ok value after => .ok (.ok value) after
  | .err error after => .ok (.error error) after
  | .stuck => .stuck

/-- Run a program over a part of the state. -/
def zoom (part : σ → τ) (put : τ → σ → σ) (program : Prog ε τ α) : Prog ε σ α := fun state =>
  match program (part state) with
  | .ok value after => .ok value (put after state)
  | .err error after => .err error (put after state)
  | .stuck => .stuck

/-- Run a program for every element of a list, in order. -/
def forEach (body : β → Prog ε σ Unit) : List β → Prog ε σ Unit
  | [] => pure ()
  | first :: rest => do
    body first
    forEach body rest

/-- Thread a value through a program for every element of a list, in order. -/
def foldM (body : α → β → Prog ε σ α) : α → List β → Prog ε σ α
  | value, [] => pure value
  | value, first :: rest => do
    let next ← body value first
    foldM body next rest

/-- Collect the results of a program for every element of a list, in order. -/
def mapM (body : β → Prog ε σ α) : List β → Prog ε σ (List α)
  | [] => pure []
  | first :: rest => do
    let value ← body first
    let values ← mapM body rest
    pure (value :: values)

/-- A loop of at most `fuel` rounds: a round ends the loop with `inr` or goes on with `inl`. A loop
that has not ended by then never returns. -/
def loop (body : β → Prog ε σ (β ⊕ α)) : Nat → β → Prog ε σ α
  | 0, _ => stop
  | fuel + 1, value => do
    match ← body value with
    | .inl next => loop body fuel next
    | .inr result => pure result

end Prog

/-! ### What a run that returns has done -/

section Ensures

variable {ε σ τ α β : Type}

/-- If the program returns a value, `post` holds of it and of the state it leaves. -/
def Ensures (program : Prog ε σ α) (state : σ) (post : α → σ → Prop) : Prop :=
  ∀ value after, program state = .ok value after → post value after

/-- The program returns a value, and `post` holds of it and of the state it leaves. -/
def Succeeds (program : Prog ε σ α) (state : σ) (post : α → σ → Prop) : Prop :=
  ∃ value after, program state = .ok value after ∧ post value after

theorem bind_eq (first : Prog ε σ α) (next : α → Prog ε σ β) (state : σ) :
    (first >>= next) state =
      match first state with
      | .ok value after => next value after
      | .err error after => .err error after
      | .stuck => .stuck := rfl

theorem bind_ok {first : Prog ε σ α} {state after : σ} {value : α}
    (run : first state = .ok value after) (next : α → Prog ε σ β) :
    (first >>= next) state = next value after := by
  rw [bind_eq, run]

theorem bind_err {first : Prog ε σ α} {state after : σ} {error : ε}
    (run : first state = .err error after) (next : α → Prog ε σ β) :
    (first >>= next) state = .err error after := by
  rw [bind_eq, run]

theorem zoom_ok {part : σ → τ} {put : τ → σ → σ} {program : Prog ε τ α} {state : σ} {value : α} {after : τ}
    (run : program (part state) = .ok value after) :
    Prog.zoom part put program state = .ok value (put after state) := by
  rw [Prog.zoom, run]

theorem zoom_err {part : σ → τ} {put : τ → σ → σ} {program : Prog ε τ α} {state : σ} {error : ε} {after : τ}
    (run : program (part state) = .err error after) :
    Prog.zoom part put program state = .err error (put after state) := by
  rw [Prog.zoom, run]

theorem bind_stuck {first : Prog ε σ α} {state : σ} (run : first state = .stuck)
    (next : α → Prog ε σ β) : (first >>= next) state = .stuck := by
  rw [bind_eq, run]

/-- Sequencing is associative. -/
theorem bind_assoc' {γ : Type} (first : Prog ε σ α) (second : α → Prog ε σ β)
    (third : β → Prog ε σ γ) :
    first >>= second >>= third = first >>= fun value => second value >>= third := by
  funext state
  rw [bind_eq, bind_eq, bind_eq]
  cases first state <;> rfl

/-- A program chosen before it runs. -/
theorem ite_run (condition : Prop) [Decidable condition] (yes no : Prog ε σ α) (state : σ) :
    (if condition then yes else no : Prog ε σ α) state =
      if condition then yes state else no state := by
  split <;> rfl

theorem ofExcept_eq_ok {result : Except ε α} {value : α} {state after : σ} :
    Prog.ofExcept result state = .ok value after ↔ result = .ok value ∧ after = state := by
  cases result with
  | error error => exact ⟨fun run => (by cases run), fun both => (by cases both.1)⟩
  | ok value' =>
    refine ⟨fun run => ?_, fun both => ?_⟩
    · cases run
      exact ⟨rfl, rfl⟩
    · obtain ⟨same, rfl⟩ := both
      cases same
      rfl

theorem ofOption_eq_ok {result : Option α} {value : α} {state after : σ} :
    (Prog.ofOption result : Prog ε σ α) state = .ok value after ↔ result = some value ∧ after = state := by
  cases result with
  | none => exact ⟨fun run => (by cases run), fun both => (by cases both.1)⟩
  | some value' =>
    refine ⟨fun run => ?_, fun both => ?_⟩
    · cases run
      exact ⟨rfl, rfl⟩
    · obtain ⟨same, rfl⟩ := both
      cases same
      rfl

/-- **A sequence that returns**: its first part returned, and its second part from there. -/
theorem bind_eq_ok {first : Prog ε σ α} {next : α → Prog ε σ β} {state after : σ} {result : β} :
    (first >>= next) state = .ok result after ↔
      ∃ value middle, first state = .ok value middle ∧ next value middle = .ok result after := by
  rw [bind_eq]
  constructor
  · intro run
    cases ran : first state with
    | ok value middle =>
      rw [ran] at run
      exact ⟨value, middle, rfl, run⟩
    | err error middle => rw [ran] at run; cases run
    | stuck => rw [ran] at run; cases run
  · rintro ⟨value, middle, ran, run⟩
    rw [ran]
    exact run

@[simp] theorem pure_eq (value : α) (state : σ) :
    (pure value : Prog ε σ α) state = .ok value state := rfl

@[simp] theorem throw_eq (error : ε) (state : σ) :
    (Prog.throw error : Prog ε σ α) state = .err error state := rfl

@[simp] theorem get_eq (state : σ) : (Prog.get : Prog ε σ σ) state = .ok state state := rfl

@[simp] theorem set_eq (put state : σ) :
    (Prog.set put : Prog ε σ Unit) state = .ok () put := rfl

@[simp] theorem modify_eq (change : σ → σ) (state : σ) :
    (Prog.modify change : Prog ε σ Unit) state = .ok () (change state) := rfl

@[simp] theorem stop_eq (state : σ) : (Prog.stop : Prog ε σ α) state = .stuck := rfl

theorem Ensures.mono {program : Prog ε σ α} {state : σ} {post post' : α → σ → Prop}
    (holds : Ensures program state post) (weaker : ∀ value after, post value after → post' value after) :
    Ensures program state post' :=
  fun value after run => weaker value after (holds value after run)

/-- The postcondition may use the run itself. -/
theorem Ensures.itself (program : Prog ε σ α) (state : σ) :
    Ensures program state fun value after => program state = .ok value after :=
  fun _ _ run => run

theorem Ensures.and {program : Prog ε σ α} {state : σ} {post post' : α → σ → Prop}
    (one : Ensures program state post) (two : Ensures program state post') :
    Ensures program state fun value after => post value after ∧ post' value after :=
  fun value after run => ⟨one value after run, two value after run⟩

theorem Ensures.pure {value : α} {state : σ} {post : α → σ → Prop} (holds : post value state) :
    Ensures (Pure.pure value : Prog ε σ α) state post := by
  intro value' after run
  cases run
  exact holds

theorem Ensures.throw {error : ε} {state : σ} {post : α → σ → Prop} :
    Ensures (Prog.throw error) state post := by
  intro value after run
  cases run

theorem Ensures.stop {state : σ} {post : α → σ → Prop} :
    Ensures (Prog.stop : Prog ε σ α) state post := by
  intro value after run
  cases run

theorem Ensures.bind {first : Prog ε σ α} {next : α → Prog ε σ β} {state : σ}
    {post : β → σ → Prop}
    (holds : Ensures first state fun value middle => Ensures (next value) middle post) :
    Ensures (first >>= next) state post := by
  intro result after run
  obtain ⟨value, middle, ran, rest⟩ := bind_eq_ok.mp run
  exact holds value middle ran result after rest

theorem Ensures.bind_ok {first : Prog ε σ α} {next : α → Prog ε σ β} {state middle : σ} {value : α}
    {post : β → σ → Prop} (run : first state = .ok value middle)
    (holds : Ensures (next value) middle post) : Ensures (first >>= next) state post := by
  rw [Ensures, Device.bind_ok run]
  exact holds

/-- What ensures the rest of a sequence wherever it starts ensures the sequence. -/
theorem Ensures.bind_any {first : Prog ε σ α} {next : α → Prog ε σ β} {state : σ}
    {post : β → σ → Prop} (holds : ∀ value middle, Ensures (next value) middle post) :
    Ensures (first >>= next) state post :=
  Ensures.bind fun value middle _ => holds value middle

theorem Ensures.ofOption {value : Option α} {state : σ} {post : α → σ → Prop}
    (holds : ∀ result, value = some result → post result state) :
    Ensures (Prog.ofOption value : Prog ε σ α) state post := by
  cases value with
  | none => exact Ensures.stop
  | some result => exact Ensures.pure (holds result rfl)

theorem Ensures.ofExcept {value : Except ε α} {state : σ} {post : α → σ → Prop}
    (holds : ∀ result, value = .ok result → post result state) :
    Ensures (Prog.ofExcept value) state post := by
  cases value with
  | ok value => exact Ensures.pure (holds value rfl)
  | error error => exact Ensures.throw

theorem Ensures.ite {condition : Prop} [Decidable condition] {yes no : Prog ε σ α} {state : σ}
    {post : α → σ → Prop} (left : condition → Ensures yes state post)
    (right : ¬ condition → Ensures no state post) :
    Ensures (if condition then yes else no) state post := by
  split
  · exact left ‹_›
  · exact right ‹_›

/-- A run through a part of the state is a run of that part. -/
theorem Ensures.zoom {part : σ → τ} {put : τ → σ → σ} {program : Prog ε τ α} {state : σ}
    {post : α → σ → Prop}
    (holds : Ensures program (part state) fun value after => post value (put after state)) :
    Ensures (Prog.zoom part put program) state post := by
  intro value after run
  unfold Prog.zoom at run
  cases ran : program (part state) with
  | ok value' middle =>
    rw [ran] at run
    cases run
    exact holds _ _ ran
  | err error middle => rw [ran] at run; cases run
  | stuck => rw [ran] at run; cases run

theorem attempt_ok {program : Prog ε σ α} {state after : σ} {value : α}
    (run : program state = .ok value after) :
    Prog.attempt program state = .ok (.ok value) after := by
  unfold Prog.attempt
  rw [run]

theorem attempt_err {program : Prog ε σ α} {state after : σ} {error : ε}
    (run : program state = .err error after) :
    Prog.attempt program state = .ok (.error error) after := by
  unfold Prog.attempt
  rw [run]

theorem attempt_stuck {program : Prog ε σ α} {state : σ} (run : program state = .stuck) :
    Prog.attempt program state = .stuck := by
  unfold Prog.attempt
  rw [run]

theorem Ensures.attempt {program : Prog ε σ α} {state : σ} {post : Except ε α → σ → Prop}
    (good : Ensures program state fun value after => post (.ok value) after)
    (bad : ∀ error after, program state = .err error after → post (.error error) after) :
    Ensures (Prog.attempt program) state post := by
  intro value after run
  unfold Prog.attempt at run
  cases ran : program state with
  | ok value' middle =>
    rw [ran] at run
    cases run
    exact good _ _ ran
  | err error middle =>
    rw [ran] at run
    cases run
    exact bad _ _ ran
  | stuck => rw [ran] at run; cases run

/-- **The loop rule**: an invariant of every round holds when the loop ends. -/
theorem Ensures.loop {body : β → Prog ε σ (β ⊕ α)} {post : α → σ → Prop} (inv : β → σ → Prop)
    (round : ∀ value state, inv value state → Ensures (body value) state fun result after =>
      match result with
      | .inl next => inv next after
      | .inr done => post done after) :
    ∀ (fuel : Nat) (value : β) (state : σ), inv value state →
      Ensures (Prog.loop body fuel value) state post := by
  intro fuel
  induction fuel with
  | zero => exact fun _ _ _ => Ensures.stop
  | succ fuel ih =>
    intro value state start
    refine Ensures.bind ((round value state start).mono fun result after holds => ?_)
    cases result with
    | inl next => exact ih next after holds
    | inr done => exact Ensures.pure holds

/-- **The rule of `forEach`**: an invariant indexed by what is left of the list. -/
theorem Ensures.forEach {body : β → Prog ε σ Unit} (inv : List β → σ → Prop)
    (round : ∀ first rest state, inv (first :: rest) state →
      Ensures (body first) state fun _ after => inv rest after) :
    ∀ (items : List β) (state : σ), inv items state →
      Ensures (Prog.forEach body items) state fun _ after => inv [] after := by
  intro items
  induction items with
  | nil => exact fun _ start => Ensures.pure start
  | cons first rest ih =>
    intro state start
    exact Ensures.bind ((round first rest state start).mono fun _ after holds => ih after holds)

/-- **The rule of `foldM`**. -/
theorem Ensures.foldM {body : α → β → Prog ε σ α} (inv : List β → α → σ → Prop)
    (round : ∀ value first rest state, inv (first :: rest) value state →
      Ensures (body value first) state fun next after => inv rest next after) :
    ∀ (items : List β) (value : α) (state : σ), inv items value state →
      Ensures (Prog.foldM body value items) state fun result after => inv [] result after := by
  intro items
  induction items with
  | nil => exact fun _ _ start => Ensures.pure start
  | cons first rest ih =>
    intro value state start
    exact Ensures.bind ((round value first rest state start).mono
      fun next after holds => ih next after holds)

end Ensures

/-! ### That a run returns -/

section Succeeds

variable {ε σ τ α β : Type}

theorem Succeeds.mono {program : Prog ε σ α} {state : σ} {post post' : α → σ → Prop}
    (holds : Succeeds program state post)
    (weaker : ∀ value after, post value after → post' value after) :
    Succeeds program state post' := by
  obtain ⟨value, after, run, reached⟩ := holds
  exact ⟨value, after, run, weaker value after reached⟩

/-- Returning is returning with anything every returning run ensures. -/
theorem Succeeds.of_ensures {program : Prog ε σ α} {state : σ} {post post' : α → σ → Prop}
    (holds : Succeeds program state post') (also : Ensures program state post) :
    Succeeds program state post := by
  obtain ⟨value, after, run, _⟩ := holds
  exact ⟨value, after, run, also value after run⟩

/-- A run is determined: what one run that returns reaches, every run that returns reaches. -/
theorem Succeeds.ensures {program : Prog ε σ α} {state : σ} {post : α → σ → Prop}
    (holds : Succeeds program state post) : Ensures program state post := by
  intro value after run
  obtain ⟨value', after', run', reached⟩ := holds
  rw [run] at run'
  cases run'
  exact reached

/-- A run that returns does what every returning run does. -/
theorem Succeeds.and_ensures {program : Prog ε σ α} {state : σ} {post post' : α → σ → Prop}
    (holds : Succeeds program state post) (also : Ensures program state post') :
    Succeeds program state fun value after => post value after ∧ post' value after := by
  obtain ⟨value, after, run, reached⟩ := holds
  exact ⟨value, after, run, reached, also value after run⟩

theorem Succeeds.pure {value : α} {state : σ} {post : α → σ → Prop} (holds : post value state) :
    Succeeds (Pure.pure value : Prog ε σ α) state post :=
  ⟨value, state, rfl, holds⟩

theorem Succeeds.bind {first : Prog ε σ α} {next : α → Prog ε σ β} {state : σ}
    {post : β → σ → Prop}
    (holds : Succeeds first state fun value middle => Succeeds (next value) middle post) :
    Succeeds (first >>= next) state post := by
  obtain ⟨value, middle, ran, result, after, rest, reached⟩ := holds
  exact ⟨result, after, bind_eq_ok.mpr ⟨value, middle, ran, rest⟩, reached⟩

theorem Succeeds.bind_ok {first : Prog ε σ α} {next : α → Prog ε σ β} {state middle : σ} {value : α}
    {post : β → σ → Prop} (run : first state = .ok value middle) (holds : Succeeds (next value) middle post) :
    Succeeds (first >>= next) state post := Succeeds.bind ⟨value, middle, run, holds⟩

theorem Succeeds.zoom {part : σ → τ} {put : τ → σ → σ} {program : Prog ε τ α} {state : σ}
    {post : α → σ → Prop}
    (holds : Succeeds program (part state) fun value after => post value (put after state)) :
    Succeeds (Prog.zoom part put program) state post := by
  obtain ⟨value, after, ran, reached⟩ := holds
  exact ⟨value, put after state, by unfold Prog.zoom; rw [ran], reached⟩

/-- **The rule of `forEach`**, for runs that return. -/
theorem Succeeds.forEach {body : β → Prog ε σ Unit} (inv : List β → σ → Prop)
    (round : ∀ first rest state, inv (first :: rest) state →
      Succeeds (body first) state fun _ after => inv rest after) :
    ∀ (items : List β) (state : σ), inv items state →
      Succeeds (Prog.forEach body items) state fun _ after => inv [] after := by
  intro items
  induction items with
  | nil => exact fun _ start => Succeeds.pure start
  | cons first rest ih =>
    intro state start
    exact Succeeds.bind ((round first rest state start).mono fun _ after holds => ih after holds)

end Succeeds

/-! ### That a run ends, and with which errors -/

section Ends

variable {ε σ α β : Type} {fails : ε → Prop}

/-- The program returns a value of which `post` holds, or ends with an error of the kind `fails`. -/
def Ends (fails : ε → Prop) (program : Prog ε σ α) (state : σ) (post : α → σ → Prop) : Prop :=
  match program state with
  | .ok value after => post value after
  | .err error _ => fails error
  | .stuck => False

theorem Succeeds.ends {program : Prog ε σ α} {state : σ} {post : α → σ → Prop}
    (holds : Succeeds program state post) : Ends fails program state post := by
  obtain ⟨value, after, run, reached⟩ := holds
  rw [Ends, run]
  exact reached

theorem Ends.pure {value : α} {state : σ} {post : α → σ → Prop} (holds : post value state) :
    Ends fails (Pure.pure value) state post := holds

theorem Ends.of_ensures {program : Prog ε σ α} {state : σ} {post post' : α → σ → Prop}
    (ends : Ends fails program state post') (also : Ensures program state post) :
    Ends fails program state post := by
  unfold Ends at ends ⊢
  cases run : program state with
  | ok value after => exact also value after run
  | err error after => rwa [run] at ends
  | stuck => rwa [run] at ends

theorem Ends.and_ensures {program : Prog ε σ α} {state : σ} {post post' : α → σ → Prop}
    (ends : Ends fails program state post) (also : Ensures program state post') :
    Ends fails program state fun value after => post value after ∧ post' value after := by
  unfold Ends at ends ⊢
  cases run : program state with
  | ok value after =>
    rw [run] at ends
    exact ⟨ends, also value after run⟩
  | err error after => rwa [run] at ends
  | stuck => rwa [run] at ends

theorem Ends.mono {program : Prog ε σ α} {state : σ} {post post' : α → σ → Prop}
    (ends : Ends fails program state post)
    (weaker : ∀ value after, post value after → post' value after) :
    Ends fails program state post' := by
  unfold Ends at ends ⊢
  cases run : program state with
  | ok value after =>
    rw [run] at ends
    exact weaker value after ends
  | err error after => rwa [run] at ends
  | stuck => rwa [run] at ends

theorem Ends.bind {first : Prog ε σ α} {next : α → Prog ε σ β} {state : σ} {post : β → σ → Prop}
    (ends : Ends fails first state fun value middle => Ends fails (next value) middle post) :
    Ends fails (first >>= next) state post := by
  unfold Ends at ends ⊢
  rw [bind_eq]
  cases run : first state with
  | ok value middle => rwa [run] at ends
  | err error after => rwa [run] at ends
  | stuck => rwa [run] at ends

theorem Ends.bind_ok {first : Prog ε σ α} {next : α → Prog ε σ β} {state middle : σ} {value : α}
    {post : β → σ → Prop} (run : first state = .ok value middle)
    (ends : Ends fails (next value) middle post) : Ends fails (first >>= next) state post := by
  unfold Ends at ends ⊢
  rwa [bind_eq, run]

/-- The rule of `foldM`, for runs that end. -/
theorem Ends.foldM {body : α → β → Prog ε σ α} (inv : List β → α → σ → Prop)
    (round : ∀ value first rest state, inv (first :: rest) value state →
      Ends fails (body value first) state fun next after => inv rest next after) :
    ∀ (items : List β) (value : α) (state : σ), inv items value state →
      Ends fails (Prog.foldM body value items) state fun result after => inv [] result after := by
  intro items
  induction items with
  | nil => exact fun _ _ start => Ends.pure start
  | cons first rest ih =>
    intro value state start
    exact Ends.bind ((round value first rest state start).mono
      fun next after holds => ih next after holds)

/-- The rule of loops, for runs that end: each round that goes on leaves fewer to come. -/
theorem Ends.loop {body : β → Prog ε σ (β ⊕ α)} {post : α → σ → Prop} (inv : Nat → β → σ → Prop)
    (round : ∀ left value state, inv left value state →
      Ends fails (body value) state fun result after =>
        match result with
        | .inl next => ∃ left' < left, inv left' next after
        | .inr done => post done after) :
    ∀ (fuel left : Nat) (value : β) (state : σ), left < fuel → inv left value state →
      Ends fails (Prog.loop body fuel value) state post := by
  intro fuel
  induction fuel with
  | zero => exact fun _ _ _ short => absurd short (Nat.not_lt_zero _)
  | succ fuel ih =>
    intro left value state short start
    refine Ends.bind ((round left value state start).mono fun result after holds => ?_)
    cases result with
    | inl next =>
      obtain ⟨left', less, holds⟩ := holds
      exact ih left' next after (by omega) holds
    | inr done => exact Ends.pure holds

theorem Ends.zoom {τ : Type} {part : σ → τ} {put : τ → σ → σ} {program : Prog ε τ α} {state : σ}
    {post : α → σ → Prop}
    (ends : Ends fails program (part state) fun value after => post value (put after state)) :
    Ends fails (Prog.zoom part put program) state post := by
  unfold Ends Prog.zoom at *
  cases run : program (part state) with
  | ok value after => rwa [run] at ends
  | err error after => rwa [run] at ends
  | stuck => rwa [run] at ends

theorem Ends.weaken {fails' : ε → Prop} {program : Prog ε σ α} {state : σ} {post : α → σ → Prop}
    (ends : Ends fails program state post) (weaker : ∀ error, fails error → fails' error) :
    Ends fails' program state post := by
  unfold Ends at ends ⊢
  cases run : program state with
  | ok value after => rwa [run] at ends
  | err error after =>
    rw [run] at ends
    exact weaker error ends
  | stuck => rwa [run] at ends

/-- How such a run ended. -/
theorem Ends.cases {program : Prog ε σ α} {state : σ} {post : α → σ → Prop}
    (ends : Ends fails program state post) :
    (∃ value after, program state = .ok value after ∧ post value after) ∨
      ∃ error after, program state = .err error after ∧ fails error := by
  unfold Ends at ends
  cases run : program state with
  | ok value after =>
    rw [run] at ends
    exact Or.inl ⟨value, after, rfl, ends⟩
  | err error after =>
    rw [run] at ends
    exact Or.inr ⟨error, after, rfl, ends⟩
  | stuck =>
    rw [run] at ends
    exact ends.elim

end Ends

/-! ### Programs that do not use their state -/

section Constant

variable {ε σ α β : Type}

/-- The program neither reads the state nor changes it. -/
inductive Constant : Prog ε σ α → Prop
  | pure (value : α) : Constant (Pure.pure value)
  | throw (error : ε) : Constant (Prog.throw error)
  | stop : Constant Prog.stop

theorem Constant.ofOption (value : Option α) : Constant (Prog.ofOption value : Prog ε σ α) := by
  cases value with
  | none => exact .stop
  | some value => exact .pure value

theorem Constant.bind {first : Prog ε σ α} {next : α → Prog ε σ β} (one : Constant first)
    (two : ∀ value, Constant (next value)) : Constant (first >>= next) := by
  cases one with
  | pure value => exact two value
  | throw error => exact .throw error
  | stop => exact .stop

theorem Constant.loop {body : β → Prog ε σ (β ⊕ α)} (round : ∀ value, Constant (body value)) :
    ∀ (fuel : Nat) (value : β), Constant (Prog.loop body fuel value) := by
  intro fuel
  induction fuel with
  | zero => exact fun _ => .stop
  | succ fuel ih =>
    intro value
    refine (round value).bind fun result => ?_
    cases result with
    | inl next => exact ih next
    | inr done => exact .pure done

theorem Constant.foldM {body : α → β → Prog ε σ α} (round : ∀ value item, Constant (body value item)) :
    ∀ (items : List β) (value : α), Constant (Prog.foldM body value items) := by
  intro items
  induction items with
  | nil => exact fun value => .pure value
  | cons first rest ih => exact fun value => (round value first).bind ih

/-- A constant program that returns somewhere is its value. -/
theorem Constant.eq_pure {program : Prog ε σ α} (constant : Constant program) {state : σ}
    {post : α → σ → Prop} (holds : Succeeds program state post) :
    ∃ value, program = Pure.pure value ∧ post value state := by
  obtain ⟨value, after, run, good⟩ := holds
  cases constant with
  | pure value' =>
    cases run
    exact ⟨value, rfl, good⟩
  | throw error => cases run
  | stop => cases run

theorem pure_inj [Nonempty σ] {one two : α}
    (same : (Pure.pure one : Prog ε σ α) = Pure.pure two) : one = two := by
  obtain ⟨state⟩ := ‹Nonempty σ›
  cases congrFun same state
  rfl

/-- If a sequence that begins constant is a value, its first part is one. -/
theorem Constant.bind_pure [Nonempty σ] {first : Prog ε σ α} {next : α → Prog ε σ β}
    (one : Constant first) {result : β} (run : first >>= next = Pure.pure result) :
    ∃ value, first = Pure.pure value ∧ next value = Pure.pure result := by
  obtain ⟨state⟩ := ‹Nonempty σ›
  cases one with
  | pure value => exact ⟨value, rfl, run⟩
  | throw error => cases congrFun run state
  | stop => cases congrFun run state

end Constant

/-! ### What holds however a run ends -/

section Respects

variable {ε σ α β : Type}

/-- From this state the program ends in a related one, be it with a value or with an error. -/
def Leads (R : σ → σ → Prop) (program : Prog ε σ α) (state : σ) : Prop :=
  (∀ value after, program state = .ok value after → R state after) ∧
    ∀ error after, program state = .err error after → R state after

/-- The program relates every state it starts in to the one it ends in. -/
def Respects (R : σ → σ → Prop) (program : Prog ε σ α) : Prop := ∀ state, Leads R program state

/-- The program ends there, be it with a value or with an error. -/
def Ended (program : Prog ε σ α) (before after : σ) : Prop :=
  (∃ value, program before = .ok value after) ∨ ∃ error, program before = .err error after

theorem Respects.ended {R : σ → σ → Prop} {program : Prog ε σ α} (respects : Respects R program)
    {before after : σ} (ended : Ended program before after) : R before after := by
  rcases ended with ⟨value, run⟩ | ⟨error, run⟩
  · exact (respects before).1 value after run
  · exact (respects before).2 error after run

/-- A relation that holds of doing nothing and of one thing after another. -/
structure Composes (R : σ → σ → Prop) : Prop where
  refl : ∀ state, R state state
  trans : ∀ first middle last, R first middle → R middle last → R first last

variable {R : σ → σ → Prop}

/-- What a run that returns reaches, it reaches however it ends. -/
theorem Succeeds.leads {program : Prog ε σ α} {state : σ}
    (holds : Succeeds program state fun _ after => R state after) : Leads R program state := by
  obtain ⟨value, after, run, reached⟩ := holds
  refine ⟨fun value' after' run' => ?_, fun error after' run' => ?_⟩
  · rw [run] at run'
    cases run'
    exact reached
  · rw [run] at run'
    cases run'

theorem Leads.of_err {program : Prog ε σ α} {state after : σ} {error : ε}
    (run : program state = .err error after) (reached : R state after) : Leads R program state := by
  refine ⟨fun value after' run' => ?_, fun error' after' run' => ?_⟩
  · rw [run] at run'
    cases run'
  · rw [run] at run'
    cases run'
    exact reached

theorem Leads.mono {R' : σ → σ → Prop} {program : Prog ε σ α} {state : σ}
    (leads : Leads R program state) (weaker : ∀ after, R state after → R' state after) :
    Leads R' program state :=
  ⟨fun value after run => weaker after (leads.1 value after run),
    fun error after run => weaker after (leads.2 error after run)⟩

theorem Leads.ended {program : Prog ε σ α} {before after : σ} (leads : Leads R program before)
    (ended : Ended program before after) : R before after := by
  rcases ended with ⟨value, run⟩ | ⟨error, run⟩
  · exact leads.1 value after run
  · exact leads.2 error after run

theorem Respects.ensures {program : Prog ε σ α} (respects : Respects R program) (state : σ) :
    Ensures program state fun _ after => R state after := (respects state).1

theorem Respects.pure (composes : Composes R) (value : α) :
    Respects R (Pure.pure value : Prog ε σ α) := by
  intro state
  refine ⟨fun value' after run => ?_, fun error after run => ?_⟩
  · cases run
    exact composes.refl state
  · cases run

theorem Respects.throw (composes : Composes R) (error : ε) :
    Respects R (Prog.throw error : Prog ε σ α) := by
  intro state
  refine ⟨fun value after run => ?_, fun error' after run => ?_⟩
  · cases run
  · cases run
    exact composes.refl state

theorem Respects.stop : Respects R (Prog.stop : Prog ε σ α) :=
  fun _ => ⟨nofun, nofun⟩

theorem Respects.ofExcept (composes : Composes R) (value : Except ε α) :
    Respects R (Prog.ofExcept value : Prog ε σ α) := by
  cases value with
  | ok value => exact Respects.pure composes value
  | error error => exact Respects.throw composes error

theorem Respects.ofOption (composes : Composes R) (value : Option α) :
    Respects R (Prog.ofOption value : Prog ε σ α) := by
  cases value with
  | some value => exact Respects.pure composes value
  | none => exact Respects.stop

theorem Leads.bind (composes : Composes R) {first : Prog ε σ α} {next : α → Prog ε σ β} {state : σ}
    (one : Leads R first state)
    (two : ∀ value middle, first state = .ok value middle → Leads R (next value) middle) :
    Leads R (first >>= next) state := by
  refine ⟨fun result after run => ?_, fun error after run => ?_⟩
  · obtain ⟨value, middle, ran, rest⟩ := bind_eq_ok.mp run
    exact composes.trans _ _ _ (one.1 value middle ran) ((two value middle ran).1 result after rest)
  · rw [bind_eq] at run
    cases ran : first state with
    | ok value middle =>
      rw [ran] at run
      exact composes.trans _ _ _ (one.1 value middle ran) ((two value middle ran).2 error after run)
    | err error' middle =>
      rw [ran] at run
      cases run
      exact one.2 error after ran
    | stuck => rw [ran] at run; cases run

theorem Respects.bind (composes : Composes R) {first : Prog ε σ α} {next : α → Prog ε σ β}
    (one : Respects R first) (two : ∀ value, Respects R (next value)) :
    Respects R (first >>= next) :=
  fun state => Leads.bind composes (one state) fun value middle _ => two value middle

theorem Respects.ite {condition : Prop} [Decidable condition] {yes no : Prog ε σ α}
    (left : Respects R yes) (right : Respects R no) :
    Respects R (if condition then yes else no) := by
  split
  · exact left
  · exact right

theorem Respects.attempt {program : Prog ε σ α} (respects : Respects R program) :
    Respects R (Prog.attempt program) := by
  intro state
  unfold Leads Prog.attempt
  refine ⟨fun result after run => ?_, fun error after run => ?_⟩
  · cases ran : program state with
    | ok value middle =>
      rw [ran] at run
      cases run
      exact (respects state).1 _ _ ran
    | err error middle =>
      rw [ran] at run
      cases run
      exact (respects state).2 _ _ ran
    | stuck => rw [ran] at run; cases run
  · cases ran : program state with
    | ok value middle => rw [ran] at run; cases run
    | err error middle => rw [ran] at run; cases run
    | stuck => rw [ran] at run; cases run

theorem Respects.loop (composes : Composes R) {body : β → Prog ε σ (β ⊕ α)}
    (round : ∀ value, Respects R (body value)) :
    ∀ (fuel : Nat) (value : β), Respects R (Prog.loop body fuel value) := by
  intro fuel
  induction fuel with
  | zero => exact fun _ => Respects.stop
  | succ fuel ih =>
    intro value
    refine Respects.bind composes (round value) fun result => ?_
    cases result with
    | inl next => exact ih next
    | inr done => exact Respects.pure composes done

theorem Respects.foldM (composes : Composes R) {body : α → β → Prog ε σ α}
    (round : ∀ value item, Respects R (body value item)) :
    ∀ (items : List β) (value : α), Respects R (Prog.foldM body value items) := by
  intro items
  induction items with
  | nil => exact fun value => Respects.pure composes value
  | cons first rest ih => exact fun value => Respects.bind composes (round value first) fun next => ih next

end Respects

/-! ### A device, its crash points and its failures -/

section World

variable {ε φ α β : Type}

/-- A device with the states it went through (one for each call, newest first) and the number of
the call that fails, if one does. -/
structure World (φ : Type) where
  now : φ
  past : List φ
  failAt : Option Nat

/-- A device no call was made on and no call of which fails. -/
def World.fresh (now : φ) : World φ := ⟨now, [], none⟩

/-- No call fails from here on. -/
def World.Calm (world : World φ) : Prop :=
  ∀ number, world.failAt = some number → number < world.past.length

theorem World.fresh_calm (now : φ) : (World.fresh now).Calm := nofun

theorem World.Calm.ne {world : World φ} (calm : world.Calm) :
    world.failAt ≠ some world.past.length :=
  fun failing => Nat.lt_irrefl _ (calm _ failing)

/-- **One call on the device.** The failing call has no effect; every other one takes full effect
or reports its own error. -/
def call (fault : ε) (step : φ → Except ε (α × φ)) : Prog ε (World φ) α := fun world =>
  if world.failAt = some world.past.length then
    .err fault { world with past := world.now :: world.past }
  else
    match step world.now with
    | .ok (value, now) => .ok value { world with now := now, past := now :: world.past }
    | .error error => .err error { world with past := world.now :: world.past }

/-- No call fails between the two worlds' moments other than by its own error, and every call left
the device in a state of `C`. -/
structure Passes (C : φ → Prop) (before after : World φ) : Prop where
  failAt : after.failAt = before.failAt
  crash : ∃ new, after.past = new ++ before.past ∧ ∀ device ∈ new, C device

theorem Passes.refl (C : φ → Prop) (world : World φ) : Passes C world world :=
  ⟨rfl, [], rfl, fun _ member => by cases member⟩

theorem Passes.trans {C : φ → Prop} {first middle last : World φ} (one : Passes C first middle)
    (two : Passes C middle last) : Passes C first last := by
  obtain ⟨new, grew, held⟩ := one.crash
  obtain ⟨new', grew', held'⟩ := two.crash
  refine ⟨two.failAt.trans one.failAt, new' ++ new, by rw [grew', grew, List.append_assoc], ?_⟩
  intro device member
  rcases List.mem_append.mp member with member | member
  · exact held' device member
  · exact held device member

theorem Passes.mono {C C' : φ → Prop} {before after : World φ} (passes : Passes C before after)
    (weaker : ∀ device, C device → C' device) : Passes C' before after := by
  obtain ⟨new, grew, held⟩ := passes.crash
  exact ⟨passes.failAt, new, grew, fun device member => weaker device (held device member)⟩

theorem Passes.composes (C : φ → Prop) : Composes (Passes C) :=
  ⟨Passes.refl C, fun _ _ _ => Passes.trans⟩

/-- The crash points of a run from a fresh world. -/
theorem Passes.of_fresh {C : φ → Prop} {now : φ} {after : World φ}
    (passes : Passes C (World.fresh now) after) : ∀ device ∈ after.past, C device := by
  obtain ⟨new, grew, held⟩ := passes.crash
  intro device member
  rw [grew] at member
  exact held device (by simpa [World.fresh] using member)

/-- The calls between the two worlds' moments only read. -/
structure Quiet (before after : World φ) : Prop where
  now : after.now = before.now
  passes : Passes (· = before.now) before after

theorem Quiet.refl (world : World φ) : Quiet world world := ⟨rfl, Passes.refl _ world⟩

theorem Quiet.trans {first middle last : World φ} (one : Quiet first middle)
    (two : Quiet middle last) : Quiet first last := by
  refine ⟨two.now.trans one.now, one.passes.trans (two.passes.mono fun device same => ?_)⟩
  exact same.trans one.now

theorem Quiet.composes : Composes (Quiet (φ := φ)) := ⟨Quiet.refl, fun _ _ _ => Quiet.trans⟩

/-- Reading between effects adds no crash points of its own. -/
theorem Passes.of_quiet {C : φ → Prop} {before after : World φ} (quiet : Quiet before after)
    (here : C before.now) : Passes C before after :=
  quiet.passes.mono fun _ same => same ▸ here

theorem Passes.calm {C : φ → Prop} {before after : World φ} (passes : Passes C before after)
    (calm : before.Calm) : after.Calm := by
  intro number failing
  obtain ⟨new, grew, _⟩ := passes.crash
  have early := calm number (passes.failAt ▸ failing)
  rw [grew, List.length_append]
  omega

theorem Quiet.calm {before after : World φ} (quiet : Quiet before after) (calm : before.Calm) :
    after.Calm :=
  quiet.passes.calm calm

/-- **A call that returns** took its step and is a crash point of the run. -/
theorem call_ensures {fault : ε} {step : φ → Except ε (α × φ)} {world : World φ} :
    Ensures (call fault step) world fun value after =>
      step world.now = .ok (value, after.now) ∧ Passes (· = after.now) world after := by
  intro value after run
  unfold call at run
  split at run
  · cases run
  · cases stepped : step world.now with
    | ok result =>
      obtain ⟨value', now⟩ := result
      rw [stepped] at run
      cases run
      exact ⟨rfl, rfl, [now], rfl, fun device member => List.mem_singleton.mp member⟩
    | error error => rw [stepped] at run; cases run

/-- **On a faultless device a call whose step is possible returns.** -/
theorem call_succeeds {fault : ε} {step : φ → Except ε (α × φ)} {world : World φ} {value : α}
    {now : φ} (calm : world.Calm) (possible : step world.now = .ok (value, now)) :
    Succeeds (call fault step) world fun value' after =>
      value' = value ∧ after.now = now ∧ Passes (· = now) world after := by
  refine ⟨value, { world with now := now, past := now :: world.past }, ?_, rfl, rfl, rfl, [now], rfl,
    fun device member => List.mem_singleton.mp member⟩
  unfold call
  rw [if_neg calm.ne, possible]

/-- A call whose own step fails leaves the device as it was. -/
theorem call_error {fault : ε} {step : φ → Except ε (α × φ)} {world : World φ} {error : ε}
    (calm : world.Calm) (impossible : step world.now = .error error) :
    call fault step world = .err error { world with past := world.now :: world.past } := by
  unfold call
  rw [if_neg calm.ne, impossible]

/-- A failing call leaves the device as it was, whatever the failure. -/
theorem call_err_frame {fault : ε} {step : φ → Except ε (α × φ)} {world after : World φ}
    {error : ε} (run : call fault step world = .err error after) :
    after.now = world.now ∧ Passes (· = world.now) world after := by
  have same : after = { world with past := world.now :: world.past } := by
    unfold call at run
    split at run
    · cases run; rfl
    · cases stepped : step world.now with
      | ok result => rw [stepped] at run; cases run
      | error error => rw [stepped] at run; cases run; rfl
  rw [same]
  exact ⟨rfl, rfl, [world.now], rfl, fun device member => List.mem_singleton.mp member⟩

/-- **What a call leaves is a crash point**, however it ends. -/
theorem call_records (fault : ε) (step : φ → Except ε (α × φ)) :
    Respects (fun before after => after.past = after.now :: before.past) (call fault step) := by
  intro world
  unfold Leads call
  split
  · refine ⟨nofun, fun error after run => ?_⟩
    cases run
    rfl
  · cases step world.now with
    | ok result =>
      refine ⟨fun value after run => ?_, nofun⟩
      cases run
      rfl
    | error error =>
      refine ⟨nofun, fun error' after run => ?_⟩
      cases run
      rfl

/-- Between the two worlds' moments the device was in a state of `P` behind some call. -/
def Visits (P : φ → Prop) (before after : World φ) : Prop :=
  ∃ new, after.past = new ++ before.past ∧ ∃ device ∈ new, P device

variable {P C : φ → Prop} {first middle last : World φ}

theorem Visits.before (visits : Visits P first middle) (passes : Passes C middle last) :
    Visits P first last := by
  obtain ⟨new, grew, device, member, holds⟩ := visits
  obtain ⟨new', grew', _⟩ := passes.crash
  exact ⟨new' ++ new, by rw [grew', grew, List.append_assoc], device, List.mem_append_right _ member,
    holds⟩

theorem Visits.behind (visits : Visits P middle last) (passes : Passes C first middle) :
    Visits P first last := by
  obtain ⟨new, grew, device, member, holds⟩ := visits
  obtain ⟨new', grew', _⟩ := passes.crash
  exact ⟨new ++ new', by rw [grew, grew', List.append_assoc], device, List.mem_append_left _ member,
    holds⟩

end World

end Device

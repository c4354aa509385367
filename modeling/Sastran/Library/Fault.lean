/-
Runs in which one call fails.

* `Fails` - what holds of the error a program ends with, and of the state it leaves then.
* `Spares` - the failing call is not one of those between two moments.
* `Even` - a run that the failing call is not part of is the run in which no call fails; a `strict` one
  that returns has not met the failing call. `Even.calm` carries a fact about runs without a failure over.
-/

import Sastran.Library.Program

namespace Device

/-! ### Errors -/

section Fails

variable {ε σ τ α β : Type}

/-- The error a run ended with, and the state it left. -/
def Outcome.raised {ε σ α : Type} : Outcome ε σ α → Option (ε × σ)
  | .ok _ _ => none
  | .err error state => some (error, state)
  | .stuck => none

theorem Outcome.raised_eq_some {outcome : Outcome ε σ α} {error : ε} {state : σ} :
    outcome.raised = some (error, state) ↔ outcome = .err error state := by
  cases outcome <;> simp [raised]

/-- If the program ends with an error, `post` holds of it and of the state it leaves. -/
def Fails (program : Prog ε σ α) (state : σ) (post : ε → σ → Prop) : Prop :=
  ∀ error after, program state = .err error after → post error after

variable {post : ε → σ → Prop} {state : σ}

theorem Fails.mono {post' : ε → σ → Prop} {program : Prog ε σ α} (fails : Fails program state post)
    (weaker : ∀ error after, post error after → post' error after) : Fails program state post' :=
  fun error after run => weaker error after (fails error after run)

theorem Fails.pure (value : α) : Fails (Pure.pure value : Prog ε σ α) state post := nofun

theorem Fails.throw {error : ε} (holds : post error state) :
    Fails (Prog.throw error : Prog ε σ α) state post := by
  intro error' after run
  cases run
  exact holds

theorem Fails.ofOption (value : Option α) : Fails (Prog.ofOption value : Prog ε σ α) state post := by
  cases value with
  | none => exact nofun
  | some value => exact nofun

theorem Fails.bind {first : Prog ε σ α} {next : α → Prog ε σ β} (one : Fails first state post)
    (two : Ensures first state fun value middle => Fails (next value) middle post) :
    Fails (first >>= next) state post := by
  intro error after run
  rw [bind_eq] at run
  cases ran : first state with
  | ok value middle =>
    rw [ran] at run
    exact two value middle ran error after run
  | err error' middle =>
    rw [ran] at run
    cases run
    exact one error after ran
  | stuck => rw [ran] at run; cases run

theorem Fails.bind_ok {first : Prog ε σ α} {next : α → Prog ε σ β} {value : α} {middle : σ}
    (run : first state = .ok value middle) (two : Fails (next value) middle post) :
    Fails (first >>= next) state post := by
  intro error after ran
  rw [Device.bind_ok run] at ran
  exact two error after ran

theorem Fails.ite {condition : Prop} [Decidable condition] {yes no : Prog ε σ α}
    (left : condition → Fails yes state post) (right : ¬ condition → Fails no state post) :
    Fails (if condition then yes else no) state post := by
  split
  · exact left ‹_›
  · exact right ‹_›

theorem Fails.zoom {part : σ → τ} {put : τ → σ → σ} {program : Prog ε τ α}
    (fails : Fails program (part state) fun error after => post error (put after state)) :
    Fails (Prog.zoom part put program) state post := by
  intro error after run
  unfold Prog.zoom at run
  cases ran : program (part state) with
  | ok value middle => rw [ran] at run; cases run
  | err error' middle =>
    rw [ran] at run
    cases run
    exact fails error middle ran
  | stuck => rw [ran] at run; cases run

theorem Succeeds.fails {program : Prog ε σ α} {reached : α → σ → Prop}
    (holds : Succeeds program state reached) : Fails program state post := by
  obtain ⟨value, after, run, _⟩ := holds
  intro error last ran
  rw [run] at ran
  cases ran

theorem Ends.fails {kind : ε → Prop} {program : Prog ε σ α} {reached : α → σ → Prop}
    (holds : Ends kind program state reached) : Fails program state fun error _ => kind error := by
  intro error after run
  rw [Ends, run] at holds
  exact holds

theorem Leads.fails {R : σ → σ → Prop} {program : Prog ε σ α} (leads : Leads R program state) :
    Fails program state fun _ after => R state after := leads.2

theorem Fails.attempt (program : Prog ε σ α) : Fails (Prog.attempt program) state post := by
  intro error after run
  unfold Prog.attempt at run
  cases ran : program state with
  | ok value middle => rw [ran] at run; cases run
  | err error' middle => rw [ran] at run; cases run
  | stuck => rw [ran] at run; cases run

/-- The rule of `foldM`, for errors. -/
theorem Fails.foldM {body : α → β → Prog ε σ α} (inv : List β → α → σ → Prop)
    (round : ∀ value first rest state, inv (first :: rest) value state →
      Fails (body value first) state post ∧
        Ensures (body value first) state fun next after => inv rest next after) :
    ∀ (items : List β) (value : α) (state : σ), inv items value state →
      Fails (Prog.foldM body value items) state post := by
  intro items
  induction items with
  | nil => exact fun _ _ _ => Fails.pure _
  | cons first rest ih =>
    intro value state start
    obtain ⟨fails, ensures⟩ := round value first rest state start
    exact Fails.bind fails (ensures.mono fun next after holds => ih next after holds)

end Fails

/-! ### Runs without the failing call -/

section Even

variable {ε σ τ φ κ α β : Type}

/-- The device, no call of which fails. -/
def World.calmed (world : World φ) : World φ := { world with failAt := none }

theorem World.calmed_calm (world : World φ) : world.calmed.Calm := nofun

/-- A state that holds a device. -/
class Clocked (σ : Type) (φ : outParam Type) where
  world : σ → World φ
  calmed : σ → σ

instance : Clocked (World φ) φ := ⟨id, World.calmed⟩

instance : Clocked (κ × World φ) φ := ⟨Prod.snd, fun state => (state.1, state.2.calmed)⟩

/-- The failing call is not one of those between the two moments. -/
def Spares (before after : World φ) : Prop :=
  ∀ number, before.failAt = some number → number < before.past.length ∨ after.past.length ≤ number

/-- Time went on between the two moments. -/
abbrev Goes (before after : World φ) : Prop := Passes (fun _ => True) before after

theorem Spares.refl (world : World φ) : Spares world world := fun _ _ => by omega

theorem Passes.length_le {C : φ → Prop} {before after : World φ} (passes : Passes C before after) :
    before.past.length ≤ after.past.length := by
  obtain ⟨new, grew, _⟩ := passes.crash
  rw [grew, List.length_append]
  omega

theorem Spares.split {first middle last : World φ} (one : Goes first middle) (two : Goes middle last)
    (spares : Spares first last) : Spares first middle ∧ Spares middle last := by
  have earlier := one.length_le
  have later := two.length_le
  refine ⟨fun number failing => ?_, fun number failing => ?_⟩
  · have := spares number failing
    omega
  · have := spares number (one.failAt ▸ failing)
    omega

theorem Spares.trans {first middle last : World φ} (goes : Goes first middle)
    (one : Spares first middle) (two : Spares middle last) : Spares first last := by
  intro number failing
  have early := one number failing
  have late := two number (goes.failAt.trans failing)
  omega

variable [Clocked σ φ]

open Clocked (world calmed)

/-- **Away from the failing call the program runs as if no call failed.** A run of a `strict` program
that returns is away from it. -/
structure Even (strict : Prop) (program : Prog ε σ α) : Prop where
  goes : Respects (fun before after => Goes (world before) (world after)) program
  returns : ∀ before value after, program before = .ok value after →
    Spares (world before) (world after) → program (calmed before) = .ok value (calmed after)
  errs : ∀ before error after, program before = .err error after →
    Spares (world before) (world after) → program (calmed before) = .err error (calmed after)
  spares : strict → ∀ before value after, program before = .ok value after →
    Spares (world before) (world after)

variable {strict : Prop}

theorem goes_composes : Composes (fun before after : σ => Goes (world before) (world after)) :=
  ⟨fun state => Passes.refl _ (world state), fun _ _ _ => Passes.trans⟩

namespace Even

theorem of_constant {program : Prog ε σ α} (constant : Constant program) : Even strict program := by
  cases constant with
  | pure value =>
    refine ⟨Respects.pure goes_composes value, ?_, nofun, ?_⟩
    · intro before value after run _
      cases run
      rfl
    · intro _ before value after run
      cases run
      exact Spares.refl _
  | throw error =>
    refine ⟨Respects.throw goes_composes error, nofun, ?_, nofun⟩
    intro before error after run _
    cases run
    rfl
  | stop => exact ⟨Respects.stop, nofun, nofun, nofun⟩

theorem pure (value : α) : Even strict (Pure.pure value : Prog ε σ α) := of_constant (.pure value)

theorem throw (error : ε) : Even strict (Prog.throw error : Prog ε σ α) := of_constant (.throw error)

theorem ofOption (value : Option α) : Even strict (Prog.ofOption value : Prog ε σ α) :=
  of_constant (.ofOption value)

theorem bind {first : Prog ε σ α} {next : α → Prog ε σ β} (one : Even strict first)
    (two : ∀ value, Even strict (next value)) : Even strict (first >>= next) := by
  refine ⟨Respects.bind goes_composes one.goes fun value => (two value).goes, ?_, ?_, ?_⟩
  · intro before result after run spares
    obtain ⟨value, middle, ran, rest⟩ := bind_eq_ok.mp run
    obtain ⟨early, late⟩ := spares.split ((one.goes before).1 _ _ ran) (((two value).goes middle).1 _ _ rest)
    rw [bind_ok (one.returns before value middle ran early)]
    exact (two value).returns middle result after rest late
  · intro before error after run spares
    rw [bind_eq] at run
    cases ran : first before with
    | ok value middle =>
      rw [ran] at run
      obtain ⟨early, late⟩ := spares.split ((one.goes before).1 _ _ ran) (((two value).goes middle).2 _ _ run)
      rw [bind_ok (one.returns before value middle ran early)]
      exact (two value).errs middle error after run late
    | err error' middle =>
      rw [ran] at run
      cases run
      rw [bind_eq, one.errs before error after ran spares]
    | stuck => rw [ran] at run; cases run
  · intro strictly before result after run
    obtain ⟨value, middle, ran, rest⟩ := bind_eq_ok.mp run
    exact Spares.trans ((one.goes before).1 _ _ ran) (one.spares strictly before value middle ran)
      ((two value).spares strictly middle result after rest)

theorem ite {condition : Prop} [Decidable condition] {yes no : Prog ε σ α} (left : Even strict yes)
    (right : Even strict no) : Even strict (if condition then yes else no) := by
  split
  · exact left
  · exact right

/-- A program that hands its errors over is not strict. -/
theorem attempt {program : Prog ε σ α} (even : Even False program) :
    Even False (Prog.attempt program) := by
  refine ⟨even.goes.attempt, ?_, ?_, False.elim⟩
  · intro before result after run spares
    unfold Prog.attempt at run ⊢
    cases ran : program before with
    | ok value middle =>
      rw [ran] at run
      cases run
      rw [even.returns before value _ ran spares]
    | err error middle =>
      rw [ran] at run
      cases run
      rw [even.errs before error _ ran spares]
    | stuck => rw [ran] at run; cases run
  · intro before error after run
    exact ((Fails.attempt program : Fails _ before fun _ _ => False) error after run).elim

theorem loop {body : β → Prog ε σ (β ⊕ α)} (round : ∀ value, Even strict (body value)) :
    ∀ (fuel : Nat) (value : β), Even strict (Prog.loop body fuel value) := by
  intro fuel
  induction fuel with
  | zero => exact fun _ => of_constant .stop
  | succ fuel ih =>
    intro value
    refine (round value).bind fun result => ?_
    cases result with
    | inl next => exact ih next
    | inr done => exact pure done

theorem foldM {body : α → β → Prog ε σ α} (round : ∀ value item, Even strict (body value item)) :
    ∀ (items : List β) (value : α), Even strict (Prog.foldM body value items) := by
  intro items
  induction items with
  | nil => exact fun value => pure value
  | cons first rest ih => exact fun value => (round value first).bind ih

theorem forEach {body : β → Prog ε σ Unit} (round : ∀ item, Even strict (body item)) :
    ∀ items : List β, Even strict (Prog.forEach body items) := by
  intro items
  induction items with
  | nil => exact pure ()
  | cons first rest ih => exact (round first).bind fun _ => ih

/-- **One call**: with the failing one behind it or still to come it takes its step. -/
theorem call (fault : ε) (step : φ → Except ε (α × φ)) : Even strict (Device.call fault step) := by
  have goes : ∀ {before after : World φ}, after.failAt = before.failAt →
      after.past = after.now :: before.past → Goes before after :=
    fun failAt past => ⟨failAt, [_], past, fun _ _ => trivial⟩
  have fires : ∀ {before after : World φ}, before.failAt = some before.past.length →
      after.past = after.now :: before.past → ¬ Spares before after := by
    intro before after failing grew spares
    have := spares _ failing
    rw [grew, List.length_cons] at this
    omega
  refine ⟨fun before => ⟨fun value after run => ?_, fun error after run => ?_⟩, ?_, ?_, ?_⟩
  · exact (call_ensures value after run).2.mono fun _ _ => trivial
  · exact (call_err_frame run).2.mono fun _ _ => trivial
  · intro before value after run spares
    have grew : after.past = after.now :: before.past := (call_records fault step before).1 value after run
    show Device.call fault step before.calmed = .ok value after.calmed
    unfold Device.call at run ⊢
    rw [if_neg fun failing => fires failing grew spares] at run
    rw [if_neg before.calmed_calm.ne]
    cases stepped : step before.now with
    | ok result =>
      rw [stepped] at run
      cases run
      rw [show step before.calmed.now = _ from stepped]
      rfl
    | error error => rw [stepped] at run; cases run
  · intro before error after run spares
    have grew : after.past = after.now :: before.past := (call_records fault step before).2 error after run
    show Device.call fault step before.calmed = .err error after.calmed
    unfold Device.call at run ⊢
    rw [if_neg fun failing => fires failing grew spares] at run
    rw [if_neg before.calmed_calm.ne]
    cases stepped : step before.now with
    | ok result => rw [stepped] at run; cases run
    | error error' =>
      rw [stepped] at run
      cases run
      rw [show step before.calmed.now = _ from stepped]
      rfl
  · intro _ before value after run number failing
    have grew : after.past = after.now :: before.past := (call_records fault step before).1 value after run
    have other : number ≠ before.past.length := by
      rintro rfl
      have failing : before.failAt = some before.past.length := failing
      unfold Device.call at run
      rw [if_pos failing] at run
      cases run
    show number < before.past.length ∨ after.past.length ≤ number
    rw [grew, List.length_cons]
    omega

/-- **What holds of every run without a failure** holds of a strict program's run that returns. -/
theorem calm {program : Prog ε σ α} (even : Even True program) {state : σ} {post : α → σ → Prop}
    (holds : Ensures program (calmed state) post) :
    Ensures program state fun value after => post value (calmed after) :=
  fun value after run => holds _ _ (even.returns state value after run (even.spares trivial _ _ _ run))

end Even

/-- A program over the device beside another state. -/
theorem Even.beside {program : Prog ε (World φ) α} (even : Even strict program) :
    Even strict (Prog.zoom (σ := κ × World φ) Prod.snd (fun world state => (state.1, world)) program) := by
  have cases : ∀ (state : κ × World φ),
      Prog.zoom (σ := κ × World φ) Prod.snd (fun world state => (state.1, world)) program state =
        match program state.2 with
        | .ok value after => .ok value (state.1, after)
        | .err error after => .err error (state.1, after)
        | .stuck => .stuck := by
    intro state
    unfold Prog.zoom
    cases program state.2 <;> rfl
  refine ⟨fun before => ⟨fun value after run => ?_, fun error after run => ?_⟩, ?_, ?_, ?_⟩
  · rw [cases] at run
    split at run <;> cases run
    exact (even.goes _).1 _ _ ‹_›
  · rw [cases] at run
    split at run <;> cases run
    exact (even.goes _).2 _ _ ‹_›
  · intro before value after run spares
    rw [cases] at run ⊢
    split at run <;> cases run
    have ran := even.returns _ _ _ ‹_› spares
    show (match program before.2.calmed with | .ok _ _ => _ | .err _ _ => _ | .stuck => _) = _
    rw [show program before.2.calmed = _ from ran]
    rfl
  · intro before error after run spares
    rw [cases] at run ⊢
    split at run <;> cases run
    have ran := even.errs _ _ _ ‹_› spares
    show (match program before.2.calmed with | .ok _ _ => _ | .err _ _ => _ | .stuck => _) = _
    rw [show program before.2.calmed = _ from ran]
    rfl
  · intro strictly before value after run
    rw [cases] at run
    split at run <;> cases run
    exact even.spares strictly _ _ _ ‹_›

end Even

end Device

/-
The LSM step when a call fails.

Away from the failing call a step is the step without a failure (`logMutation_even`), so the facts about
calm worlds hold of it. A flush that returns was away from it (`flushInner_even`); a compaction need not
be, since it ignores the errors of the removals.

* `EngineInner.flushInner_even` - a flush that returns has not met the failing call.
* `Engine.logMutation_even` - a logged mutation away from the failing call is one without a failure.
-/

import Sastran.Engine.Runs
import Sastran.Library.Fault

namespace Sastran

open Device SsTable

variable {D : Type} {env : Env D} {strict : Prop}

/-! ### Calls of the device -/

theorem ioCall_even {α : Type} (step : Fs → Except Error (α × Fs)) : Even strict (ioCall step) :=
  Even.call _ step

theorem ioRead_even {α : Type} (step : Fs → Except Error α) : Even strict (ioRead step) :=
  ioCall_even _

theorem ofExcept_even {σ α : Type} [Clocked σ Fs] (value : Except Error α) :
    Even strict (Prog.ofExcept value : Prog Error σ α) := by
  cases value with
  | ok value => exact Even.pure value
  | error error => exact Even.throw error

theorem ignore_even {σ α : Type} [Clocked σ Fs] {program : Prog Error σ α} (even : Even False program) :
    Even False (ignore program) :=
  Even.bind even.attempt fun _ => Even.pure ()

theorem onWorld_even {σ α : Type} {program : IoM α} (even : Even strict program) :
    Even strict (onWorld program : Prog Error (σ × World Fs) α) := even.beside

theorem self_even {σ : Type} : Even strict (self : Prog Error (σ × World Fs) σ) := by
  refine ⟨fun state => ⟨fun value after run => ?_, nofun⟩, ?_, nofun, ?_⟩
  · cases run
    exact Passes.refl _ _
  · intro before value after run _
    cases run
    rfl
  · intro _ before value after run
    cases run
    exact Spares.refl _

theorem change_even {σ : Type} (next : σ → σ) :
    Even strict (change next : Prog Error (σ × World Fs) Unit) := by
  refine ⟨fun state => ⟨fun value after run => ?_, nofun⟩, ?_, nofun, ?_⟩
  · cases run
    exact Passes.refl _ state.2
  · intro before value after run _
    cases run
    rfl
  · intro _ before value after run
    cases run
    exact Spares.refl before.2

/-! ### Writing and reading tables -/

theorem FileAppend.isEmpty_even (file : FileAppend) : Even strict file.isEmpty :=
  Even.bind (ioRead_even _) fun _ => Even.pure _

namespace SsTableWriter

variable (hashes : Hashes)

theorem create_even (name : FileName) (expectedKeys bitsPerKey : Nat) :
    Even strict (create name expectedKeys bitsPerKey) := by
  refine Even.bind (ioCall_even _) fun file => Even.bind file.isEmpty_even fun isEmpty => ?_
  exact Even.ite (Even.throw _) (Even.pure _)

theorem flushCurrentBlock_even (writer : SsTableWriter) :
    Even strict (writer.flushCurrentBlock hashes) :=
  Even.bind (ioCall_even _) fun _ => Even.bind (Even.ofOption _) fun _ => Even.pure _

theorem push_even (writer : SsTableWriter) (key : Key) (entry : Entry) :
    Even strict (writer.push hashes key entry) := by
  unfold push
  cases writer.bloom with
  | none => exact Even.bind (Even.pure _) fun _ => Even.pure _
  | some filter => exact Even.bind (Even.ofOption _) fun _ => Even.pure _

theorem add_even (writer : SsTableWriter) (key : Key) (entry : Entry) :
    Even strict (writer.add hashes key entry) := by
  refine Even.ite (Even.throw _) (Even.ite (Even.throw _) (Even.ite ?_ (writer.push_even hashes key entry)))
  exact Even.bind (writer.flushCurrentBlock_even hashes) fun next => next.push_even hashes key entry

theorem finish_even (writer : SsTableWriter) : Even strict (writer.finish hashes) := by
  refine Even.bind (Even.ite (writer.flushCurrentBlock_even hashes) (Even.pure _)) fun writer => ?_
  refine Even.bind ?_ fun _ => Even.bind (ioCall_even _) fun _ => Even.bind (ioCall_even _) fun _ =>
    ioRead_even _
  unfold appendBloom
  split
  · exact ioCall_even _
  · exact Even.pure ()

end SsTableWriter

theorem SsTableReader.open_even (hashes : Hashes) (name : FileName) :
    Even strict (SsTableReader.open hashes name) := by
  refine Even.bind (ioRead_even _) fun file => Even.bind (ioRead_even _) fun fileLen => ?_
  refine Even.ite (Even.throw _) (Even.bind (ioRead_even _) fun footer => ?_)
  refine Even.ite (Even.throw _) (Even.bind (Even.ofOption _) fun indexEnd => ?_)
  refine Even.ite (Even.throw _) (Even.bind ?_ fun _ => Even.bind (ioRead_even _) fun bytes =>
    Even.bind (ofExcept_even _) fun index => Even.bind ?_ fun bloom => Even.pure _)
  · exact Even.ite (Even.pure ()) (Even.bind (Even.ofOption _) fun bloomEnd =>
      Even.ite (Even.throw _) (Even.pure ()))
  · exact Even.ite (Even.pure _) (Even.bind (ioRead_even _) fun bytes =>
      Even.bind (ofExcept_even _) fun filter => Even.pure _)

/-- A block that cannot be read is an item that is yielded. -/
theorem SsTableIterator.next_even (hashes : Hashes) (iterator : SsTableIterator) :
    Even False (iterator.next hashes) := by
  refine Even.loop (fun iterator => ?_) _ iterator
  unfold SsTableIterator.round
  split
  · exact Even.pure _
  · split
    · exact Even.pure _
    · refine Even.bind (Even.attempt (Even.bind (ioRead_even _) fun bytes =>
        ofExcept_even _)) fun block => ?_
      split
      · exact Even.pure _
      · exact Even.pure _

namespace MergingIterator

variable {S : Type} {pull : S → IoM (Option (Except Error (Key × Entry)) × S)}
  (even : ∀ source, Even strict (pull source))

include even

theorem new_even (sources : List (MergeSource S)) : Even strict (new pull sources) := by
  refine Even.foldM (fun merge source => Even.bind (even _) fun result => ?_) sources _
  obtain ⟨item, iter⟩ := result
  rcases item with _ | ⟨error | entry⟩
  · exact Even.pure _
  · exact Even.throw _
  · exact Even.pure _

theorem refill_even (merge : MergingIterator S) (idx : Nat) : Even strict (refill pull merge idx) := by
  refine Even.bind (Even.ofOption _) fun source => Even.bind (Even.ofOption _) fun sequence =>
    Even.bind (even _) fun result => ?_
  obtain ⟨item, source⟩ := result
  rcases item with _ | ⟨error | entry⟩
  · exact Even.pure _
  · exact Even.pure _
  · exact Even.pure _

theorem next_even (rounds : Nat) (merge : MergingIterator S) : Even strict (next pull rounds merge) := by
  refine Even.ite (Even.pure _) ?_
  split
  · exact Even.pure _
  · split
    · exact Even.pure _
    · refine Even.bind (Even.loop (fun merge => ?_) _ _) fun merge =>
        Even.bind (refill_even even _ _) fun _ => Even.pure _
      unfold drainRound
      split
      · exact Even.pure _
      · refine Even.ite (Even.pure _) (Even.bind (refill_even even _ _) fun result => ?_)
        obtain ⟨error, merge⟩ := result
        cases error
        · exact Even.pure _
        · exact Even.pure _

end MergingIterator

/-! ### Flush and compaction -/

theorem WalWriter.sync_even (writer : WalWriter) : Even strict writer.sync :=
  ioRead_even fun _ => .ok ()

theorem WalWriter.open_even (name : FileName) : Even strict (WalWriter.open name) := by
  refine Even.bind (ioCall_even _) fun file => Even.bind file.isEmpty_even fun isNew => ?_
  exact Even.ite (Even.bind (ioCall_even _) fun _ => Even.bind (ioRead_even _) fun _ =>
    Even.bind (ioRead_even _) fun _ => Even.pure _) (Even.pure _)

theorem writeTable_even (hashes : Hashes) (name : FileName) (expectedKeys bitsPerKey : Nat)
    (entries : List (Key × Entry)) :
    Even strict (writeTable hashes name expectedKeys bitsPerKey entries) := by
  refine Even.bind (SsTableWriter.create_even _ _ _) fun writer => Even.bind (Even.foldM ?_ _ _) fun writer =>
    writer.finish_even hashes
  exact fun writer entry => writer.add_even hashes entry.1 entry.2

namespace EngineInner

theorem publishTable_even (filename : FileName) : Even strict (publishTable env filename) :=
  Even.bind (ioCall_even _) fun _ => Even.bind (ioRead_even _) fun _ => SsTableReader.open_even env.hashes _

theorem rotateLog_even : Even strict rotateLog := by
  refine Even.bind (onWorld_even ?_) fun writer => change_even _
  exact Even.bind (ioCall_even _) fun _ => WalWriter.open_even _

/-- A flush that returns has not met the failing call. -/
theorem flushInner_even : Even strict (flushInner env) := by
  refine Even.bind self_even fun inner => Even.ite (onWorld_even inner.writer.sync_even) ?_
  refine Even.bind (onWorld_even (writeTable_even _ _ _ _ _)) fun _ => ?_
  refine Even.bind (onWorld_even (publishTable_even _)) fun reader => ?_
  exact Even.bind (Even.ofOption _) fun next => Even.bind (change_even _) fun _ => rotateLog_even

theorem maybeAutoFlush_even : Even strict (maybeAutoFlush env) :=
  Even.bind self_even fun _ => Even.ite flushInner_even (Even.pure ())

theorem mergeInputs_even (filename : FileName) (expectedKeys : Nat) (inputs : List SsTableEntry) :
    Even False (mergeInputs env filename expectedKeys inputs) := by
  have next := SsTableIterator.next_even env.hashes
  refine Even.bind (MergingIterator.new_even next _) fun merge =>
    Even.bind (SsTableWriter.create_even _ _ _) fun writer => Even.loop (fun state => ?_) _ _
  refine Even.bind (MergingIterator.next_even next _ _) fun result => ?_
  obtain ⟨item, merge⟩ := result
  rcases item with _ | ⟨error | ⟨key, entry⟩⟩
  · exact Even.pure _
  · exact Even.throw _
  · cases entry
    · exact Even.bind (SsTableWriter.add_even env.hashes _ _ _) fun writer => Even.pure _
    · exact Even.bind (SsTableWriter.add_even env.hashes _ _ _) fun writer => Even.pure _
    · exact Even.pure _

theorem installOutput_even (newId : Nat) (writer : SsTableWriter) (wroteAny : Bool) :
    Even False (installOutput env newId writer wroteAny) := by
  unfold installOutput
  refine Even.ite ?_ ?_
  · refine Even.bind (onWorld_even (writer.finish_even env.hashes)) fun _ => ?_
    refine Even.bind (onWorld_even (publishTable_even _)) fun reader => ?_
    exact Even.bind (Even.ofOption _) fun next => change_even _
  · refine Even.bind (onWorld_even (ignore_even (ioCall_even _))) fun _ => ?_
    exact Even.bind (Even.ofOption _) fun next => change_even _

theorem removeInputs_even (inputIds : List Nat) : Even False (removeInputs inputIds) := by
  refine Even.forEach (fun id => Even.forEach (fun level => ?_) _) _
  exact ignore_even (ioCall_even _)

theorem compactL0L1_even : Even False (compactL0L1 env) := by
  refine Even.bind self_even fun inner => ?_
  refine Even.bind (onWorld_even (mergeInputs_even _ _ _)) fun result => ?_
  refine Even.bind (installOutput_even _ _ _) fun _ => ?_
  refine Even.bind (onWorld_even (removeInputs_even _)) fun _ => ?_
  exact onWorld_even (ignore_even (ioRead_even _))

theorem maybeCompact_even : Even False (maybeCompact env) :=
  Even.bind self_even fun _ => Even.ite (Even.pure ()) compactL0L1_even

end EngineInner

namespace Engine

theorem logRecord_even (kind : RecordKind) (key value : Bytes) :
    Even strict (logRecord env kind key value) := by
  refine Even.bind (Even.bind self_even fun inner => Even.ite (Even.throw _) (Even.pure _)) fun inner => ?_
  refine Even.bind (onWorld_even (Even.bind (ofExcept_even _) fun _ => ioCall_even _)) fun _ => ?_
  refine Even.bind (onWorld_even inner.writer.sync_even) fun _ => Even.bind (change_even _) fun _ =>
    Even.pure _

/-- **A logged mutation** away from the failing call is one without a failure. -/
theorem logMutation_even (kind : RecordKind) (key value : Bytes) :
    Even False (logMutation env kind key value) := by
  refine Even.bind (logRecord_even _ _ _) fun before => Even.bind EngineInner.maybeAutoFlush_even fun _ =>
    Even.bind EngineInner.maybeCompact_even fun _ => Even.bind self_even fun inner => Even.pure _

end Engine

end Sastran

/-
Cyclic redundancy checks, bit by bit, and the bursts they detect.

* `Burst n one two` - byte strings of one length that agree but for at most `n` bytes in a row; slices of
  such strings are (`Burst.slice`).
* `step poly`, `feed poly`, `run poly` - the register of a reflected check of any width, shifted by a bit,
  fed with a byte and with a string. Where the polynomial's top bit is set no step loses anything
  (`run_injective`), and short strings are still in the register (`run_eq`).
* `burst_eq` - **a burst that fits into the register changes it**.
* `run_own` - a string with its own check behind it leaves a register that does not depend on the string.
-/

import Mathlib.Data.Nat.Bitwise
import Mathlib.Logic.Function.Iterate
import Sastran.Library.Bytes

/-! ### Bursts -/

/-- Strings that differ in at most `n` places in a row. -/
def Burst {α : Type} (n : Nat) (one two : List α) : Prop :=
  ∃ front before after back, one = front ++ (before ++ back) ∧ two = front ++ (after ++ back) ∧
    before.length = after.length ∧ before.length ≤ n

namespace Burst

variable {α : Type} {n : Nat} {one two : List α}

theorem length (burst : Burst n one two) : one.length = two.length := by
  obtain ⟨front, before, after, back, rfl, rfl, same, _⟩ := burst
  simp only [List.length_append, same]

theorem drop (burst : Burst n one two) (count : Nat) : Burst n (one.drop count) (two.drop count) := by
  obtain ⟨front, before, after, back, rfl, rfl, same, small⟩ := burst
  refine ⟨front.drop count, before.drop (count - front.length), after.drop (count - front.length),
    back.drop (count - front.length - before.length), ?_, ?_, ?_, ?_⟩
  · rw [List.drop_append, List.drop_append]
  · rw [List.drop_append, List.drop_append, same]
  · rw [List.length_drop, List.length_drop, same]
  · rw [List.length_drop]
    omega

theorem take (burst : Burst n one two) (count : Nat) : Burst n (one.take count) (two.take count) := by
  obtain ⟨front, before, after, back, rfl, rfl, same, small⟩ := burst
  refine ⟨front.take count, before.take (count - front.length), after.take (count - front.length),
    back.take (count - front.length - before.length), ?_, ?_, ?_, ?_⟩
  · rw [List.take_append, List.take_append]
  · rw [List.take_append, List.take_append, same]
  · rw [List.length_take, List.length_take, same]
  · rw [List.length_take]
    omega

/-- **What is cut out of such strings** is such a pair. -/
theorem slice {one two : List UInt8} (burst : Burst n one two) (start count : Nat) :
    Burst n (LittleEndian.slice one start count) (LittleEndian.slice two start count) :=
  (burst.drop start).take count

end Burst

/-! ### The register -/

namespace Crc

open LittleEndian

variable {w : Nat} (poly : BitVec w)

/-- Shift the register by a bit. -/
def step (register : BitVec w) : BitVec w :=
  if register.getLsbD 0 then (register >>> 1) ^^^ poly else register >>> 1

/-- Feed the register with a byte. -/
def feed (register : BitVec w) (byte : UInt8) : BitVec w :=
  (step poly)^[8] (register ^^^ byte.toBitVec.setWidth w)

/-- Feed the register with a string. -/
def run (register : BitVec w) (bytes : List UInt8) : BitVec w := bytes.foldl (feed poly) register

variable {poly}

theorem run_append (register : BitVec w) (front back : List UInt8) :
    run poly register (front ++ back) = run poly (run poly register front) back :=
  List.foldl_append

theorem getLsbD_step (register : BitVec w) (i : Nat) : (step poly register).getLsbD i =
    (register.getLsbD (i + 1) ^^ (register.getLsbD 0 && poly.getLsbD i)) := by
  unfold step
  by_cases low : register.getLsbD 0
  · rw [if_pos low, BitVec.getLsbD_xor, BitVec.getLsbD_ushiftRight, low, Bool.true_and, Nat.add_comm 1]
  · rw [if_neg low, BitVec.getLsbD_ushiftRight, Bool.eq_false_iff.mpr low, Bool.false_and, Bool.xor_false,
      Nat.add_comm 1]

/-- **No step loses anything**: the bit that was shifted out is at the top. -/
theorem step_injective (top : poly.getLsbD (w - 1) = true) : Function.Injective (step poly) := by
  intro one two same
  have bits : ∀ i, (one.getLsbD (i + 1) ^^ (one.getLsbD 0 && poly.getLsbD i)) =
      (two.getLsbD (i + 1) ^^ (two.getLsbD 0 && poly.getLsbD i)) := fun i => by
    rw [← getLsbD_step, ← getLsbD_step, same]
  have wide : 0 < w := by
    by_contra none
    rw [BitVec.getLsbD_of_ge _ _ (by omega)] at top
    cases top
  have low : one.getLsbD 0 = two.getLsbD 0 := by
    have highest := bits (w - 1)
    rwa [Nat.sub_add_cancel wide, BitVec.getLsbD_of_ge one w le_rfl, BitVec.getLsbD_of_ge two w le_rfl, top,
      Bool.and_true, Bool.and_true, Bool.false_xor, Bool.false_xor] at highest
  refine BitVec.eq_of_getLsbD_eq fun i _ => ?_
  cases i with
  | zero => exact low
  | succ i =>
    have here := bits i
    rw [low] at here
    exact Bool.xor_left_inj.mp here

theorem feed_injective (top : poly.getLsbD (w - 1) = true) (byte : UInt8) :
    Function.Injective fun register => feed poly register byte := by
  intro one two same
  have inner := (step_injective top).iterate 8 same
  exact (BitVec.xor_left_inj _).mp inner

/-- **No string loses anything** of what came before it. -/
theorem run_injective (top : poly.getLsbD (w - 1) = true) (bytes : List UInt8) :
    Function.Injective fun register => run poly register bytes := by
  induction bytes with
  | nil => exact fun _ _ same => same
  | cons byte rest ih => exact fun _ _ same => feed_injective top byte (ih same)

/-! ### Short strings -/

theorem leNat_lt_two_pow {bytes : List UInt8} {bits : Nat} (fits : 8 * bytes.length ≤ bits) :
    leNat bytes < 2 ^ bits :=
  calc leNat bytes < (2 ^ 8) ^ bytes.length := leNat_lt bytes
    _ = 2 ^ (8 * bytes.length) := (pow_mul 2 8 _).symm
    _ ≤ 2 ^ bits := Nat.pow_le_pow_right Nat.two_pos fits

/-- The string as a register. -/
def pack (w : Nat) (bytes : List UInt8) : BitVec w := BitVec.ofNat w (leNat bytes)

theorem getLsbD_pack_cons (byte : UInt8) (rest : List UInt8) {i : Nat} (inside : i < w) :
    (pack w (byte :: rest)).getLsbD i =
      if i < 8 then byte.toBitVec.getLsbD i else (leNat rest).testBit (i - 8) := by
  have shape : leNat (byte :: rest) = 2 ^ 8 * leNat rest + byte.toNat := by
    rw [leNat]
    omega
  rw [pack, BitVec.getLsbD_ofNat, shape, Nat.testBit_two_pow_mul_add _ byte.toNat_lt,
    decide_eq_true inside, Bool.true_and]
  rfl

/-- A string in front of the rest. -/
theorem pack_cons (byte : UInt8) (rest : List UInt8) :
    pack w (byte :: rest) = byte.toBitVec.setWidth w ^^^ (pack w rest <<< 8) := by
  refine BitVec.eq_of_getLsbD_eq fun i inside => ?_
  rw [getLsbD_pack_cons byte rest inside, BitVec.getLsbD_xor, BitVec.getLsbD_setWidth,
    BitVec.getLsbD_shiftLeft, pack, BitVec.getLsbD_ofNat]
  by_cases low : i < 8
  · simp [low, inside]
  · have high : byte.toBitVec.getLsbD i = false := BitVec.getLsbD_of_ge _ _ (not_lt.mp low)
    have inside' : i - 8 < w := by omega
    simp [low, inside, high, inside']

/-- A step moves what lies above the lowest bit down. -/
theorem step_xor_shift (register : BitVec w) {above : BitVec w} (room : above.getLsbD (w - 1) = false) :
    step poly (register ^^^ above <<< 1) = step poly register ^^^ above := by
  refine BitVec.eq_of_getLsbD_eq fun i inside => ?_
  rw [BitVec.getLsbD_xor, getLsbD_step, getLsbD_step]
  simp only [BitVec.getLsbD_xor, BitVec.getLsbD_shiftLeft]
  by_cases last : i + 1 < w
  · cases register.getLsbD (i + 1) <;> cases register.getLsbD 0 <;> cases poly.getLsbD i <;>
      simp [last]
  · have here : above.getLsbD i = false := by
      rwa [show i = w - 1 by omega]
    cases register.getLsbD (i + 1) <;> cases register.getLsbD 0 <;> cases poly.getLsbD i <;>
      simp [last, here]

/-- So do several steps. -/
theorem iterate_xor_shift (count : Nat) (register : BitVec w) {above : BitVec w}
    (room : ∀ i, w ≤ i + count → above.getLsbD i = false) :
    (step poly)^[count] (register ^^^ above <<< count) = (step poly)^[count] register ^^^ above := by
  induction count generalizing register with
  | zero => rw [BitVec.shiftLeft_zero, Function.iterate_zero, id, id]
  | succ count ih =>
    have top : (above <<< count).getLsbD (w - 1) = false := by
      rw [BitVec.getLsbD_shiftLeft]
      by_cases reached : w - 1 < count
      · simp [reached]
      · rw [room (w - 1 - count) (by omega), Bool.and_false]
    rw [Function.iterate_succ_apply, Function.iterate_succ_apply, BitVec.shiftLeft_add,
      step_xor_shift register top]
    exact ih (step poly register) fun i reached => room i (by omega)

/-- **A string that fits into the register** is fed by one sum and the shifts. -/
theorem run_eq (register : BitVec w) {bytes : List UInt8} (fits : 8 * bytes.length ≤ w) :
    run poly register bytes = (step poly)^[8 * bytes.length] (register ^^^ pack w bytes) := by
  induction bytes generalizing register with
  | nil => simp [run, pack, leNat]
  | cons byte rest ih =>
    rw [List.length_cons] at fits
    have room : ∀ i, w ≤ i + 8 → (pack w rest).getLsbD i = false := by
      intro i reached
      rw [pack, BitVec.getLsbD_ofNat]
      rw [Nat.testBit_lt_two_pow (leNat_lt_two_pow (by omega)), Bool.and_false]
    have fed : run poly register (byte :: rest) = run poly (feed poly register byte) rest := rfl
    rw [fed, ih _ (by omega), feed, ← iterate_xor_shift 8 _ room, ← Function.iterate_add_apply,
      BitVec.xor_assoc, ← pack_cons, List.length_cons, Nat.mul_succ]

/-- A string that fits into the register can be read off it. -/
theorem pack_injective {one two : List UInt8} (fits : 8 * one.length ≤ w) (length : one.length = two.length)
    (same : pack w one = pack w two) : one = two := by
  have numbers : leNat one = leNat two := by
    have read := congrArg BitVec.toNat same
    rwa [pack, pack, BitVec.toNat_ofNat, BitVec.toNat_ofNat, Nat.mod_eq_of_lt
      (leNat_lt_two_pow fits), Nat.mod_eq_of_lt (leNat_lt_two_pow (length ▸ fits))] at read
  rw [← leBytes_leNat one, ← leBytes_leNat two, length, numbers]

/-! ### Detection -/

/-- **A burst that fits into the register changes it.** -/
theorem burst_eq (top : poly.getLsbD (w - 1) = true) {n : Nat} (fits : 8 * n ≤ w) {one two : List UInt8}
    (burst : Burst n one two) {register : BitVec w} (same : run poly register one = run poly register two) :
    one = two := by
  obtain ⟨front, before, after, back, rfl, rfl, length, small⟩ := burst
  rw [run_append, run_append, run_append, run_append] at same
  have inner : run poly (run poly register front) before = run poly (run poly register front) after :=
    run_injective top back same
  rw [run_eq _ (by omega : 8 * before.length ≤ w), run_eq _ (by omega : 8 * after.length ≤ w), ← length]
    at inner
  have packed := (BitVec.xor_right_inj _).mp ((step_injective top).iterate _ inner)
  rw [pack_injective (by omega) length packed]

/-- **A string with its own check behind it** leaves a register that does not depend on the string, and no
other bytes there do. -/
theorem run_own (top : poly.getLsbD (w - 1) = true) (register mask : BitVec w) (front : List UInt8)
    {back : List UInt8} (fits : 8 * back.length ≤ w) :
    run poly register (front ++ back) = (step poly)^[8 * back.length] mask ↔
      pack w back = run poly register front ^^^ mask := by
  rw [run_append, run_eq _ fits]
  constructor
  · intro same
    have inner := (step_injective top).iterate _ same
    rw [← inner, ← BitVec.xor_assoc, BitVec.xor_self, BitVec.zero_xor]
  · intro same
    rw [same, ← BitVec.xor_assoc, BitVec.xor_self, BitVec.zero_xor]

end Crc

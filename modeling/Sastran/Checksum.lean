/-
CRC-32, the check on everything that is stored: log records, blocks and filters of tables, snapshots.

* `crc32_burst` - four bytes in a row cannot be changed without changing it.
* `checked_burst` - nor can they where it is stored behind the bytes, wherever in the two they are.
-/

import Sastran.Base
import Sastran.Library.Crc

namespace Sastran

open LittleEndian

/-- The checksum of records, bit by bit. -/
def crc32 (bytes : Bytes) : UInt32 :=
  let step (crc : UInt32) : UInt32 := if crc &&& 1 = 1 then (crc >>> 1) ^^^ 0xEDB88320 else crc >>> 1
  bytes.foldl (fun crc byte => step^[8] (crc ^^^ byte.toUInt32)) 0xFFFFFFFF ^^^ 0xFFFFFFFF

example : crc32 [49, 50, 51, 52, 53, 54, 55, 56, 57] = 0xCBF43926 := by decide +kernel

namespace Crc32

/-- The polynomial, reflected. -/
def polynomial : BitVec 32 := 0xEDB88320#32

/-- What the register starts with, and what is added to it at the end. -/
def ones : BitVec 32 := 0xFFFFFFFF#32

theorem polynomial_top : polynomial.getLsbD (32 - 1) = true := by decide

theorem step_eq (crc : UInt32) :
    (if crc &&& 1 = 1 then (crc >>> 1) ^^^ 0xEDB88320 else crc >>> 1 : UInt32).toBitVec =
      Crc.step polynomial crc.toBitVec := by
  have low : crc &&& 1 = 1 ↔ crc.toBitVec.getLsbD 0 = true := by
    rw [← UInt32.toBitVec_inj, UInt32.toBitVec_and]
    show crc.toBitVec &&& 1#32 = 1#32 ↔ _
    rw [BitVec.and_one_eq_setWidth_ofBool_getLsbD]
    cases crc.toBitVec.getLsbD 0 <;> decide
  unfold Crc.step
  by_cases odd : crc &&& 1 = 1
  · rw [if_pos odd, if_pos (low.mp odd)]
    rfl
  · rw [if_neg odd, if_neg fun bit => odd (low.mpr bit)]
    rfl

end Crc32

open Crc32

/-- The checksum is that of the register. -/
theorem crc32_eq (bytes : Bytes) :
    (crc32 bytes).toBitVec = Crc.run polynomial ones bytes ^^^ ones := by
  have iterate : ∀ (count : Nat) (crc : UInt32),
      ((fun crc : UInt32 => if crc &&& 1 = 1 then (crc >>> 1) ^^^ 0xEDB88320 else crc >>> 1)^[count]
        crc).toBitVec = (Crc.step polynomial)^[count] crc.toBitVec := by
    intro count
    induction count with
    | zero => exact fun _ => rfl
    | succ count ih =>
      intro crc
      rw [Function.iterate_succ_apply, Function.iterate_succ_apply, ih, step_eq]
  have folded : ∀ (bytes : Bytes) (crc : UInt32),
      (bytes.foldl (fun crc byte => (fun crc : UInt32 => if crc &&& 1 = 1 then (crc >>> 1) ^^^ 0xEDB88320
        else crc >>> 1)^[8] (crc ^^^ byte.toUInt32)) crc).toBitVec =
        Crc.run polynomial crc.toBitVec bytes := by
    intro bytes
    induction bytes with
    | nil => exact fun _ => rfl
    | cons byte rest ih =>
      intro crc
      rw [List.foldl_cons, ih, iterate]
      rfl
  unfold crc32
  rw [UInt32.toBitVec_xor, folded]
  rfl

/-- **Four bytes in a row cannot be changed** without changing the checksum. -/
theorem crc32_burst {one two : Bytes} (burst : Burst 4 one two) (same : crc32 one = crc32 two) :
    one = two := by
  have registers := congrArg UInt32.toBitVec same
  rw [crc32_eq, crc32_eq] at registers
  exact Crc.burst_eq polynomial_top (by decide) burst ((BitVec.xor_left_inj _).mp registers)

/-- A checksum is stored behind the bytes if the register ends with one value. -/
theorem stored_iff (bytes : Bytes) {stored : Bytes} (four : stored.length = 4) :
    UInt32.ofNat (leNat stored) = crc32 bytes ↔
      Crc.run polynomial ones (bytes ++ stored) = (Crc.step polynomial)^[32] ones := by
  have own := Crc.run_own polynomial_top ones ones bytes (by rw [four] : 8 * stored.length ≤ 32)
  rw [four] at own
  rw [own, ← UInt32.toBitVec_inj, crc32_eq]
  exact Iff.rfl

/-- **Nor can they where the checksum is stored behind the bytes.** -/
theorem checked_burst {bytes bytes' : Bytes} (burst : Burst 4 bytes bytes') (long : 4 ≤ bytes.length)
    (right : UInt32.ofNat (leNat (slice bytes (bytes.length - 4) 4)) =
      crc32 (bytes.take (bytes.length - 4)))
    (right' : UInt32.ofNat (leNat (slice bytes' (bytes'.length - 4) 4)) =
      crc32 (bytes'.take (bytes'.length - 4))) : bytes = bytes' := by
  have whole : ∀ bytes : Bytes, 4 ≤ bytes.length →
      bytes.take (bytes.length - 4) ++ slice bytes (bytes.length - 4) 4 = bytes := by
    intro bytes long
    have tail : slice bytes (bytes.length - 4) 4 = bytes.drop (bytes.length - 4) :=
      List.take_of_length_le (by rw [List.length_drop]; omega)
    rw [tail, List.take_append_drop]
  have four : ∀ bytes : Bytes, 4 ≤ bytes.length → (slice bytes (bytes.length - 4) 4).length = 4 :=
    fun bytes long => slice_length (by omega)
  have long' : 4 ≤ bytes'.length := burst.length ▸ long
  rw [stored_iff _ (four bytes long), whole bytes long] at right
  rw [stored_iff _ (four bytes' long'), whole bytes' long'] at right'
  exact Crc.burst_eq polynomial_top (by decide) burst (right.trans right'.symm)

end Sastran

/-
Byte strings: little-endian integers and the order of bytes.

`leBytes width value` is the little-endian image of `value` on `width` bytes (reduced modulo
`256 ^ width`), `leNat` reads one back; they are inverse to each other on their ranges.
-/

import Mathlib.Order.Lattice
import Mathlib.Tactic.Ring

/-- Bytes are ordered as numbers. -/
instance UInt8.linearOrder : LinearOrder UInt8 where
  le_refl := UInt8.le_refl
  le_trans _ _ _ := UInt8.le_trans
  le_antisymm _ _ := UInt8.le_antisymm
  le_total := UInt8.le_total
  lt_iff_le_not_ge first second := by
    rw [UInt8.lt_iff_toNat_lt, UInt8.le_iff_toNat_le, UInt8.le_iff_toNat_le]
    omega
  toDecidableLE := inferInstance
  toDecidableLT := inferInstance
  toDecidableEq := inferInstance
  compare_eq_compareOfLessAndEq _ _ := rfl

namespace LittleEndian

/-- The low `width` bytes of a number, least significant first. -/
def leBytes : Nat → Nat → List UInt8
  | 0, _ => []
  | width + 1, value => UInt8.ofNat value :: leBytes width (value / 256)

/-- The number with the given bytes, least significant first. -/
def leNat : List UInt8 → Nat
  | [] => 0
  | byte :: rest => byte.toNat + 256 * leNat rest

@[simp] theorem leBytes_length (width value : Nat) : (leBytes width value).length = width := by
  induction width generalizing value with
  | zero => rfl
  | succ width ih => rw [leBytes, List.length_cons, ih]

theorem leNat_lt (bytes : List UInt8) : leNat bytes < 256 ^ bytes.length := by
  induction bytes with
  | nil => exact Nat.one_pos
  | cons byte rest ih =>
    have small := byte.toNat_lt
    rw [leNat, List.length_cons, pow_succ]
    omega

/-- Reading back an image gives the number, reduced to the width. -/
theorem leNat_leBytes (width value : Nat) : leNat (leBytes width value) = value % 256 ^ width := by
  induction width generalizing value with
  | zero => rw [leBytes, leNat, pow_zero, Nat.mod_one]
  | succ width ih =>
    have wide : 256 ^ (width + 1) = 256 * 256 ^ width := pow_succ' 256 width
    rw [leBytes, leNat, ih, UInt8.toNat_ofNat', wide, Nat.mod_mul]

theorem leNat_leBytes_of_lt {width value : Nat} (small : value < 256 ^ width) :
    leNat (leBytes width value) = value := by
  rw [leNat_leBytes, Nat.mod_eq_of_lt small]

/-- **A byte string is the image of the number it reads as.** -/
theorem leBytes_leNat (bytes : List UInt8) : leBytes bytes.length (leNat bytes) = bytes := by
  induction bytes with
  | nil => rfl
  | cons byte rest ih =>
    have small := byte.toNat_lt
    have head : UInt8.ofNat (byte.toNat + 256 * leNat rest) = byte := by
      apply UInt8.toNat_inj.mp
      rw [UInt8.toNat_ofNat', Nat.add_mul_mod_self_left, Nat.mod_eq_of_lt small]
    have tail : (byte.toNat + 256 * leNat rest) / 256 = leNat rest := by omega
    rw [List.length_cons, leNat, leBytes, head, tail, ih]

/-- Reading the image of a fitting number off the front of a byte string. -/
theorem leNat_take_leBytes {width value : Nat} (small : value < 256 ^ width) (rest : List UInt8) :
    leNat ((leBytes width value ++ rest).take width) = value := by
  rw [List.take_left' (leBytes_length width value), leNat_leBytes_of_lt small]

/-- The `count` bytes from position `start`. -/
def slice (bytes : List UInt8) (start count : Nat) : List UInt8 := (bytes.drop start).take count

theorem slice_length {bytes : List UInt8} {start count : Nat}
    (inside : start + count ≤ bytes.length) : (slice bytes start count).length = count := by
  rw [slice, List.length_take, List.length_drop]
  omega

/-- A slice that lies inside a prefix is a slice of the prefix. -/
theorem slice_append_left {front : List UInt8} (bytes : List UInt8) {start count : Nat}
    (inside : start + count ≤ front.length) :
    slice (front ++ bytes) start count = slice front start count := by
  rw [slice, slice, List.drop_append_of_le_length (by omega),
    List.take_append_of_le_length (by rw [List.length_drop]; omega)]

theorem slice_slice (bytes : List UInt8) {start count start' count' : Nat}
    (inside : start' + count' ≤ count) :
    slice (slice bytes start count) start' count' = slice bytes (start + start') count' := by
  rw [slice, slice, slice, List.drop_take, List.take_take, List.drop_drop,
    Nat.min_eq_left (by omega)]

theorem slice_add (bytes : List UInt8) (start first second : Nat) :
    slice bytes start (first + second) = slice bytes start first ++ slice bytes (start + first) second := by
  rw [slice, slice, slice, List.take_add, List.drop_drop]

theorem slice_one {bytes : List UInt8} {position : Nat} (inside : position < bytes.length) :
    slice bytes position 1 = [bytes.getD position 0] := by
  rw [slice, List.drop_eq_getElem_cons inside, List.getD_eq_getElem?_getD,
    List.getElem?_eq_getElem inside]
  rfl

/-- A field is the image of the number it reads as. -/
theorem leBytes_slice {bytes : List UInt8} {position width : Nat}
    (inside : position + width ≤ bytes.length) :
    leBytes width (leNat (slice bytes position width)) = slice bytes position width := by
  have image := leBytes_leNat (slice bytes position width)
  rwa [slice_length inside] at image

theorem drop_leBytes (width value : Nat) (rest : List UInt8) :
    (leBytes width value ++ rest).drop width = rest :=
  List.drop_left' (leBytes_length width value)

end LittleEndian

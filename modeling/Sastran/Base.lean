/-
What every module shares: byte strings, errors, single-precision components, and the code outside
the repository as parameters.

* `Error` - the crate's error type, with the texts of its messages.
* `F32` - a component by its bit pattern; finiteness and zero are read off the bits.
* `Hashes` - CRC-32 and the 128-bit xxh3 digest, two fixed functions of their input.
* `FloatOps` - single-precision arithmetic, a total order of distances, and the random levels of new
  nodes.
-/

import Mathlib.Data.Char
import Mathlib.Data.List.Lex
import Sastran.Library.Bytes
import Sastran.Library.Program
import Sastran.Library.SortedMap

namespace Sastran

open LittleEndian

abbrev Bytes := List UInt8

abbrev Key := Bytes

/-! ### Errors -/

/-- Why an I/O call failed. -/
inductive IoError where
  | notFound
  | unexpectedEof
  | fileTooLarge
  | fault
  deriving DecidableEq, Repr

inductive Error where
  | io (error : IoError)
  | corruption (text : String)
  | invalidArgument (text : String)
  | closed
  deriving DecidableEq, Repr

/-- The eight-digit hexadecimal form of a 32-bit number, with its prefix. -/
def hex32 (value : Nat) : String :=
  let digits := Nat.toDigits 16 value
  "0x" ++ String.ofList (List.replicate (8 - digits.length) '0' ++ digits)

/-- The two-digit hexadecimal form of a byte, with its prefix. -/
def hex8 (value : Nat) : String :=
  let digits := Nat.toDigits 16 value
  "0x" ++ String.ofList (List.replicate (2 - digits.length) '0' ++ digits)

/-- The bytes of an ASCII literal. -/
def ascii (text : String) : Bytes := text.toList.map fun letter => UInt8.ofNat letter.toNat

/-- The bound of 64-bit integers. -/
def u64Bound : Nat := 2 ^ 64

/-- The bound of the bytes that a `Vec` may be asked to hold; from there on `with_capacity` panics. -/
def isizeBound : Nat := 2 ^ 63

/-! ### Vector components -/

/-- A single-precision number, as its bit pattern. -/
abbrev F32 := UInt32

/-- Neither infinite nor a NaN: the exponent bits are not all ones. -/
def F32.isFinite (component : F32) : Bool := component.toNat / 2 ^ 23 % 256 != 255

/-- Positive or negative zero: all bits but the sign are clear. -/
def F32.isZero (component : F32) : Bool := component.toNat % 2 ^ 31 == 0

def F32.toLeBytes (component : F32) : Bytes := leBytes 4 component.toNat

def F32.fromLeBytes (bytes : Bytes) : F32 := UInt32.ofNat (leNat bytes)

theorem F32.fromLeBytes_toLeBytes (component : F32) :
    F32.fromLeBytes component.toLeBytes = component := by
  have small : component.toNat < 256 ^ 4 := component.toNat_lt
  rw [F32.fromLeBytes, F32.toLeBytes, leNat_leBytes_of_lt small]
  exact UInt32.ofNat_toNat

/-! ### Index parameters -/

inductive DistanceMetric where
  | cosine
  | euclideanSquared
  | innerProduct
  deriving DecidableEq, Repr

abbrev NodeId := Nat

structure HnswParams where
  metric : DistanceMetric
  m : Nat
  mMax0 : Nat
  efConstruction : Nat
  efSearch : Nat
  dim : Nat
  seed : Nat
  deriving DecidableEq, Repr

/-! ### Code outside the repository -/

/-- The hash functions of the file formats. -/
structure Hashes where
  crc32 : Bytes → UInt32
  /-- The low and the high half of the digest. -/
  xxh3_128 : Bytes → UInt64 × UInt64

/-- Single-precision arithmetic and the random levels of new nodes. Distances are compared through
`rank`, a total order: NaN distances are left out. -/
structure FloatOps (D : Type) where
  sub : F32 → F32 → F32
  mul : F32 → F32 → F32
  div : F32 → F32 → F32
  neg : F32 → F32
  sqrt : F32 → F32
  sum : List F32 → F32
  rank : F32 → D
  /-- The floor of the exponential sample a generator seeded from the parameters draws, by the
  number of samples drawn before. -/
  levelSample : HnswParams → Nat → Int

end Sastran

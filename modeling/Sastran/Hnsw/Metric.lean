/-
The distance metrics of the vector index and what a vector goes through before it is stored.

Smaller is closer for every metric. Cosine distance is that of unit vectors, so vectors are
normalized first and those without a direction are rejected; the other metrics only check that the
components are finite.
-/

import Sastran.Base

namespace Sastran

/-- The number one. -/
def F32.one : F32 := 0x3F800000

/-- Positive infinity. -/
def F32.infinity : F32 := 0x7F800000

namespace FloatOps

variable {D : Type} (ops : FloatOps D)

def dot (a b : List F32) : F32 := ops.sum ((a.zip b).map fun pair => ops.mul pair.1 pair.2)

def distanceCosine (a b : List F32) : F32 := ops.sub F32.one (ops.dot a b)

def distanceEuclideanSquared (a b : List F32) : F32 :=
  ops.sum ((a.zip b).map fun pair =>
    let d := ops.sub pair.1 pair.2
    ops.mul d d)

def distanceNegatedInnerProduct (a b : List F32) : F32 := ops.neg (ops.dot a b)

def distanceForMetric (metric : DistanceMetric) (a b : List F32) : D :=
  ops.rank (match metric with
    | .cosine => ops.distanceCosine a b
    | .euclideanSquared => ops.distanceEuclideanSquared a b
    | .innerProduct => ops.distanceNegatedInnerProduct a b)

/-- The distance of no node. -/
def infinity : D := ops.rank F32.infinity

def normalize (v : List F32) : Option (List F32) :=
  let norm := ops.sqrt (ops.sum (v.map fun x => ops.mul x x))
  if norm.isZero ∨ ¬ norm.isFinite then none else some (v.map fun x => ops.div x norm)

def preprocessVector (metric : DistanceMetric) (v : List F32) : Option (List F32) :=
  match metric with
  | .cosine => ops.normalize v
  | .euclideanSquared | .innerProduct => if v.all F32.isFinite then some v else none

/-- Preprocessing keeps the dimension. -/
theorem preprocess_length {ops : FloatOps D} {metric : DistanceMetric} {v processed : List F32}
    (accepted : ops.preprocessVector metric v = some processed) : processed.length = v.length := by
  cases metric with
  | cosine =>
    simp only [preprocessVector, normalize] at accepted
    split at accepted
    · cases accepted
    · cases accepted
      exact List.length_map _
  | euclideanSquared | innerProduct =>
    simp only [preprocessVector] at accepted
    split at accepted
    · cases accepted
      rfl
    · cases accepted

/-- Arithmetic on the components zero and one, right where a vector has one component one at most.
Every level is 0, and distances are ranked by value. -/
def zeroOne : FloatOps Nat where
  sub x y := if x = y then 0 else if y = 0 then x else 0xBF800000
  mul x y := if x = F32.one then y else 0
  div x _ := x
  neg x := if x = 0 then 0 else x ^^^ 0x80000000
  sqrt x := x
  sum components := (components.find? (· ≠ 0)).getD 0
  rank x := if x.toNat < 2 ^ 31 then 2 ^ 31 + x.toNat else 2 ^ 32 - x.toNat
  levelSample _ _ := 0

end FloatOps

/-! ### Whole numbers -/

namespace F32

/-- The absolute value of a whole number below `2 ^ 24`. -/
def toWhole (x : F32) : Nat :=
  let exponent := (x.toNat >>> 23) % 256
  if exponent < 127 then 0 else (2 ^ 23 + x.toNat % 2 ^ 23) >>> (150 - exponent)

def isNegative (x : F32) : Bool := x.toNat ≥ 2 ^ 31

def ofWhole (negative : Bool) (n : Nat) : F32 :=
  if n = 0 then 0
  else
    UInt32.ofNat ((if negative then 2 ^ 31 else 0) + (127 + n.log2) * 2 ^ 23 +
      (n <<< (23 - n.log2)) % 2 ^ 23)

end F32

/-- Differences, products and sums of whole numbers, right where no absolute value reaches `2 ^ 24` and
nothing negative is summed. Every level is 0, and distances are ranked by value. -/
def FloatOps.whole : FloatOps Nat :=
  { FloatOps.zeroOne with
    sub := fun x y => F32.ofWhole (x.toWhole < y.toWhole)
      ((x.toWhole - y.toWhole) + (y.toWhole - x.toWhole))
    mul := fun x y => F32.ofWhole (x.isNegative != y.isNegative) (x.toWhole * y.toWhole)
    sum := fun components => F32.ofWhole false (components.map F32.toWhole).sum }

example : FloatOps.whole.distanceForMetric .euclideanSquared [0x40E00000] [0x420C0000] =
    FloatOps.whole.rank 0x44440000 := by decide

end Sastran

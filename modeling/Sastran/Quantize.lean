/-
The 8-bit scalar quantizer of embedding vectors, with exact arithmetic in place of single precision.

* `ExactF32` - a rational, an infinity or a NaN, with the operations the quantizer uses.
* `ScalarQuantizer` - the ranges of the dimensions: `train`, `quantize`, `dequantize`, `roundTrip`.
* `Range` - what one dimension learned. `train_learned` says that an accepted sample gives each
  dimension the least range around its components, and `quantizeComponent_wide` that a component goes
  to its level among 256 in that range.
* `quantizer_laws` - **per dimension: monotone, saturating, half a step of error, and bytes survive.**
-/

import Mathlib.Data.Rat.Floor
import Mathlib.Data.List.Forall2
import Sastran.Base
import Sastran.Library.Partial
import Sastran.Library.Rounding

namespace Sastran

/-! ### Exact components -/

/-- A single-precision number without rounding: zeros have no sign, and nothing overflows. -/
inductive ExactF32 where
  | finite (value : ℚ)
  | infinite (negative : Bool)
  | nan
  deriving DecidableEq

namespace ExactF32

def isFinite : ExactF32 → Bool
  | finite _ => true
  | _ => false

/-- The order of IEEE comparisons: a NaN is neither below nor above anything. -/
def le : ExactF32 → ExactF32 → Bool
  | nan, _ | _, nan => false
  | infinite true, _ | _, infinite false => true
  | finite x, finite y => x ≤ y
  | _, _ => false

def lt (x y : ExactF32) : Bool := x.le y && !y.le x

def add : ExactF32 → ExactF32 → ExactF32
  | finite x, finite y => finite (x + y)
  | nan, _ | _, nan => nan
  | infinite s, infinite t => if s = t then infinite s else nan
  | infinite s, finite _ | finite _, infinite s => infinite s

def neg : ExactF32 → ExactF32
  | finite x => finite (-x)
  | infinite s => infinite !s
  | nan => nan

def sub (x y : ExactF32) : ExactF32 := x.add y.neg

def mul : ExactF32 → ExactF32 → ExactF32
  | finite x, finite y => finite (x * y)
  | nan, _ | _, nan => nan
  | infinite s, infinite t => infinite (s != t)
  | infinite s, finite x | finite x, infinite s => if x = 0 then nan else infinite (s != (x < 0))

def div : ExactF32 → ExactF32 → ExactF32
  | finite x, finite y =>
    if y = 0 then if x = 0 then nan else infinite (x < 0) else finite (x / y)
  | nan, _ | _, nan | infinite _, infinite _ => nan
  | infinite s, finite x => infinite (s != (x < 0))
  | finite _, infinite _ => finite 0

def round : ExactF32 → ExactF32
  | finite x => finite (roundAway x)
  | x => x

def clamp (x low high : ExactF32) : ExactF32 := if x.lt low then low else if high.lt x then high else x

/-- The cast to a byte drops the fraction and saturates. -/
def toU8 : ExactF32 → UInt8
  | finite x => UInt8.ofNat (min 255 ⌊x⌋.toNat)
  | infinite negative => if negative then 0 else 255
  | nan => 0

def ofU8 (byte : UInt8) : ExactF32 := finite byte.toNat

theorem lt_finite {x y : ℚ} : (finite x).lt (finite y) = true ↔ x < y := by
  show (decide (x ≤ y) && !decide (y ≤ x)) = true ↔ x < y
  rw [Bool.and_eq_true, decide_eq_true_eq, Bool.not_eq_true', decide_eq_false_iff_not, not_le]
  exact ⟨And.right, fun less => ⟨less.le, less⟩⟩

/-- Clamping and casting a whole number. -/
theorem toU8_clamp (position : Int) :
    ((finite position).clamp (finite 0) (finite 255)).toU8 =
      UInt8.ofNat (max 0 (min 255 position)).toNat := by
  rw [clamp]
  by_cases under : position < 0
  · rw [if_pos (lt_finite.mpr (by exact_mod_cast under)), max_eq_left ((min_le_right _ _).trans under.le)]
    rfl
  · rw [if_neg fun h => under (by exact_mod_cast lt_finite.mp h)]
    by_cases past : 255 < position
    · rw [if_pos (lt_finite.mpr (by exact_mod_cast past)), min_eq_left past.le]
      rfl
    · rw [if_neg fun h => past (by exact_mod_cast lt_finite.mp h), toU8, Int.floor_intCast]
      exact congrArg UInt8.ofNat (by omega)

end ExactF32

open ExactF32

/-! ### The quantizer -/

structure ScalarQuantizer where
  min : List ExactF32
  max : List ExactF32
  same_dim : min.length = max.length
  deriving DecidableEq

namespace ScalarQuantizer

def lower (least x : ExactF32) : ExactF32 := if x.lt least then x else least

def raise (greatest x : ExactF32) : ExactF32 := if greatest.lt x then x else greatest

/-- One component of the training vector at position `i`. -/
def trainComponent (i : Nat) (learned : ScalarQuantizer) (component : ExactF32 × Nat) :
    Except Error ScalarQuantizer :=
  let (x, d) := component
  if ¬ x.isFinite then
    .error (.invalidArgument s!"training vector {i} component {d} is non-finite")
  else
    .ok
      { min := learned.min.modify d (lower · x)
        max := learned.max.modify d (raise · x)
        same_dim := by simp only [List.length_modify, learned.same_dim] }

def trainVector (dim : Nat) (learned : ScalarQuantizer) (entry : List ExactF32 × Nat) :
    Except Error ScalarQuantizer :=
  let (v, i) := entry
  if v.length ≠ dim then
    .error (.invalidArgument s!"training vector {i} has dim {v.length} but expected {dim}")
  else v.zipIdx.foldlM (trainComponent i) learned

def train (sample : List (List ExactF32)) : Except Error ScalarQuantizer :=
  match sample.head? with
  | none => .error (.invalidArgument "cannot train quantizer on empty sample")
  | some first =>
    let dim := first.length
    if dim = 0 then
      .error (.invalidArgument "cannot train quantizer on zero-dimension vectors")
    else
      sample.zipIdx.foldlM (trainVector dim)
        { min := List.replicate dim (infinite false)
          max := List.replicate dim (infinite true)
          same_dim := by simp only [List.length_replicate] }

variable (quantizer : ScalarQuantizer)

def dim : Nat := quantizer.min.length

/-- One dimension of `quantize`. -/
def quantizeComponent (least greatest x : ExactF32) : UInt8 :=
  let range := greatest.sub least
  if range = finite 0 then 0
  else
    let scaled := ((x.sub least).div range).mul (finite 255)
    (scaled.round.clamp (finite 0) (finite 255)).toU8

/-- One dimension of `dequantize`. -/
def dequantizeComponent (least greatest : ExactF32) (b : UInt8) : ExactF32 :=
  let range := greatest.sub least
  if range = finite 0 then least else least.add (((ofU8 b).div (finite 255)).mul range)

def quantize (v : List ExactF32) : Except Error (List UInt8) :=
  if v.length ≠ quantizer.dim then
    .error (.invalidArgument s!"quantize: vector dim {v.length} != quantizer dim {quantizer.dim}")
  else
    .ok ((v.zip (quantizer.min.zip quantizer.max)).map fun entry =>
      quantizeComponent entry.2.1 entry.2.2 entry.1)

def dequantize (q : List UInt8) : Except Error (List ExactF32) :=
  if q.length ≠ quantizer.dim then
    .error (.invalidArgument
      s!"dequantize: byte vector dim {q.length} != quantizer dim {quantizer.dim}")
  else
    .ok ((q.zip (quantizer.min.zip quantizer.max)).map fun entry =>
      dequantizeComponent entry.2.1 entry.2.2 entry.1)

def roundTrip (v : List ExactF32) : Except Error (List ExactF32) := do
  let q ← quantizer.quantize v
  quantizer.dequantize q

/-! ### What training learns -/

/-- The range of one dimension. -/
structure Range where
  low : ℚ
  high : ℚ
  ordered : low ≤ high

def Range.Contains (range : Range) (x : ExactF32) : Prop :=
  ∃ value : ℚ, x = finite value ∧ range.low ≤ value ∧ value ≤ range.high

/-- The least range around one more value. -/
def Range.widen : Option Range → ℚ → Range
  | none, x => ⟨x, x, le_rfl⟩
  | some range, x =>
    ⟨Min.min range.low x, Max.max range.high x,
      (min_le_left _ _).trans (range.ordered.trans (le_max_left _ _))⟩

/-- The minimum of a dimension that saw the values of a range, or none yet. -/
def least (range : Option Range) : ExactF32 := range.elim (infinite false) fun r => finite r.low

def greatest (range : Option Range) : ExactF32 := range.elim (infinite true) fun r => finite r.high

theorem lower_least (range : Option Range) (x : ℚ) :
    lower (least range) (finite x) = finite (Range.widen range x).low := by
  cases range with
  | none => rfl
  | some range =>
    show (if (decide (x ≤ range.low) && !decide (range.low ≤ x)) = true then finite x
      else finite range.low) = finite (Min.min range.low x)
    by_cases under : range.low ≤ x
    · rw [min_eq_left under, if_neg (by simp [under])]
    · rw [min_eq_right (not_le.mp under).le, if_pos (by simp [under, (not_le.mp under).le])]

theorem raise_greatest (range : Option Range) (x : ℚ) :
    raise (greatest range) (finite x) = finite (Range.widen range x).high := by
  cases range with
  | none => rfl
  | some range =>
    show (if (decide (range.high ≤ x) && !decide (x ≤ range.high)) = true then finite x
      else finite range.high) = finite (Max.max range.high x)
    by_cases above : x ≤ range.high
    · rw [max_eq_left above, if_neg (by simp [above])]
    · rw [max_eq_right (not_le.mp above).le, if_pos (by simp [above, (not_le.mp above).le])]

/-- Dimension `d` has the range of the values seen. -/
def Learns (learned : ScalarQuantizer) (d : Nat) (range : Option Range) : Prop :=
  learned.min[d]? = some (least range) ∧ learned.max[d]? = some (greatest range)

/-- A component changes the range of its own dimension. -/
theorem trainComponent_learns {i d e : Nat} {learned after : ScalarQuantizer} {x : ExactF32}
    {range : Option Range} (learns : learned.Learns d range)
    (run : trainComponent i learned (x, e) = .ok after) :
    ∃ value, x = finite value ∧
      after.Learns d (if e = d then some (Range.widen range value) else range) := by
  simp only [trainComponent] at run
  split at run
  · cases run
  · rename_i seen
    cases run
    cases x with
    | infinite negative => exact absurd Bool.false_ne_true seen
    | nan => exact absurd Bool.false_ne_true seen
    | finite value =>
      refine ⟨value, rfl, ?_⟩
      by_cases here : e = d
      · subst here
        rw [if_pos rfl, Learns, List.getElem?_modify_eq, List.getElem?_modify_eq, learns.1, learns.2]
        exact ⟨congrArg some (lower_least range value), congrArg some (raise_greatest range value)⟩
      · rw [if_neg here, Learns, List.getElem?_modify_ne _ _ here, List.getElem?_modify_ne _ _ here]
        exact learns

/-- Partway through a vector: the dimensions in front of what is left have seen their component. -/
def Midway (v : List ExactF32) (d : Nat) (range : Option Range) (left : List (ExactF32 × Nat))
    (learned : ScalarQuantizer) : Prop :=
  ∃ k, k ≤ v.length ∧ left = (v.drop k).zipIdx k ∧
    if k ≤ d then learned.Learns d range
    else ∃ value, v[d]? = some (finite value) ∧ learned.Learns d (some (Range.widen range value))

theorem trainComponent_midway {i d : Nat} {v : List ExactF32} {range : Option Range}
    {first : ExactF32 × Nat} {rest : List (ExactF32 × Nat)} {learned next : ScalarQuantizer}
    (midway : Midway v d range (first :: rest) learned)
    (run : trainComponent i learned first = .ok next) : Midway v d range rest next := by
  obtain ⟨k, within, left, holds⟩ := midway
  have more : k < v.length := by
    have length := congrArg List.length left
    rw [List.length_zipIdx, List.length_drop, List.length_cons] at length
    omega
  rw [List.drop_eq_getElem_cons more, List.zipIdx_cons] at left
  obtain ⟨rfl, remains⟩ := List.cons.inj left
  refine ⟨k + 1, more, remains, ?_⟩
  by_cases later : k + 1 ≤ d
  · rw [if_pos (by omega)] at holds
    obtain ⟨_, _, now⟩ := trainComponent_learns holds run
    rw [if_neg (by omega)] at now
    rw [if_pos later]
    exact now
  · rw [if_neg later]
    by_cases here : k = d
    · subst here
      rw [if_pos le_rfl] at holds
      obtain ⟨value, is_value, now⟩ := trainComponent_learns holds run
      rw [if_pos rfl] at now
      exact ⟨value, by rw [List.getElem?_eq_getElem more, is_value], now⟩
    · rw [if_neg (by omega)] at holds
      obtain ⟨value, is_value, before⟩ := holds
      obtain ⟨_, _, now⟩ := trainComponent_learns before run
      rw [if_neg here] at now
      exact ⟨value, is_value, now⟩

/-- A vector widens every range by its component. -/
theorem trainVector_learns {i d dim : Nat} {learned after : ScalarQuantizer} {v : List ExactF32}
    {range : Option Range} (learns : learned.Learns d range) (inside : d < dim)
    (run : trainVector dim learned (v, i) = .ok after) :
    ∃ value, v[d]? = some (finite value) ∧ after.Learns d (some (Range.widen range value)) := by
  simp only [trainVector] at run
  split at run
  · cases run
  · rename_i same
    have dims : d < v.length := by omega
    have start : Midway v d range v.zipIdx learned :=
      ⟨0, Nat.zero_le _, by rw [List.drop_zero], by rw [if_pos (Nat.zero_le _)]; exact learns⟩
    obtain ⟨k, within, left, holds⟩ := Partial.foldlM_ok (Midway v d range)
      (fun _ _ _ _ midway stepped => trainComponent_midway midway stepped) _ _ _ start run
    have behind : v.length ≤ k := by
      have empty := congrArg List.length left
      rw [List.length_zipIdx, List.length_drop, List.length_nil] at empty
      omega
    rwa [if_neg (by omega)] at holds

/-- Every vector in front of what is left has its component in the range, and the bounds are components
of vectors. -/
def Covers (sample : List (List ExactF32)) (d : Nat) (left : List (List ExactF32 × Nat))
    (learned : ScalarQuantizer) : Prop :=
  ∃ k range, k ≤ sample.length ∧ left = (sample.drop k).zipIdx k ∧ (k = 0 ↔ range = none) ∧
    learned.Learns d range ∧ ∀ r ∈ range,
      (∀ v ∈ sample.take k, ∃ x, v[d]? = some x ∧ r.Contains x) ∧
      (∃ v ∈ sample, v[d]? = some (finite r.low)) ∧ ∃ v ∈ sample, v[d]? = some (finite r.high)

/-- A widened range contains the value and what the range contained. -/
theorem Range.widen_contains (range : Option Range) (value : ℚ) :
    (Range.widen range value).Contains (finite value) ∧
      ∀ r ∈ range, ∀ x, r.Contains x → (Range.widen range value).Contains x := by
  cases range with
  | none => exact ⟨⟨value, rfl, le_rfl, le_rfl⟩, fun r none => absurd none (by simp)⟩
  | some range =>
    refine ⟨⟨value, rfl, min_le_right _ _, le_max_right _ _⟩, fun r same x ⟨y, is, above, below⟩ => ?_⟩
    cases Option.mem_some_iff.mp same
    exact ⟨y, is, (min_le_left _ _).trans above, below.trans (le_max_left _ _)⟩

/-- The bounds of a widened range are bounds of the range or the value. -/
theorem Range.widen_bounds (range : Option Range) (value : ℚ) :
    ((Range.widen range value).low = value ∨ ∃ r ∈ range, (Range.widen range value).low = r.low) ∧
      ((Range.widen range value).high = value ∨ ∃ r ∈ range, (Range.widen range value).high = r.high) := by
  cases range with
  | none => exact ⟨.inl rfl, .inl rfl⟩
  | some range =>
    refine ⟨?_, ?_⟩
    · rcases min_choice range.low value with old | new
      · exact .inr ⟨range, rfl, old⟩
      · exact .inl new
    · rcases max_choice range.high value with old | new
      · exact .inr ⟨range, rfl, old⟩
      · exact .inl new

theorem trainVector_covers {sample : List (List ExactF32)} {d dim : Nat} (inside : d < dim)
    {first : List ExactF32 × Nat} {rest : List (List ExactF32 × Nat)} {learned next : ScalarQuantizer}
    (covers : Covers sample d (first :: rest) learned)
    (run : trainVector dim learned first = .ok next) : Covers sample d rest next := by
  obtain ⟨k, range, within, left, fresh, learns, holds⟩ := covers
  have more : k < sample.length := by
    have length := congrArg List.length left
    rw [List.length_zipIdx, List.length_drop, List.length_cons] at length
    omega
  rw [List.drop_eq_getElem_cons more, List.zipIdx_cons] at left
  obtain ⟨rfl, remains⟩ := List.cons.inj left
  obtain ⟨value, is_value, now⟩ := trainVector_learns learns inside run
  have listed : sample[k] ∈ sample := List.getElem_mem more
  refine ⟨k + 1, _, more, remains, ⟨fun zero => absurd zero (by omega), fun none => absurd none (by simp)⟩,
    now, fun r same => ?_⟩
  cases Option.mem_some_iff.mp same
  have bounds := Range.widen_bounds range value
  refine ⟨fun v early => ?_, ?_, ?_⟩
  · rw [List.take_add_one, List.getElem?_eq_getElem more] at early
    rcases List.mem_append.mp early with before | last
    · cases range with
      | none =>
        rw [fresh.mpr rfl] at before
        cases before
      | some r =>
        obtain ⟨x, is_x, contained⟩ := (holds r rfl).1 v before
        exact ⟨x, is_x, (Range.widen_contains (some r) value).2 r rfl x contained⟩
    · cases List.mem_singleton.mp last
      exact ⟨_, is_value, (Range.widen_contains range value).1⟩
  · rcases bounds.1 with new | ⟨r, was, old⟩
    · exact ⟨_, listed, by rw [is_value, new]⟩
    · rw [old]
      exact (holds r was).2.1
  · rcases bounds.2 with new | ⟨r, was, old⟩
    · exact ⟨_, listed, by rw [is_value, new]⟩
    · rw [old]
      exact (holds r was).2.2

/-- Training keeps the dimension. -/
theorem trainVector_dim {dim : Nat} {learned after : ScalarQuantizer} {entry : List ExactF32 × Nat}
    (run : trainVector dim learned entry = .ok after) : after.dim = learned.dim := by
  simp only [trainVector] at run
  split at run
  · cases run
  · refine Partial.foldlM_ok (fun _ now => now.dim = learned.dim) (fun _ _ _ _ before stepped => ?_)
      _ _ _ rfl run
    simp only [trainComponent] at stepped
    split at stepped
    · cases stepped
    · cases stepped
      rw [← before]
      exact List.length_modify _ _ _

/-- **An accepted sample.** Each dimension learns the least range around its components. -/
theorem train_learned {sample : List (List ExactF32)} {quantizer : ScalarQuantizer}
    (trained : train sample = .ok quantizer) {d : Nat} (inside : d < quantizer.dim) :
    ∃ range : Range, quantizer.min[d]? = some (finite range.low) ∧
      quantizer.max[d]? = some (finite range.high) ∧
      (∀ v ∈ sample, ∃ x, v[d]? = some x ∧ range.Contains x) ∧
      (∃ v ∈ sample, v[d]? = some (finite range.low)) ∧
      ∃ v ∈ sample, v[d]? = some (finite range.high) := by
  simp only [train] at trained
  split at trained
  · cases trained
  · rename_i first head
    split at trained
    · cases trained
    · have dims : quantizer.dim = first.length :=
        (Partial.foldlM_ok (fun _ now => now.dim = first.length)
          (fun _ _ _ _ before stepped => (trainVector_dim stepped).trans before) _ _ _
          List.length_replicate trained)
      have within : d < first.length := by omega
      have start : Covers sample d sample.zipIdx
          { min := List.replicate first.length (infinite false)
            max := List.replicate first.length (infinite true)
            same_dim := by simp only [List.length_replicate] } :=
        ⟨0, none, Nat.zero_le _, by rw [List.drop_zero], by simp,
          ⟨List.getElem?_replicate_of_lt within, List.getElem?_replicate_of_lt within⟩,
          fun r none => absurd none (by simp)⟩
      obtain ⟨k, range, _, left, fresh, learns, holds⟩ := Partial.foldlM_ok (Covers sample d)
        (fun _ _ _ _ covers stepped => trainVector_covers within covers stepped) _ _ _ start trained
      have behind : sample.length ≤ k := by
        have empty := congrArg List.length left
        rw [List.length_zipIdx, List.length_drop, List.length_nil] at empty
        omega
      have some_vector : sample ≠ [] := by
        rintro rfl
        cases head
      cases range with
      | none =>
        have none_seen := fresh.mpr rfl
        exact absurd (List.length_eq_zero_iff.mp (by omega)) some_vector
      | some range =>
        obtain ⟨all, low, high⟩ := holds range rfl
        rw [List.take_of_length_le behind] at all
        exact ⟨range, learns.1, learns.2, all, low, high⟩

/-! ### One dimension -/

section Component

variable {low high : ℚ}

/-- Where a range is wide, a component goes to its level among 256. -/
theorem quantizeComponent_wide (wide : low < high) (x : ℚ) :
    quantizeComponent (finite low) (finite high) (finite x) =
      UInt8.ofNat (level 255 low high x).toNat := by
  have range : high + -low ≠ 0 := by linarith
  have not_degenerate : (finite high).sub (finite low) ≠ finite 0 := fun same =>
    range (ExactF32.finite.inj same)
  have scaled : (((finite x).sub (finite low)).div ((finite high).sub (finite low))).mul (finite 255) =
      finite ((x - low) / (high - low) * (255 : Nat)) := by
    show ((if high + -low = 0 then _ else finite ((x + -low) / (high + -low))) : ExactF32).mul _ = _
    rw [if_neg range, ← sub_eq_add_neg, ← sub_eq_add_neg]
    rfl
  simp only [quantizeComponent]
  rw [if_neg not_degenerate, scaled, level]
  show ((finite (roundAway ((x - low) / (high - low) * (255 : Nat)) : Int)).clamp (finite 0)
    (finite 255)).toU8 = _
  generalize roundAway ((x - low) / (high - low) * ((255 : Nat) : ℚ)) = position
  exact toU8_clamp position

/-- Where all values were equal, everything goes to 0. -/
theorem quantizeComponent_degenerate (x : ExactF32) :
    quantizeComponent (finite low) (finite low) x = 0 :=
  if_pos (congrArg finite (add_neg_cancel low))

theorem dequantizeComponent_wide (wide : low < high) (b : UInt8) :
    dequantizeComponent (finite low) (finite high) b = finite (restore 255 low high b.toNat) := by
  have range : high + -low ≠ 0 := by linarith
  have not_degenerate : (finite high).sub (finite low) ≠ finite 0 := fun same =>
    range (ExactF32.finite.inj same)
  simp only [dequantizeComponent]
  rw [if_neg not_degenerate, restore]
  have fraction : (ofU8 b).div (finite 255) = finite (b.toNat / 255) := by
    have some_steps : (255 : ℚ) ≠ 0 := by norm_num
    simp only [ofU8, div, if_neg some_steps]
  rw [fraction, sub_eq_add_neg]
  exact congrArg finite (by push_cast; rfl)

theorem dequantizeComponent_degenerate (b : UInt8) :
    dequantizeComponent (finite low) (finite low) b = finite low :=
  if_pos (congrArg finite (add_neg_cancel low))

/-- What infinities and NaNs go to. -/
theorem quantizeComponent_infinite (wide : low < high) (negative : Bool) :
    quantizeComponent (finite low) (finite high) (infinite negative) = if negative then 0 else 255 := by
  have range : high + -low ≠ 0 := by linarith
  have not_degenerate : (finite high).sub (finite low) ≠ finite 0 := fun same =>
    range (ExactF32.finite.inj same)
  have positive : ¬ high + -low < 0 := by linarith
  have scaled : (((infinite negative).sub (finite low)).div ((finite high).sub (finite low))).mul
      (finite 255) = infinite negative := by
    show (infinite (negative != decide (high + -low < 0))).mul (finite 255) = infinite negative
    rw [decide_eq_false positive]
    cases negative <;> rfl
  simp only [quantizeComponent]
  rw [if_neg not_degenerate, scaled]
  cases negative <;> rfl

/-- A larger component goes to no smaller byte. -/
theorem quantizeComponent_mono (ordered : low ≤ high) {x y : ExactF32} (ascends : x.le y) :
    quantizeComponent (finite low) (finite high) x ≤ quantizeComponent (finite low) (finite high) y := by
  rcases ordered.lt_or_eq with wide | rfl
  · cases x with
    | nan => cases ascends
    | infinite negative =>
      cases negative with
      | true =>
        rw [quantizeComponent_infinite wide]
        exact Nat.zero_le _
      | false =>
        -- only positive infinity is not below it
        cases y with
        | nan => cases ascends
        | finite y => cases ascends
        | infinite negative =>
          cases negative with
          | true => cases ascends
          | false => exact le_rfl
    | finite x =>
      cases y with
      | nan => cases ascends
      | infinite negative =>
        cases negative with
        | true => cases ascends
        | false =>
          rw [quantizeComponent_infinite wide]
          exact Nat.le_of_lt_succ (UInt8.toNat_lt _)
      | finite y =>
        rw [quantizeComponent_wide wide, quantizeComponent_wide wide, UInt8.le_iff_toNat_le,
          UInt8.toNat_ofNat', UInt8.toNat_ofNat']
        have one : level 255 low high x ≤ level 255 low high y :=
          level_mono wide (of_decide_eq_true ascends)
        have most : level 255 low high y ≤ (255 : Nat) := level_le
        have least : 0 ≤ level 255 low high x := level_nonneg
        omega
  · rw [quantizeComponent_degenerate, quantizeComponent_degenerate]

/-- Below the range is 0. -/
theorem quantizeComponent_below (ordered : low ≤ high) {x : ExactF32} (below : x.le (finite low)) :
    quantizeComponent (finite low) (finite high) x = 0 := by
  have least : quantizeComponent (finite low) (finite high) (finite low) = 0 := by
    rcases ordered.lt_or_eq with wide | rfl
    · rw [quantizeComponent_wide wide, level_of_le wide le_rfl]
      rfl
    · exact quantizeComponent_degenerate _
  have none_below := quantizeComponent_mono ordered below
  rw [least] at none_below
  exact UInt8.le_zero_iff.mp none_below

/-- Above a wide range is 255. -/
theorem quantizeComponent_above (wide : low < high) {x : ExactF32} (above : (finite high).le x) :
    quantizeComponent (finite low) (finite high) x = 255 := by
  have greatest : quantizeComponent (finite low) (finite high) (finite high) = 255 := by
    rw [quantizeComponent_wide wide, level_of_ge wide le_rfl]
    rfl
  have none_above := quantizeComponent_mono wide.le above
  rw [greatest] at none_above
  exact UInt8.le_antisymm (Nat.le_of_lt_succ (UInt8.toNat_lt _)) none_above

/-- Inside the range a component comes back to half a step. -/
theorem dequantizeComponent_close {x : ℚ} (above : low ≤ x) (below : x ≤ high) :
    ∃ y, dequantizeComponent (finite low) (finite high)
        (quantizeComponent (finite low) (finite high) (finite x)) = finite y ∧
      |y - x| ≤ (high - low) / 510 := by
  rcases (above.trans below).lt_or_eq with wide | rfl
  · have most : level 255 low high x ≤ (255 : Nat) := level_le
    have least : 0 ≤ level 255 low high x := level_nonneg
    rw [quantizeComponent_wide wide, dequantizeComponent_wide wide, UInt8.toNat_ofNat']
    refine ⟨_, rfl, ?_⟩
    have back : (((level 255 low high x).toNat % 2 ^ 8 : Nat) : Int) = level 255 low high x := by omega
    rw [back]
    have steps : (2 : ℚ) * (255 : Nat) = 510 := by norm_num
    rw [← steps]
    exact abs_restore_level_sub_le (by decide) wide above below
  · rw [dequantizeComponent_degenerate]
    refine ⟨low, rfl, ?_⟩
    rw [le_antisymm below above, sub_self, abs_zero, zero_div]

/-- A byte comes back where the range is wide. -/
theorem quantizeComponent_dequantized (wide : low < high) (b : UInt8) :
    quantizeComponent (finite low) (finite high)
      (dequantizeComponent (finite low) (finite high) b) = b := by
  have small : b.toNat < 256 := b.toNat_lt
  have survives : level 255 low high (restore 255 low high b.toNat) = b.toNat :=
    level_restore (by decide) wide b.toNat (by omega)
  rw [dequantizeComponent_wide wide, quantizeComponent_wide wide, survives, Int.toNat_natCast]
  exact UInt8.ofNat_toNat

end Component

/-! ### Whole vectors -/

section Vectors

variable {quantizer : ScalarQuantizer} {d : Nat} {low high : ℚ}

/-- What a pass over the dimensions gives at one of them. -/
theorem getElem?_pass {α β : Type} (least : quantizer.min[d]? = some (finite low))
    (greatest : quantizer.max[d]? = some (finite high)) (f : ExactF32 → ExactF32 → α → β)
    (items : List α) :
    ((items.zip (quantizer.min.zip quantizer.max)).map fun entry => f entry.2.1 entry.2.2 entry.1)[d]? =
      items[d]?.map (f (finite low) (finite high)) := by
  have range : (quantizer.min.zip quantizer.max)[d]? = some (finite low, finite high) := by
    rw [List.getElem?_zip_eq_some]
    exact ⟨least, greatest⟩
  rw [List.getElem?_map]
  cases here : items[d]? with
  | none =>
    have short : items.length ≤ d := List.getElem?_eq_none_iff.mp here
    rw [List.getElem?_eq_none_iff.mpr ((List.length_zip).trans_le ((min_le_left _ _).trans short))]
    rfl
  | some item =>
    have both : (items.zip (quantizer.min.zip quantizer.max))[d]? =
        some (item, finite low, finite high) := List.getElem?_zip_eq_some.mpr ⟨here, range⟩
    rw [both]
    rfl

theorem length_pass {α β : Type} {items : List α} (same : items.length = quantizer.dim)
    (f : α × ExactF32 × ExactF32 → β) :
    ((items.zip (quantizer.min.zip quantizer.max)).map f).length = quantizer.dim := by
  have dims : quantizer.min.length = quantizer.max.length := quantizer.same_dim
  rw [List.length_map, List.length_zip, List.length_zip, same, dim]
  omega

/-- `quantize` works dimension by dimension. -/
theorem quantize_component (least : quantizer.min[d]? = some (finite low))
    (greatest : quantizer.max[d]? = some (finite high)) {v : List ExactF32}
    (same : v.length = quantizer.dim) :
    ∃ q, quantizer.quantize v = .ok q ∧ q.length = quantizer.dim ∧
      q[d]? = v[d]?.map (quantizeComponent (finite low) (finite high)) :=
  ⟨_, if_neg (not_not.mpr same), length_pass same _,
    getElem?_pass least greatest quantizeComponent v⟩

/-- So does `dequantize`. -/
theorem dequantize_component (least : quantizer.min[d]? = some (finite low))
    (greatest : quantizer.max[d]? = some (finite high)) {q : List UInt8}
    (same : q.length = quantizer.dim) :
    ∃ v, quantizer.dequantize q = .ok v ∧ v.length = quantizer.dim ∧
      v[d]? = q[d]?.map (dequantizeComponent (finite low) (finite high)) :=
  ⟨_, if_neg (not_not.mpr same), length_pass same _,
    getElem?_pass least greatest dequantizeComponent q⟩

end Vectors

/-- **The laws of a trained quantizer**, on every dimension `d` with its trained bounds. Training vectors
lie between the bounds; `quantize` is monotone in the component and saturates; the round trip of a
component between the bounds is off by half of one of 255 steps at most; and quantizing dequantized
bytes gives them back, or 0 where the bounds coincide. -/
theorem quantizer_laws {sample : List (List ExactF32)} {quantizer : ScalarQuantizer}
    (trained : train sample = .ok quantizer) {d : Nat} (inside : d < quantizer.dim) :
    ∃ low high : ℚ, low ≤ high ∧
      quantizer.min[d]? = some (finite low) ∧ quantizer.max[d]? = some (finite high) ∧
      (∀ v ∈ sample, ∃ x : ℚ, v[d]? = some (finite x) ∧ low ≤ x ∧ x ≤ high) ∧
      (∀ v w, v.length = quantizer.dim → w.length = quantizer.dim →
        ∃ x y b c q r, v[d]? = some x ∧ w[d]? = some y ∧
          quantizer.quantize v = .ok q ∧ quantizer.quantize w = .ok r ∧
          q[d]? = some b ∧ r[d]? = some c ∧
          (x.le y → b ≤ c) ∧
          (x.le (finite low) → b = 0) ∧
          ((finite high).le x → b = if low < high then 255 else 0)) ∧
      (∀ v, v.length = quantizer.dim → ∃ back, quantizer.roundTrip v = .ok back ∧
        ∀ x : ℚ, v[d]? = some (finite x) → low ≤ x → x ≤ high →
          ∃ y : ℚ, back[d]? = some (finite y) ∧ |y - x| ≤ (high - low) / 510) ∧
      ∀ q, q.length = quantizer.dim → ∃ v again, quantizer.dequantize q = .ok v ∧
        quantizer.quantize v = .ok again ∧
        again[d]? = if low < high then q[d]? else some 0 := by
  obtain ⟨⟨low, high, ordered⟩, least, greatest, all, -⟩ := train_learned trained inside
  refine ⟨low, high, ordered, least, greatest, ?_, ?_, ?_, ?_⟩
  · intro v listed
    obtain ⟨_, is_x, x, rfl, above, below⟩ := all v listed
    exact ⟨x, is_x, above, below⟩
  · intro v w v_dim w_dim
    obtain ⟨q, q_is, -, q_at⟩ := quantize_component least greatest v_dim
    obtain ⟨r, r_is, -, r_at⟩ := quantize_component least greatest w_dim
    have v_at : v[d]? = some v[d] := List.getElem?_eq_getElem (v_dim ▸ inside)
    have w_at : w[d]? = some w[d] := List.getElem?_eq_getElem (w_dim ▸ inside)
    rw [v_at] at q_at
    rw [w_at] at r_at
    refine ⟨_, _, _, _, q, r, v_at, w_at, q_is, r_is, q_at, r_at, quantizeComponent_mono ordered,
      quantizeComponent_below ordered, fun above => ?_⟩
    rcases ordered.lt_or_eq with wide | rfl
    · rw [if_pos wide, quantizeComponent_above wide above]
    · rw [if_neg (lt_irrefl _), quantizeComponent_degenerate]
  · intro v v_dim
    obtain ⟨q, q_is, q_dim, q_at⟩ := quantize_component least greatest v_dim
    obtain ⟨back, back_is, -, back_at⟩ := dequantize_component least greatest q_dim
    refine ⟨back, ?_, fun x v_at above below => ?_⟩
    · rw [roundTrip, q_is]
      exact back_is
    · obtain ⟨y, is_y, close⟩ := dequantizeComponent_close above below
      refine ⟨y, ?_, close⟩
      rw [back_at, q_at, v_at]
      exact congrArg some is_y
  · intro q q_dim
    obtain ⟨v, v_is, v_dim, v_at⟩ := dequantize_component least greatest q_dim
    obtain ⟨again, again_is, -, again_at⟩ := quantize_component least greatest v_dim
    refine ⟨v, again, v_is, again_is, ?_⟩
    have q_at : q[d]? = some q[d] := List.getElem?_eq_getElem (q_dim ▸ inside)
    rw [again_at, v_at, q_at]
    rcases ordered.lt_or_eq with wide | rfl
    · rw [if_pos wide]
      exact congrArg some (quantizeComponent_dequantized wide _)
    · rw [if_neg (lt_irrefl _)]
      exact congrArg some (quantizeComponent_degenerate _)

/-- A wide dimension and a degenerate one; a byte of the first comes back. -/
theorem quantizer_laws_two : ∃ quantizer,
    train [[finite 0, finite 3], [finite 1, finite 3]] = .ok quantizer ∧
      ∃ v again, quantizer.dequantize [7, 9] = .ok v ∧ quantizer.quantize v = .ok again ∧
        again[0]? = some 7 := by
  have trained : train [[finite 0, finite 3], [finite 1, finite 3]] =
      .ok ⟨[finite 0, finite 3], [finite 1, finite 3], rfl⟩ := by decide
  obtain ⟨low, high, -, -, -, all, -, -, bytes⟩ :=
    quantizer_laws trained (show 0 < 2 by decide)
  obtain ⟨v, again, v_is, again_is, first⟩ := bytes [7, 9] rfl
  refine ⟨_, trained, v, again, v_is, again_is, ?_⟩
  obtain ⟨x, x_is, above, -⟩ := all _ List.mem_cons_self
  obtain ⟨y, y_is, -, below⟩ := all _ (List.mem_cons_of_mem _ List.mem_cons_self)
  cases x_is
  cases y_is
  have wide : low < high := by linarith
  rw [first, if_pos wide]
  rfl

end ScalarQuantizer

end Sastran

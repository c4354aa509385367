/-
Prefix codes: encodings that can be read from the front.

`PrefixCode encode valid` - the encoding of a valid value, whatever is behind it, determines the value and
what is behind. Encodings of a fixed width are prefix codes where they are injective
(`PrefixCode.of_width`), and so are lists of known length whose elements are (`PrefixCode.flatMap`)
and lists behind their length (`PrefixCode.counted`).
-/

import Sastran.Library.Bytes

open LittleEndian

variable {α β : Type} {encode : α → List β} {valid : α → Prop}

/-- No valid value's encoding begins another one's. -/
def PrefixCode (encode : α → List β) (valid : α → Prop) : Prop :=
  ∀ one two behind behind', valid one → valid two →
    encode one ++ behind = encode two ++ behind' → one = two ∧ behind = behind'

namespace PrefixCode

/-- An injective encoding of one width. -/
theorem of_width {width : Nat} (length : ∀ value, (encode value).length = width)
    (injective : ∀ one two, valid one → valid two → encode one = encode two → one = two) :
    PrefixCode encode valid := by
  intro one two behind behind' good good' same
  obtain ⟨encoded, rest⟩ := List.append_inj same ((length one).trans (length two).symm)
  exact ⟨injective one two good good' encoded, rest⟩

/-- Little-endian words. -/
theorem word (width : Nat) : PrefixCode (leBytes width) (· < 256 ^ width) := by
  refine of_width (leBytes_length width) fun one two small small' same => ?_
  rw [← leNat_leBytes_of_lt small, ← leNat_leBytes_of_lt small', same]

/-- **Lists of one length.** -/
theorem flatMap (code : PrefixCode encode valid) : ∀ (items items' : List α) (behind behind' : List β),
    items.length = items'.length → (∀ item ∈ items, valid item) → (∀ item ∈ items', valid item) →
    items.flatMap encode ++ behind = items'.flatMap encode ++ behind' →
    items = items' ∧ behind = behind' := by
  intro items
  induction items with
  | nil =>
    intro items' behind behind' length _ _ same
    obtain rfl := List.length_eq_zero_iff.mp length.symm
    exact ⟨rfl, same⟩
  | cons first rest ih =>
    intro items' behind behind' length all all' same
    cases items' with
    | nil => cases length
    | cons first' rest' =>
      rw [List.flatMap_cons, List.flatMap_cons, List.append_assoc, List.append_assoc] at same
      obtain ⟨rfl, left⟩ := code first first' _ _ (all first (List.mem_cons_self ..))
        (all' first' (List.mem_cons_self ..)) same
      obtain ⟨rfl, last⟩ := ih rest' behind behind' (Nat.succ.inj length)
        (fun item member => all item (List.mem_cons_of_mem _ member))
        (fun item member => all' item (List.mem_cons_of_mem _ member)) left
      exact ⟨rfl, last⟩

end PrefixCode

/-- **Lists behind their length.** -/
theorem PrefixCode.counted {encode : α → List UInt8} (code : PrefixCode encode valid) (width : Nat) :
    PrefixCode (fun items : List α => leBytes width items.length ++ items.flatMap encode)
      fun items => items.length < 256 ^ width ∧ ∀ item ∈ items, valid item := by
  intro items items' behind behind' good good' same
  simp only [List.append_assoc] at same
  obtain ⟨length, left⟩ := word width _ _ _ _ good.1 good'.1 same
  exact code.flatMap items items' behind behind' length good.2 good'.2 left

import CaseFolding.Code.Run
import Mathlib.Algebra.Group.Nat.Defs

namespace CaseFolding

/-! # Widths of elements

The elements of a lookup table are of the narrowest type that has room for each of
its values. So no value loses anything when it is kept as an element, and part of the
values never needs a wider type than all of them.
-/

namespace Element

variable {e : Element} {v : Codepoint} {values : List Codepoint}

/-- A number for which the bytes of an element have room. -/
def Holds (e : Element) (v : Codepoint) : Prop := v.toNat < 2 ^ (8 * e.bytes)

theorem holds_bits8 : bits8.Holds v ↔ v ≤ 0xFF := by
  rw [UInt32.le_iff_toNat_le]
  exact Nat.lt_succ_iff

theorem holds_bits16 : bits16.Holds v ↔ v ≤ 0xFFFF := by
  rw [UInt32.le_iff_toNat_le]
  exact Nat.lt_succ_iff

theorem holds_bits32 (v : Codepoint) : bits32.Holds v :=
  v.toNat_lt

/-! ## Keeping values -/

/-- A value that fits into a number of bits is kept by them. -/
theorem and_two_pow_sub_one {bits : Codepoint} {n : Nat} (hbits : bits.toNat = 2 ^ n - 1)
    (hv : v.toNat < 2 ^ n) : v &&& bits = v := by
  apply UInt32.toNat.inj
  rw [UInt32.toNat_and, hbits, Nat.and_two_pow_sub_one_eq_mod, Nat.mod_eq_of_lt hv]

theorem Holds.keep_eq (h : e.Holds v) : e.keep v = v := by
  cases e with
  | bits8 => exact and_two_pow_sub_one (n := 8) rfl h
  | bits16 => exact and_two_pow_sub_one (n := 16) rfl h
  | bits32 => rfl

/-! ## The narrowest type -/

/-- The type of a lookup table holds each of its values. -/
theorem holds_holding (h : v ∈ values) : (holding values).Holds v := by
  unfold holding
  split
  next hall => exact holds_bits8.mpr (by simpa using List.all_eq_true.mp hall v h)
  next =>
    split
    next hall => exact holds_bits16.mpr (by simpa using List.all_eq_true.mp hall v h)
    next => exact holds_bits32 v

theorem keep_holding (h : v ∈ values) : (holding values).keep v = v :=
  (holds_holding h).keep_eq

/-- No type that holds the values of a lookup table is narrower than its own. -/
theorem bytes_holding_le_of_holds (h : ∀ v ∈ values, e.Holds v) :
    (holding values).bytes ≤ e.bytes := by
  rw [holding]
  cases e with
  | bits8 =>
    have hall : values.all (· ≤ 0xFF) = true :=
      List.all_eq_true.mpr fun v hv => decide_eq_true (holds_bits8.mp (h v hv))
    exact Nat.le_of_eq (congrArg bytes (if_pos hall))
  | bits16 =>
    have hall : values.all (· ≤ 0xFFFF) = true :=
      List.all_eq_true.mpr fun v hv => decide_eq_true (holds_bits16.mp (h v hv))
    rw [if_pos hall]
    split <;> decide
  | bits32 =>
    split
    next => decide
    next => split <;> decide

theorem bytes_holding_le {vs ws : List Codepoint} (h : ∀ v ∈ vs, v ∈ ws) :
    (holding vs).bytes ≤ (holding ws).bytes :=
  bytes_holding_le_of_holds fun v hv => holds_holding (h v hv)

end Element

end CaseFolding

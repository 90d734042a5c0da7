import CaseFolding.Codepoint
import CaseFolding.Proofs.Text.Numeral
import Mathlib.Tactic.IntervalCases

namespace CaseFolding

/-! # Hexadecimal numbers read back

What `Text.Hex` writes, `Text.Numeral` reads in base sixteen. Leading zeros do
not count, so a codepoint is told by its hexadecimal form.
-/

namespace Text.Hex

/-! ## Digits -/

/-- The digit for a number below sixteen. -/
def digit (d : Nat) : Char := d.digitChar.toUpper

theorem digits_of_lt {n : Nat} (h : n < 16) : digits n = [digit n] := by
  simp [digits, digit, Nat.toDigits_of_lt_base h]

theorem digits_of_le {n : Nat} (h : 16 ≤ n) :
    digits n = digits (n / 16) ++ [digit (n % 16)] := by
  simp [digits, digit, Nat.toDigits_of_base_le (by decide : 1 < 16) h]

/-- Nothing but digits is written. -/
theorem exists_digit_of_mem_digits {ch : Char} {n : Nat} (h : ch ∈ digits n) :
    ∃ d < 16, ch = digit d := by
  -- all digits but the last one are those of the quotient
  induction n using Nat.strongRecOn with
  | ind n ih =>
    by_cases hn : n < 16
    · rw [digits_of_lt hn, List.mem_singleton] at h
      exact ⟨n, hn, h⟩
    · rw [digits_of_le (Nat.le_of_not_lt hn), List.mem_append, List.mem_singleton] at h
      rcases h with h | h
      · exact ih (n / 16) (by omega) h
      · exact ⟨n % 16, Nat.mod_lt _ (by decide), h⟩

theorem exists_digit_of_mem_padded {ch : Char} {n : Nat} (h : ch ∈ padded n) :
    ∃ d < 16, ch = digit d := by
  rw [padded, List.mem_append] at h
  rcases h with h | h
  · exact ⟨0, by decide, (List.mem_replicate.mp h).2⟩
  · exact exists_digit_of_mem_digits h

theorem padded_ne_nil (n : Nat) : padded n ≠ [] := by
  have hlen : digits n ≠ [] := by
    simp [digits, Nat.toDigits_ne_nil]
  simp [padded, hlen]

/-! ## Reading -/

/-- The digits are those of the number in upper case. -/
theorem map_toLower_digits (n : Nat) : (digits n).map Char.toLower = Nat.toDigits 16 n := by
  have hdigit : ∀ d < 16, (digit d).toLower = d.digitChar := by decide
  -- all digits but the last one are those of the quotient
  induction n using Nat.strongRecOn with
  | ind n ih =>
    by_cases hn : n < 16
    · rw [digits_of_lt hn, Nat.toDigits_of_lt_base hn, List.map_singleton, hdigit n hn]
    · have hle := Nat.le_of_not_lt hn
      rw [digits_of_le hle, Nat.toDigits_of_base_le (by decide) hle, List.map_append,
        ih (n / 16) (by omega), List.map_singleton, hdigit (n % 16) (Nat.mod_lt n (by decide))]

/-- The written form of a number is a numeral for it. -/
theorem isHex_padded (n : Nat) : Numeral.IsHex (padded n) n := by
  refine ⟨4 - (digits n).length, ?_⟩
  have hzero : Char.toLower '0' = '0' := rfl
  rw [padded, List.map_append, List.map_replicate, hzero, map_toLower_digits]

end Text.Hex

/-! ## Codepoints -/

@[simp]
theorem Codepoint.toList_hex (c : Codepoint) :
    (Codepoint.hex c).toList = Text.Hex.padded c.toNat := by
  simp [Codepoint.hex, Text.Hex.text]

theorem Codepoint.read_hex (c : Codepoint) :
    Text.Numeral.read 16 (Codepoint.hex c).toList = .ok c := by
  rw [Codepoint.toList_hex, Text.Numeral.read_eq_ok_iff]
  exact ⟨_, Text.Hex.isHex_padded c.toNat, .inl rfl⟩

theorem Codepoint.hex_injective : Function.Injective Codepoint.hex := by
  intro c d h
  have hread := Codepoint.read_hex c
  rw [h, Codepoint.read_hex d] at hread
  exact (Except.ok.inj hread).symm

end CaseFolding

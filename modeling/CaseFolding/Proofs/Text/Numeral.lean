import CaseFolding.Text.Numeral
import Mathlib.Data.List.Induction

namespace CaseFolding.Text.Numeral

/-! # Hexadecimal numerals

A numeral is written with the digits of its number, in either case and with any
number of zeros in front, and may have a sign. Just those numerals are read
whose number fits into 32 bits, and they are read as that number.
-/

/-! ## Numerals -/

/-- The digits of a number, letters in either case, with any number of leading zeros. -/
def IsHex (cs : List Char) (n : Nat) : Prop :=
  ∃ zeros, cs.map Char.toLower = List.replicate zeros '0' ++ Nat.toDigits 16 n

/-- Digits of a number that may have a sign in front of them. -/
def IsNumeral (cs : List Char) (n : Nat) : Prop :=
  ∃ digits, IsHex digits n ∧ (cs = digits ∨ cs = '+' :: digits)

/-! ## Digits -/

/-- What holds for every code number of a range holds for the characters in it. -/
theorem forall_between {P : Char → Prop} {lo hi : Char}
    (h : ∀ k < hi.toNat + 1 - lo.toNat, P (Char.ofNat (lo.toNat + k))) {ch : Char}
    (hch : lo ≤ ch ∧ ch ≤ hi) : P ch := by
  have hlo : lo.toNat ≤ ch.toNat := UInt32.le_iff_toNat_le.mp hch.1
  have hhi : ch.toNat ≤ hi.toNat := UInt32.le_iff_toNat_le.mp hch.2
  have hk := h (ch.toNat - lo.toNat) (by omega)
  rw [Nat.add_sub_cancel' hlo, Char.ofNat_toNat] at hk
  exact hk

theorem digitValue?_toLower (ch : Char) : digitValue? ch.toLower = digitValue? ch := by
  by_cases hupper : 'A' ≤ ch ∧ ch ≤ 'Z'
  · exact forall_between (P := fun ch => digitValue? ch.toLower = digitValue? ch) (by decide) hupper
  · have hsame : ch.toLower = ch := dif_neg hupper
    rw [hsame]

/-- A property of all code numbers in the three ranges of digits. -/
abbrev OnDigits (P : Char → Prop) : Prop :=
  ∀ range ∈ [('0', '9'), ('a', 'f'), ('A', 'F')],
    ∀ k < range.2.toNat + 1 - range.1.toNat, P (Char.ofNat (range.1.toNat + k))

/-- What stands for a number lies in one of these ranges. -/
theorem OnDigits.of_digitValue? {P : Char → Prop} (h : OnDigits P) {ch : Char} {d : Nat}
    (hch : digitValue? ch = some d) : P ch := by
  unfold digitValue? at hch
  split at hch
  next hrange => exact forall_between (h ('0', '9') (by simp)) hrange
  next =>
    split at hch
    next hrange => exact forall_between (h ('a', 'f') (by simp)) hrange
    next =>
      split at hch
      next hrange => exact forall_between (h ('A', 'F') (by simp)) hrange
      next => exact absurd hch nofun

theorem toLower_of_digitValue? {ch : Char} {d : Nat} (h : digitValue? ch = some d) :
    ch.toLower = d.digitChar := by
  have hall : OnDigits fun ch => (digitValue? ch).map Nat.digitChar = some ch.toLower := by decide
  have hch := hall.of_digitValue? h
  rw [h] at hch
  exact (Option.some.inj hch).symm

theorem digit?_eq_some_iff {ch : Char} {d : Nat} :
    digit? 16 ch = some d ↔ d < 16 ∧ ch.toLower = d.digitChar := by
  rw [digit?, Option.filter_eq_some_iff]
  constructor
  · rintro ⟨hvalue, hd⟩
    exact ⟨by simpa using hd, toLower_of_digitValue? hvalue⟩
  · rintro ⟨hd, hch⟩
    have hdigit : ∀ d < 16, digitValue? d.digitChar = some d := by decide
    refine ⟨?_, by simpa using hd⟩
    rw [← digitValue?_toLower, hch, hdigit d hd]

variable {cs : List Char} {ch : Char} {n n' v : Nat}

/-! ## Digit by digit -/

theorem not_isHex_nil : ¬ IsHex [] n := by
  rintro ⟨zeros, h⟩
  rw [List.map_nil, eq_comm, List.append_eq_nil_iff] at h
  exact Nat.toDigits_ne_nil h.2

/-- The last digit is the remainder, and those before it, if any, are the quotient. -/
theorem isHex_concat : IsHex (cs ++ [ch]) n ↔
    ∃ d v, digit? 16 ch = some d ∧ n = v * 16 + d ∧ (cs = [] ∧ v = 0 ∨ IsHex cs v) := by
  rw [IsHex, List.map_append, List.map_singleton]
  constructor
  · rintro ⟨zeros, h⟩
    by_cases hn : n < 16
    · -- all digits before the last one are leading zeros
      rw [Nat.toDigits_of_lt_base hn] at h
      rcases List.append_inj' h rfl with ⟨hcs, hch⟩
      refine ⟨n, 0, digit?_eq_some_iff.mpr ⟨hn, List.singleton_inj.mp hch⟩, by omega, ?_⟩
      cases zeros with
      | zero => exact .inl ⟨List.map_eq_nil_iff.mp hcs, rfl⟩
      | succ zeros =>
        refine .inr ⟨zeros, ?_⟩
        rw [hcs, List.replicate_succ', Nat.toDigits_zero]
    · rw [Nat.toDigits_of_base_le (by decide) (Nat.le_of_not_lt hn), ← List.append_assoc] at h
      rcases List.append_inj' h rfl with ⟨hcs, hch⟩
      have hmod : n % 16 < 16 := Nat.mod_lt n (by decide)
      exact ⟨n % 16, n / 16, digit?_eq_some_iff.mpr ⟨hmod, List.singleton_inj.mp hch⟩, by omega,
        .inr ⟨zeros, hcs⟩⟩
  · rintro ⟨d, v, hd, rfl, hcs⟩
    rcases digit?_eq_some_iff.mp hd with ⟨hlt, hlower⟩
    rw [hlower]
    rcases hcs with ⟨rfl, rfl⟩ | ⟨zeros, hcs⟩
    · refine ⟨0, ?_⟩
      rw [Nat.zero_mul, Nat.zero_add, Nat.toDigits_of_lt_base hlt]
      rfl
    · by_cases hv : v = 0
      · refine ⟨zeros + 1, ?_⟩
        rw [hcs, hv, Nat.zero_mul, Nat.zero_add, Nat.toDigits_zero, Nat.toDigits_of_lt_base hlt,
          List.replicate_succ']
      · have hquotient : (v * 16 + d) / 16 = v := by omega
        have hremainder : (v * 16 + d) % 16 = d := by omega
        refine ⟨zeros, ?_⟩
        rw [hcs, Nat.toDigits_of_base_le (by decide : 1 < 16) (by omega : 16 ≤ v * 16 + d),
          hquotient, hremainder, List.append_assoc]

/-- Nothing but digits occurs. -/
theorem IsHex.exists_digit (h : IsHex cs n) (hch : ch ∈ cs) : ∃ d, digitValue? ch = some d := by
  induction cs using List.reverseRecOn generalizing n with
  | nil => exact absurd hch List.not_mem_nil
  | append_singleton cs last ih =>
    rcases isHex_concat.mp h with ⟨d, v, hd, -, hcs⟩
    rcases List.mem_append.mp hch with hch | hch
    · rcases hcs with ⟨rfl, -⟩ | hcs
      · exact absurd hch List.not_mem_nil
      · exact ih hcs hch
    · rw [List.mem_singleton.mp hch]
      exact ⟨d, (Option.filter_eq_some_iff.mp hd).1⟩

/-- A numeral has one number. -/
theorem IsHex.unique (h : IsHex cs n) (h' : IsHex cs n') : n = n' := by
  induction cs using List.reverseRecOn generalizing n n' with
  | nil => exact absurd h not_isHex_nil
  | append_singleton cs last ih =>
    rcases isHex_concat.mp h with ⟨d, v, hd, rfl, hcs⟩
    rcases isHex_concat.mp h' with ⟨d', v', hd', rfl, hcs'⟩
    have heq : d = d' := Option.some.inj (hd.symm.trans hd')
    rcases hcs with ⟨rfl, rfl⟩ | hcs <;> rcases hcs' with ⟨hnil, rfl⟩ | hcs'
    · rw [heq]
    · exact absurd hcs' not_isHex_nil
    · exact absurd (hnil ▸ hcs) not_isHex_nil
    · rw [heq, ih hcs hcs']

/-! ## Reading -/

/-- One more digit is taken if it is one and 32 bits hold the number. -/
theorem push_eq_ok_iff : push 16 v ch = .ok n ↔
    ∃ d, digit? 16 ch = some d ∧ n = v * 16 + d ∧ n < UInt32.size := by
  unfold push
  split
  next hnone => simp [hnone]
  next d hd =>
    rw [hd]
    split
    next hlt =>
      constructor
      · intro h
        rcases Except.ok.inj h with rfl
        exact ⟨d, rfl, rfl, hlt⟩
      · rintro ⟨d', hd', rfl, -⟩
        rw [Option.some.inj hd']
    next hge =>
      constructor
      · intro h
        exact absurd h nofun
      · rintro ⟨d', hd', rfl, hlt⟩
        rw [← Option.some.inj hd'] at hlt
        exact absurd hlt hge

/-- The last digit is taken when those before it have been read. -/
theorem foldlM_push_concat_eq_ok_iff : (cs ++ [ch]).foldlM (push 16) 0 = .ok n ↔
    ∃ v, cs.foldlM (push 16) 0 = .ok v ∧ push 16 v ch = .ok n := by
  rw [List.foldlM_append]
  cases hcs : cs.foldlM (push 16) 0 with
  | error e =>
    constructor
    · intro h
      exact absurd h nofun
    · rintro ⟨v, hv, -⟩
      exact absurd hv nofun
  | ok v =>
    have hlast : (Except.ok v >>= fun v => [ch].foldlM (push 16) v) = push 16 v ch :=
      bind_pure (push 16 v ch)
    rw [hlast]
    constructor
    · intro h
      exact ⟨v, rfl, h⟩
    · rintro ⟨v', hv', h⟩
      rw [Except.ok.inj hv']
      exact h

/-- Digits are read if 32 bits hold their number. No digits at all are read as nothing. -/
theorem foldlM_push_eq_ok_iff : cs.foldlM (push 16) 0 = .ok n ↔
    n < UInt32.size ∧ (cs = [] ∧ n = 0 ∨ IsHex cs n) := by
  induction cs using List.reverseRecOn generalizing n with
  | nil =>
    constructor
    · intro h
      rcases Except.ok.inj h with rfl
      exact ⟨by decide, .inl ⟨rfl, rfl⟩⟩
    · rintro ⟨-, ⟨-, rfl⟩ | h⟩
      · rfl
      · exact absurd h not_isHex_nil
  | append_singleton cs ch ih =>
    rw [foldlM_push_concat_eq_ok_iff, isHex_concat]
    constructor
    · rintro ⟨v, hv, hpush⟩
      rcases push_eq_ok_iff.mp hpush with ⟨d, hd, hn, hlt⟩
      exact ⟨hlt, .inr ⟨d, v, hd, hn, (ih.mp hv).2⟩⟩
    · rintro ⟨hlt, ⟨hnil, -⟩ | ⟨d, v, hd, hn, hcs⟩⟩
      · exact absurd hnil (by simp)
      · have hv : v < UInt32.size := by omega
        exact ⟨v, ih.mpr ⟨hv, hcs⟩, push_eq_ok_iff.mpr ⟨d, hd, hn, hlt⟩⟩

/-- The digits of a codepoint, and nothing else, are read as it. -/
theorem readDigits_eq_ok_iff (hne : cs ≠ []) {c : UInt32} :
    readDigits 16 cs = .ok c ↔ IsHex cs c.toNat := by
  have hfold : cs.foldlM (push 16) 0 = .ok c.toNat ↔ IsHex cs c.toNat := by
    rw [foldlM_push_eq_ok_iff]
    exact ⟨fun h => h.2.resolve_left fun hnil => hne hnil.1, fun h => ⟨c.toNat_lt, .inr h⟩⟩
  rw [← hfold, readDigits]
  cases hcs : cs.foldlM (push 16) 0 with
  | error e => exact ⟨nofun, nofun⟩
  | ok n =>
    have hlt := (foldlM_push_eq_ok_iff.mp hcs).1
    constructor
    · intro h
      rw [← Except.ok.inj h, UInt32.toNat_ofNat_of_lt' hlt]
    · intro h
      rw [Except.ok.inj h]
      exact congrArg Except.ok c.ofNat_toNat

theorem IsHex.not_mem_sign (h : IsHex cs n) : '+' ∉ cs := by
  intro hmem
  rcases h.exists_digit hmem with ⟨d, hd⟩
  have hall : OnDigits (· ≠ '+') := by decide
  exact hall.of_digitValue? hd rfl

/-- The numerals of a codepoint, and nothing else, are read as it. -/
theorem read_eq_ok_iff {c : UInt32} : read 16 cs = .ok c ↔ IsNumeral cs c.toNat := by
  have hsigned : ∀ digits, IsNumeral ('+' :: digits) c.toNat ↔ IsHex digits c.toNat := by
    intro digits
    constructor
    · rintro ⟨ds, hds, rfl | hcons⟩
      · exact absurd List.mem_cons_self hds.not_mem_sign
      · rw [(List.cons.inj hcons).2]
        exact hds
    · intro h
      exact ⟨digits, h, .inr rfl⟩
  unfold read
  split
  next =>
    constructor
    · intro h
      exact absurd h nofun
    · rintro ⟨ds, hds, rfl | hcons⟩
      · exact absurd hds not_isHex_nil
      · exact absurd hcons nofun
  next =>
    rw [hsigned]
    exact ⟨nofun, fun h => absurd h not_isHex_nil⟩
  next digits hne =>
    rw [hsigned]
    exact readDigits_eq_ok_iff hne
  next hne _ hcons =>
    rw [readDigits_eq_ok_iff hne]
    constructor
    · intro h
      exact ⟨cs, h, .inl rfl⟩
    · rintro ⟨ds, hds, rfl | rfl⟩
      · exact hds
      · exact absurd rfl (hcons ds)

/-- A numeral has one number, with a sign or without. -/
theorem IsNumeral.unique (h : IsNumeral cs n) (h' : IsNumeral cs n') : n = n' := by
  rcases h with ⟨ds, hds, hcs⟩
  rcases h' with ⟨ds', hds', hcs'⟩
  rcases hcs with rfl | rfl <;> rcases hcs' with heq | heq
  · exact hds.unique (heq ▸ hds')
  · exact absurd (heq ▸ List.mem_cons_self) hds.not_mem_sign
  · exact absurd (heq ▸ List.mem_cons_self) hds'.not_mem_sign
  · exact hds.unique ((List.cons.inj heq).2 ▸ hds')

/-- What holds for the sign and for all digits holds for the characters of numerals. -/
theorem IsNumeral.forall_mem {P : Char → Prop} (h : IsNumeral cs n) (hsign : P '+')
    (hdigits : OnDigits P) : ∀ ch ∈ cs, P ch := by
  rcases h with ⟨digits, hhex, hcs⟩
  have hall : ∀ ch ∈ digits, P ch := by
    intro ch hch
    rcases hhex.exists_digit hch with ⟨d, hd⟩
    exact hdigits.of_digitValue? hd
  rcases hcs with rfl | rfl
  · exact hall
  · exact List.forall_mem_cons.mpr ⟨hsign, hall⟩

end CaseFolding.Text.Numeral

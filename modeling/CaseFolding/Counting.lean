import CaseFolding.Fault

namespace CaseFolding

/-! # Counting within bounds

Codepoints are counted up within 32 bits, and amounts are taken from counts that
hold them. A step beyond the largest codepoint and a count that would fall below
zero are faults. Counts are kept in 64 bits, and a sum that does not fit is a fault
as well.
-/

/-- The codepoint one above. -/
def Codepoint.next? (c : Codepoint) : Except Fault Codepoint :=
  if c.toNat + 1 < UInt32.size then .ok (c + 1) else .error .sumTooLarge

/-- The codepoint a number of steps above. -/
def Codepoint.plus? (c : Codepoint) (steps : Nat) : Except Fault Codepoint :=
  if c.toNat + steps < UInt32.size then .ok (c + UInt32.ofNat steps) else .error .sumTooLarge

/-- The furthest codepoint that lies at most `distance` above. -/
def Codepoint.reach (c : Codepoint) (distance : UInt32) : Codepoint :=
  if c.toNat + distance.toNat < UInt32.size then c + distance else 0xFFFFFFFF

/-- What is left of a count. -/
def remaining? (count taken : Nat) : Except Fault Nat :=
  if taken ≤ count then .ok (count - taken) else .error .countTooSmall

/-- What is counted, provided that it fits. -/
def kept? {α : Type} (fits : Prop) [Decidable fits] (a : α) : Except Fault α :=
  if fits then .ok a else .error .sumTooLarge

/-- The sum of two counts. -/
def sum? (m n : Nat) : Except Fault Nat :=
  kept? (m + n < UInt64.size) (m + n)

variable {c d : Codepoint}

/-- One step up is one more. -/
theorem Codepoint.toNat_of_next?_eq_ok (h : c.next? = .ok d) : d.toNat = c.toNat + 1 := by
  unfold next? at h
  split at h
  next hlt =>
    rcases Except.ok.inj h with rfl
    rw [UInt32.toNat_add]
    exact Nat.mod_eq_of_lt hlt
  next => exact absurd h nofun

theorem Codepoint.next?_eq_ok (h : c < d) : c.next? = .ok (c + 1) := by
  have hlt := UInt32.lt_iff_toNat_lt.mp h
  have hd : d.toNat < UInt32.size := d.toNat_lt
  exact if_pos (by omega)

/-- What is within reach lies at most the distance above. -/
theorem Codepoint.le_reach_iff {distance : UInt32} :
    d ≤ c.reach distance ↔ d.toNat ≤ c.toNat + distance.toNat := by
  rw [UInt32.le_iff_toNat_le, reach]
  split
  next hlt => rw [UInt32.toNat_add, Nat.mod_eq_of_lt hlt]
  next hge =>
    have hd : d.toNat < UInt32.size := d.toNat_lt
    have hmax : (0xFFFFFFFF : Codepoint).toNat + 1 = UInt32.size := rfl
    omega

theorem remaining?_eq_ok {count taken : Nat} (h : taken ≤ count) :
    remaining? count taken = .ok (count - taken) :=
  if_pos h

section

variable {α β : Type} {p q : Prop} [Decidable p] [Decidable q] {a : α} {b : β}

theorem kept?_eq_ok (h : p) : kept? p a = .ok a :=
  if_pos h

theorem kept?_congr (h : p ↔ q) : kept? p a = kept? q a := by
  by_cases hp : p
  · exact (kept?_eq_ok hp).trans (kept?_eq_ok (h.mp hp)).symm
  · exact (if_neg hp).trans (if_neg fun hq => hp (h.mpr hq)).symm

/-- What is made of something that is kept is kept under the same condition. -/
theorem kept?_map (g : α → β) : kept? p a >>= (fun x => .ok (g x)) = kept? p (g a) := by
  by_cases hp : p
  · rw [kept?_eq_ok hp, kept?_eq_ok hp]
    rfl
  · rw [kept?, kept?, if_neg hp, if_neg hp]
    rfl

/-- What is worked out from something that is kept is kept if both fit. -/
theorem kept?_bind {f : α → Except Fault β} (h : p → f a = kept? q b) :
    kept? p a >>= f = kept? (p ∧ q) b := by
  by_cases hp : p
  · rw [kept?_eq_ok hp]
    exact (h hp).trans (kept?_congr (and_iff_right hp).symm)
  · rw [kept?, kept?, if_neg hp, if_neg fun hpq => hp hpq.1]
    rfl

end

end CaseFolding

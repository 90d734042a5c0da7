import CaseFolding.Interval.Basic
import CaseFolding.Proofs.Mapping.Fit
import Mathlib.Data.List.Basic

namespace CaseFolding.Interval

/-! # Codepoints of an interval

An interval is valid if it has a value and 32 bits hold each of its codepoints.
Then its pairs ascend, one for each codepoint of its span and for no other.
-/

/-- There is a value, and no codepoint wraps around. -/
structure IsValid (i : Interval) : Prop where
  pos : 0 < i.size
  bound : i.first.toNat + i.size ≤ UInt32.size

instance (i : Interval) : Decidable i.IsValid :=
  decidable_of_iff (0 < i.size ∧ i.first.toNat + i.size ≤ UInt32.size)
    ⟨fun h => ⟨h.1, h.2⟩, fun h => ⟨h.1, h.2⟩⟩

variable {i : Interval} {c v : Codepoint}

/-! ## Numbers -/

theorem toNat_add_ofNat {k : Nat} (h : c.toNat + k < UInt32.size) :
    (c + UInt32.ofNat k).toNat = c.toNat + k := by
  have hk : k < UInt32.size := by omega
  rw [UInt32.toNat_add, UInt32.toNat_ofNat_of_lt' hk]
  exact Nat.mod_eq_of_lt h

theorem eq_add_ofNat {d : Codepoint} {k : Nat} (h : d.toNat = c.toNat + k) :
    d = c + UInt32.ofNat k := by
  apply UInt32.toNat.inj
  have hd := d.toNat_lt
  rw [toNat_add_ofNat (by rw [← h]; exact hd), h]

theorem add_ofNat_succ (c : Codepoint) (k : Nat) :
    c + UInt32.ofNat (k + 1) = c + 1 + UInt32.ofNat k := by
  rw [UInt32.ofNat_add, UInt32.add_assoc, UInt32.add_comm (UInt32.ofNat k)]
  rfl

/-! ## Pairs -/

theorem pairs_cons (c v : Codepoint) (vs : List Codepoint) :
    (⟨c, v :: vs⟩ : Interval).pairs = (c, v) :: (⟨c + 1, vs⟩ : Interval).pairs := by
  have hzero : c + UInt32.ofNat 0 = c := UInt32.add_zero c
  simp only [pairs, List.mapIdx_cons, hzero, add_ofNat_succ]

theorem pairs_append (c : Codepoint) (vs ws : List Codepoint) :
    (⟨c, vs ++ ws⟩ : Interval).pairs =
      (⟨c, vs⟩ : Interval).pairs ++ (⟨c + UInt32.ofNat vs.length, ws⟩ : Interval).pairs := by
  induction vs generalizing c with
  | nil => simp [pairs]
  | cons v vs ih =>
    rw [List.cons_append, pairs_cons, pairs_cons, ih, List.length_cons, add_ofNat_succ]
    rfl

/-- A pair is a codepoint some way up together with the value there. -/
theorem mem_pairs {e : Entry} :
    e ∈ i.pairs ↔ ∃ k, i.values[k]? = some e.2 ∧ e.1 = i.first + UInt32.ofNat k := by
  rw [pairs, List.mem_iff_getElem?]
  constructor
  · rintro ⟨k, hk⟩
    rw [List.getElem?_mapIdx, Option.map_eq_some_iff] at hk
    rcases hk with ⟨v, hv, rfl⟩
    exact ⟨k, hv, rfl⟩
  · rintro ⟨k, hk, hfirst⟩
    refine ⟨k, ?_⟩
    rw [List.getElem?_mapIdx, hk, Option.map_some, ← hfirst]

/-! ## Valid intervals -/

namespace IsValid

theorem toNat_last (h : i.IsValid) : i.last.toNat + 1 = i.first.toNat + i.size := by
  rcases h with ⟨hpos, hbound⟩
  have hsize : i.size = i.size - 1 + 1 := (Nat.sub_add_cancel hpos).symm
  have hlast : i.last = i.first + UInt32.ofNat (i.size - 1) := by
    rw [last, hsize, UInt32.ofNat_add, Nat.add_sub_cancel, ← UInt32.add_assoc]
    exact UInt32.add_sub_cancel _ _
  rw [hlast, toNat_add_ofNat (by omega)]
  omega

theorem first_le_last (h : i.IsValid) : i.first ≤ i.last := by
  have hlast := h.toNat_last
  have hpos := h.pos
  rw [UInt32.le_iff_toNat_le]
  omega

theorem contains_first (h : i.IsValid) : i.contains i.first = true :=
  Span.contains_iff.mpr ⟨UInt32.le_refl _, h.first_le_last⟩

theorem contains_last (h : i.IsValid) : i.contains i.last = true :=
  Span.contains_iff.mpr ⟨h.first_le_last, UInt32.le_refl _⟩

theorem size_span (h : i.IsValid) : i.span.size = i.size := by
  have hlast := h.toNat_last
  have hpos := h.pos
  have hsub := UInt32.toNat_sub_of_le _ _ h.first_le_last
  rw [Span.size, span, hsub]
  omega

theorem contains_iff (h : i.IsValid) :
    i.contains c = true ↔ i.first.toNat ≤ c.toNat ∧ c.toNat < i.first.toNat + i.size := by
  have hlast := h.toNat_last
  rw [contains, Span.contains_iff, UInt32.le_iff_toNat_le, UInt32.le_iff_toNat_le]
  change i.first.toNat ≤ c.toNat ∧ c.toNat ≤ i.last.toNat ↔ _
  omega

/-- The pair of a codepoint has the value at its distance from the first one. -/
theorem mem_pairs_iff (h : i.IsValid) :
    (c, v) ∈ i.pairs ↔ i.contains c = true ∧ i.values[(c - i.first).toNat]? = some v := by
  have hbound := h.bound
  rw [mem_pairs, h.contains_iff]
  constructor
  · rintro ⟨k, hk, rfl⟩
    rcases List.getElem?_eq_some_iff.mp hk with ⟨hlt, -⟩
    have hadd : (i.first + UInt32.ofNat k).toNat = i.first.toNat + k :=
      toNat_add_ofNat (by rw [size] at hbound; omega)
    have hle : i.first ≤ i.first + UInt32.ofNat k := by
      rw [UInt32.le_iff_toNat_le]
      omega
    rw [UInt32.toNat_sub_of_le _ _ hle, hadd, Nat.add_sub_cancel_left]
    rw [size]
    exact ⟨⟨Nat.le_add_right _ _, by omega⟩, hk⟩
  · rintro ⟨⟨hle, -⟩, hget⟩
    rw [UInt32.toNat_sub_of_le _ _ (UInt32.le_iff_toNat_le.mpr hle)] at hget
    have hadd : c.toNat = i.first.toNat + (c.toNat - i.first.toNat) := by omega
    exact ⟨_, hget, eq_add_ofNat hadd⟩

theorem exists_mem_pairs (h : i.IsValid) (hc : i.contains c = true) : ∃ v, (c, v) ∈ i.pairs := by
  have hlt : (c - i.first).toNat < i.values.length := by
    have hindex := Span.toNat_sub_first_lt_size hc
    rw [h.size_span] at hindex
    exact hindex
  exact ⟨_, h.mem_pairs_iff.mpr ⟨hc, List.getElem?_eq_getElem hlt⟩⟩

theorem eq_of_mem_pairs (h : i.IsValid) {w : Codepoint} (hv : (c, v) ∈ i.pairs)
    (hw : (c, w) ∈ i.pairs) : v = w := by
  have hv := (h.mem_pairs_iff.mp hv).2
  have hw := (h.mem_pairs_iff.mp hw).2
  exact Option.some.inj (hv.symm.trans hw)

theorem get?_eq_some_iff (h : i.IsValid) : i.get? c = some v ↔ (c, v) ∈ i.pairs := by
  rw [h.mem_pairs_iff, get?, Option.ite_none_right_eq_some]

/-- The pairs ascend. -/
theorem ascending_pairs (h : i.IsValid) : i.pairs.Pairwise fun a b => a.1 < b.1 := by
  rw [List.pairwise_iff_getElem]
  intro j k hj hk hjk
  have hbound := h.bound
  rw [length_pairs] at hj hk
  simp only [pairs, List.getElem_mapIdx]
  rw [UInt32.lt_iff_toNat_lt, toNat_add_ofNat (by omega), toNat_add_ofNat (by omega)]
  omega

theorem getLast?_pairs (h : i.IsValid) : i.pairs.getLast?.map (·.1) = some i.last := by
  have hpos := h.pos
  have hbound := h.bound
  have hlast := h.toNat_last
  have hlt : i.size - 1 < i.values.length := by
    rw [size] at hpos ⊢
    omega
  have hvalue : i.values[i.size - 1]? = some i.values[i.size - 1] := List.getElem?_eq_getElem hlt
  have hup : i.first + UInt32.ofNat (i.size - 1) = i.last := by
    apply UInt32.toNat.inj
    rw [toNat_add_ofNat (by omega)]
    omega
  rw [List.getLast?_eq_getElem?, length_pairs, pairs, List.getElem?_mapIdx, hvalue, Option.map_some,
    Option.map_some, hup]

end IsValid

end CaseFolding.Interval

import CaseFolding.Mapping.Basic

namespace CaseFolding

/-! # Forms that fit their spans

A form fits a span if it says what to do with each of its codepoints: a list
has a value for each of them, and what follows a form of its own has one that
fits it. Such a form computes a value wherever it is asked. Nothing is wanted
of the place of an inner span, which may even reach out of the outer one.
-/

/-! ## Spans -/

namespace Span

variable {s : Span} {c : Codepoint}

theorem contains_iff : s.contains c = true ↔ s.first ≤ c ∧ c ≤ s.last := by
  simp [contains]

theorem toNat_sub_first_lt_size (h : s.contains c = true) : (c - s.first).toNat < s.size := by
  rcases contains_iff.mp h with ⟨hfirst, hlast⟩
  have hle := UInt32.le_trans hfirst hlast
  rw [size, UInt32.toNat_sub_of_le _ _ hfirst, UInt32.toNat_sub_of_le _ _ hle]
  rw [UInt32.le_iff_toNat_le] at hlast
  omega

end Span

/-! ## Forms -/

namespace Form

/-- The form has something to compute for every codepoint of the span. -/
def Fits : Form → Span → Prop
  | reset values, span => values.length = span.size
  | table values, span => values.length = span.size
  | setException inner patch, _ => patch.Fits inner
  | _, _ => True

instance decidableFits : (form : Form) → (span : Span) → Decidable (form.Fits span)
  | single _, _ => inferInstanceAs (Decidable True)
  | delta _, _ => inferInstanceAs (Decidable True)
  | deltaException .., _ => inferInstanceAs (Decidable True)
  | set, _ => inferInstanceAs (Decidable True)
  | reset values, span => inferInstanceAs (Decidable (values.length = span.size))
  | table values, span => inferInstanceAs (Decidable (values.length = span.size))
  | setException inner patch, _ => decidableFits patch inner

variable {span : Span} {c : Codepoint}

theorem lookup_eq_ok {values : List Codepoint} (hvalues : values.length = span.size)
    (hc : span.contains c = true) :
    ∃ v, values[(c - span.first).toNat]? = some v ∧ lookup span.first values c = .ok v := by
  have hlt : (c - span.first).toNat < values.length := by
    rw [hvalues]
    exact Span.toNat_sub_first_lt_size hc
  have hget := List.getElem?_eq_getElem hlt
  exact ⟨_, hget, by rw [lookup, hget]⟩

/-- A form that fits computes a value for each codepoint of its span. -/
theorem exists_apply_eq_ok {form : Form} (hfits : form.Fits span) (hc : span.contains c = true) :
    ∃ v, form.apply span.first c = .ok v := by
  -- a form of its own is asked on the inner span
  induction form generalizing span with
  | single result => exact ⟨_, rfl⟩
  | delta d => exact ⟨_, rfl⟩
  | deltaException d exception result => exact ⟨_, rfl⟩
  | set => exact ⟨_, rfl⟩
  | reset values =>
    rcases lookup_eq_ok hfits hc with ⟨v, -, hv⟩
    exact ⟨v, hv⟩
  | table values =>
    rcases lookup_eq_ok hfits hc with ⟨v, -, hv⟩
    exact ⟨v, hv⟩
  | setException inner patch ih =>
    rw [apply]
    split
    next hinner => exact ih hfits hinner
    next => exact ⟨_, rfl⟩

end Form

/-! ## Mappings -/

/-- The form of the mapping fits its span. -/
def Mapping.Fits (m : Mapping) : Prop := m.form.Fits m.span

instance (m : Mapping) : Decidable m.Fits :=
  inferInstanceAs (Decidable (m.form.Fits m.span))

end CaseFolding

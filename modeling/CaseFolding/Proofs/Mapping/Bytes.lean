import CaseFolding.Proofs.Code.Element
import CaseFolding.Proofs.Mapping.Shape

namespace CaseFolding

/-! # Bytes of lookup tables

Most rules find forms that take no lookup table. The rule for inner spans may
need one, but it holds part of the values of the interval, which a lookup table
for the whole interval would hold as well. So with more rules to choose from,
the form of an interval never takes more bytes.
-/

/-! ## Lists of values -/

theorem Form.listBytes_le {vs ws : List Codepoint} (hmem : ∀ v ∈ vs, v ∈ ws)
    (hlength : vs.length ≤ ws.length) : Form.listBytes vs ≤ Form.listBytes ws :=
  Nat.mul_le_mul hlength (Element.bytes_holding_le hmem)

namespace Interval

variable {i patch : Interval} {f : Form} {r : Rule}

/-- Values that are taken one by one take no more than a lookup table. -/
theorem tableBytes_listed_le (i : Interval) : i.listed.tableBytes ≤ Form.listBytes i.values := by
  unfold listed
  split
  next => exact Nat.zero_le _
  next => exact Nat.le_refl _

/-- A patch takes no more than a lookup table for the interval. -/
theorem IsPatch.tableBytes_le (h : i.IsPatch patch) :
    patch.listed.tableBytes ≤ Form.listBytes i.values := by
  have hvalues : ∀ v ∈ patch.values, v ∈ i.values := by
    intro v hv
    rw [← map_snd_pairs] at hv ⊢
    rcases List.mem_map.mp hv with ⟨e, he, rfl⟩
    exact List.mem_map_of_mem (h.mem_pairs e he)
  have hlength : patch.values.length ≤ i.values.length := by
    have hsub := List.subperm_of_subset (Table.nodup_of_ascending h.valid.ascending_pairs)
      h.mem_pairs
    have hle := hsub.length_le
    rw [length_pairs, length_pairs] at hle
    exact hle
  exact Nat.le_trans patch.tableBytes_listed_le (Form.listBytes_le hvalues hlength)

/-! ## The choice -/

/-- All rules but the last one find forms without a lookup table. -/
theorem IsValid.tableBytes_eq_zero (hi : i.IsValid) (hsize : i.size ≠ 1) (hr : r ≠ .setException)
    (h : Rule.form? i r = some f) : f.tableBytes = 0 := by
  cases r with
  | delta =>
    rcases eq_delta_of_delta? h with ⟨d, rfl⟩
    rfl
  | deltaException =>
    rcases eq_deltaException_of_deltaException? h with ⟨d, c, v, rfl⟩
    rfl
  | set =>
    rcases eq_set_of_set? h with rfl
    rfl
  | reset => exact absurd (h.symm.trans (hi.reset?_eq_none hsize)) nofun
  | setException => exact absurd rfl hr

/-- The last rule finds forms that take no more than a lookup table. -/
theorem IsValid.tableBytes_le_of_setException? (hi : i.IsValid) (h : i.setException? = some f) :
    f.tableBytes ≤ Form.listBytes i.values := by
  rcases hi.exists_patch_of_setException? h with ⟨patch, hpatch, rfl⟩
  exact hpatch.tableBytes_le

end Interval

/-! ## More rules -/

/-- Every rule that is switched on in `s` is switched on in `s'` as well. -/
def Switches.IsWithin (s s' : Switches) : Prop :=
  ∀ r, s.allows r = true → s'.allows r = true

theorem Switches.tablesOnly_isWithin (s : Switches) : Switches.tablesOnly.IsWithin s := by
  intro r hr
  cases r <;> exact absurd hr Bool.false_ne_true

namespace Rule

variable {i : Interval} {f : Form} {s s' : Switches} {rules : List Rule}

/-- The rules whose forms take no lookup table. They are tried before the last one. -/
def free : List Rule := [.delta, .deltaException, .set, .reset]

/-- The last rule decides if none of the others does. -/
theorem firstForm?_inOrder (s : Switches) (i : Interval) :
    firstForm? s inOrder i = (firstForm? s free i).or (firstForm? s [.setException] i) := by
  have horder : inOrder = free ++ [.setException] := rfl
  rw [horder, firstForm?, List.filter_append, List.findSome?_append]
  rfl

/-- Where more rules find nothing, fewer do not either. -/
theorem firstForm?_eq_none_of_isWithin (h : s.IsWithin s') (hnone : firstForm? s' rules i = none) :
    firstForm? s rules i = none := by
  rw [firstForm?, List.findSome?_eq_none_iff] at hnone ⊢
  intro r hr
  rcases List.mem_filter.mp hr with ⟨hmem, hallows⟩
  exact hnone r (List.mem_filter.mpr ⟨hmem, h r hallows⟩)

/-- What the last rule finds is found with more rules switched on as well. -/
theorem firstForm?_setException_of_isWithin (h : s.IsWithin s')
    (hsome : firstForm? s [.setException] i = some f) :
    firstForm? s' [.setException] i = some f := by
  rcases List.exists_of_findSome?_eq_some hsome with ⟨r, hr, hform⟩
  rcases List.mem_filter.mp hr with ⟨hmem, hallows⟩
  rcases List.mem_singleton.mp hmem with rfl
  rw [firstForm?, List.filter_cons_of_pos (h _ hallows), List.findSome?_cons_of_isSome]
  · exact hform
  · rw [hform]
    rfl

end Rule

namespace Interval

variable {i : Interval} {s s' : Switches}

/-- With more rules switched on, the form of an interval takes no more bytes. -/
theorem IsValid.tableBytes_form_le (hi : i.IsValid) (h : s.IsWithin s') :
    (i.form s').tableBytes ≤ (i.form s).tableBytes := by
  unfold form
  split
  next => exact Nat.le_refl _
  next hsize =>
    rw [Rule.firstForm?_inOrder, Rule.firstForm?_inOrder]
    cases hfree : Rule.firstForm? s' Rule.free i with
    | some g =>
      -- one of the free rules decides
      rcases List.exists_of_findSome?_eq_some hfree with ⟨r, hr, hform⟩
      have hr : r ≠ .setException := by
        rintro rfl
        exact absurd (List.mem_filter.mp hr).1 (by decide)
      rw [Option.some_or, Option.getD_some, hi.tableBytes_eq_zero hsize hr hform]
      exact Nat.zero_le _
    | none =>
      -- none of them does, with fewer rules either
      rw [Rule.firstForm?_eq_none_of_isWithin h hfree, Option.none_or, Option.none_or]
      cases hlast : Rule.firstForm? s [.setException] i with
      | some f =>
        apply Nat.le_of_eq
        rw [Rule.firstForm?_setException_of_isWithin h hlast]
      | none =>
        cases hlast' : Rule.firstForm? s' [.setException] i with
        | none => exact Nat.le_refl _
        | some g =>
          rcases List.exists_of_findSome?_eq_some hlast' with ⟨r, hr, hform⟩
          rcases List.mem_singleton.mp (List.mem_filter.mp hr).1 with rfl
          exact hi.tableBytes_le_of_setException? hform

end Interval

end CaseFolding

import CaseFolding.Proofs.Mapping.Classify
import CaseFolding.Stats

namespace CaseFolding

/-! # How deep forms go

A form may hold a form for an inner span, which may hold another one in turn.
The forms that are chosen for intervals go one step at most: the inner span lies
within the interval, and there the values are taken one by one. So the code of
such a form makes at most two tests.
-/

theorem Span.length_innerTests_le (outer inner : Span) : (outer.innerTests inner).length ≤ 2 := by
  unfold innerTests
  split
  · exact Nat.le_succ 1
  · split <;> split <;> simp

/-! ## Shallow forms -/

namespace Form

/-- The values are taken one by one. -/
def IsListed : Form → Prop
  | single _ => True
  | table _ => True
  | _ => False

/-- An inner span lies within the outer one, and there the values are taken one by one. -/
def IsShallow : Form → Span → Prop
  | setException inner patch, span =>
    span.contains inner.first = true ∧ span.contains inner.last = true ∧ patch.IsListed
  | _, _ => True

variable {form : Form} {span : Span}

theorem IsListed.isShallow (h : form.IsListed) (span : Span) : form.IsShallow span := by
  cases form with
  | setException inner patch => exact h.elim
  | _ => trivial

theorem IsListed.guards_eq_zero (h : form.IsListed) (span : Span) : form.guards span = 0 := by
  cases form with
  | single result => rfl
  | table values => rfl
  | _ => exact h.elim

/-- A shallow form takes two tests at most. -/
theorem IsShallow.guards_le (h : form.IsShallow span) : form.guards span ≤ 2 := by
  cases form with
  | setException inner patch =>
    rw [guards, h.2.2.guards_eq_zero inner, Nat.add_zero]
    exact span.length_innerTests_le inner
  | deltaException d exception result => exact Nat.le_succ 1
  | _ => exact Nat.zero_le 2

end Form

/-! ## What the rules find -/

namespace Interval

variable {i : Interval} {f : Form}

theorem eq_delta_of_delta? (h : i.delta? = some f) : ∃ d, f = .delta d := by
  unfold delta? at h
  split at h
  next => exact absurd h nofun
  next d ds _ => exact ⟨d, (Option.some.inj (Option.ite_none_right_eq_some.mp h).2).symm⟩

/-- The second one finds distances with an exception. -/
theorem eq_deltaException_of_deltaException? (h : i.deltaException? = some f) :
    ∃ d c v, f = .deltaException d c v := by
  unfold deltaException? at h
  split at h
  next => exact absurd h nofun
  next =>
    rcases Option.bind_eq_some_iff.mp h with ⟨d, -, h⟩
    rcases Option.bind_eq_some_iff.mp h with ⟨e, -, h⟩
    exact ⟨d, e.1, e.2, (Option.some.inj h).symm⟩

theorem eq_set_of_set? (h : i.set? = some f) : f = .set :=
  (Option.some.inj (Option.ite_none_right_eq_some.mp h).2).symm

theorem eq_reset_of_reset? (h : i.reset? = some f) : f = .reset i.values :=
  (Option.some.inj (Option.ite_none_right_eq_some.mp h).2).symm

/-! ## The choice -/

theorem isListed_listed (i : Interval) : i.listed.IsListed := by
  unfold listed
  split <;> trivial

/-- A patch reaches from one codepoint of the interval to another. -/
theorem IsPatch.isShallow {patch : Interval} (h : i.IsPatch patch) (hi : i.IsValid) :
    (Form.setException patch.span patch.listed).IsShallow i.span := by
  have hcontains : ∀ c, patch.contains c = true → i.contains c = true := by
    intro c hc
    rcases h.valid.exists_mem_pairs hc with ⟨v, hv⟩
    exact (hi.mem_pairs_iff.mp (h.mem_pairs _ hv)).1
  exact ⟨hcontains patch.first h.valid.contains_first, hcontains patch.last h.valid.contains_last,
    patch.isListed_listed⟩

/-- Whatever a rule finds is shallow. -/
theorem isShallow_of_form? (hi : i.IsValid) {r : Rule} (h : Rule.form? i r = some f) :
    f.IsShallow i.span := by
  cases r with
  | delta =>
    rcases eq_delta_of_delta? h with ⟨d, rfl⟩
    trivial
  | deltaException =>
    rcases eq_deltaException_of_deltaException? h with ⟨d, c, v, rfl⟩
    trivial
  | set =>
    rcases eq_set_of_set? h with rfl
    trivial
  | reset =>
    rcases eq_reset_of_reset? h with rfl
    trivial
  | setException =>
    rcases hi.exists_patch_of_setException? h with ⟨patch, hpatch, rfl⟩
    exact hpatch.isShallow hi

/-- The form that is chosen for a valid interval is shallow, whichever rules are switched on. -/
theorem IsValid.isShallow_form (hi : i.IsValid) (s : Switches) : (i.form s).IsShallow i.span := by
  unfold form
  split
  next => exact i.isListed_listed.isShallow i.span
  next =>
    cases hfirst : Rule.firstForm? s Rule.inOrder i with
    | none => trivial
    | some g =>
      rcases List.exists_of_findSome?_eq_some hfirst with ⟨r, -, hr⟩
      exact isShallow_of_form? hi hr

end Interval

end CaseFolding

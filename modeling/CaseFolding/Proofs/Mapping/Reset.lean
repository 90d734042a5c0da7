import CaseFolding.Proofs.Mapping.Census
import CaseFolding.Proofs.Mapping.Shape

namespace CaseFolding

/-! # A rule that never applies

One rule asks of every value that it be its codepoint when it loses its lowest bit.
Then no codepoint of the interval is odd, so there is just one of them, and a single
codepoint is not put to the rules. Whatever the rule would have found is never found,
and nothing tells whether it is switched on.
-/

/-- The kind of a form and those of the forms within it, from the outside in. -/
def Form.kinds : Form → List Kind
  | setException _ patch => .setException :: patch.kinds
  | f => [f.kind]

/-- Every rule but one is switched on in both settings or in neither. -/
def Switches.AgreesBut (s : Switches) (r : Rule) (s' : Switches) : Prop :=
  ∀ q, q ≠ r → s.allows q = s'.allows q

theorem Switches.agreesBut_reset (s : Switches) (on : Bool) :
    ({ s with reset := on } : Switches).AgreesBut .reset s := by
  intro q hq
  cases q with
  | reset => exact absurd rfl hq
  | _ => rfl

/-! ## Rules that find nothing -/

namespace Rule

variable {i : Interval} {s s' : Switches} {r : Rule} {rules : List Rule}

/-- Only the rules that find something need to be switched on or off alike. -/
theorem firstForm?_congr (h : ∀ r ∈ rules, form? i r ≠ none → s.allows r = s'.allows r) :
    firstForm? s rules i = firstForm? s' rules i := by
  induction rules with
  | nil => rfl
  | cons r rules ih =>
    rcases List.forall_mem_cons.mp h with ⟨hr, hrules⟩
    rw [firstForm?_cons, firstForm?_cons, ih hrules]
    cases hform : form? i r with
    | none =>
      rw [Option.none_or]
      split <;> split <;> rfl
    | some f =>
      have hfound : form? i r ≠ none := by simp [hform]
      rw [hr hfound]

end Rule

namespace Interval

variable {i : Interval} {s s' : Switches} {f : Form} {r : Rule}

/-! ## Counting -/

/-- Of two codepoints or more not all are counted for the rule. -/
theorem IsValid.resetCount_lt (hi : i.IsValid) (hsize : i.size ≠ 1) : i.resetCount < i.size := by
  have hle : i.resetCount ≤ i.size := by
    rw [← length_pairs]
    exact List.countP_le_length
  apply Nat.lt_of_le_of_ne hle
  intro hcount
  have hfound : i.reset? = some (.reset i.values) := if_pos hcount
  exact absurd (hfound.symm.trans (hi.reset?_eq_none hsize)) nofun

/-- The walk along the interval does not count all of them either. -/
theorem IsValid.exists_census_reset_lt (hi : i.IsValid) (hsize : i.size ≠ 1)
    (hroom : i.first.toNat + i.size + 1 < UInt32.size) :
    ∃ k, Census.ofInterval? i = .ok k ∧ k.reset < i.size := by
  rcases Census.counts_ofInterval? hroom with ⟨k, hwalk, hcounts⟩
  refine ⟨k, hwalk, ?_⟩
  rw [hcounts.reset]
  exact hi.resetCount_lt hsize

/-! ## The choice -/

/-- Values taken one by one are of no kind but two. -/
theorem reset_notMem_kinds_of_isListed (h : f.IsListed) : Kind.reset ∉ f.kinds := by
  cases f with
  | single result => simp [Form.kinds, Form.kind]
  | table values => simp [Form.kinds, Form.kind]
  | _ => exact h.elim

/-- No rule finds a form of the kind in question, nor one that holds it. -/
theorem IsValid.reset_notMem_kinds_of_form? (hi : i.IsValid) (hsize : i.size ≠ 1)
    (h : Rule.form? i r = some f) : Kind.reset ∉ f.kinds := by
  cases r with
  | delta =>
    rcases eq_delta_of_delta? h with ⟨d, rfl⟩
    simp [Form.kinds, Form.kind]
  | deltaException =>
    rcases eq_deltaException_of_deltaException? h with ⟨d, c, v, rfl⟩
    simp [Form.kinds, Form.kind]
  | set =>
    rcases eq_set_of_set? h with rfl
    simp [Form.kinds, Form.kind]
  | reset => exact absurd (h.symm.trans (hi.reset?_eq_none hsize)) nofun
  | setException =>
    rcases hi.exists_patch_of_setException? h with ⟨patch, -, rfl⟩
    have hpatch := reset_notMem_kinds_of_isListed patch.isListed_listed
    simp [Form.kinds, hpatch]

/-- Neither the form that is chosen nor one within it is of that kind. -/
theorem IsValid.reset_notMem_kinds_form (hi : i.IsValid) (s : Switches) :
    Kind.reset ∉ (i.form s).kinds := by
  unfold form
  split
  next => exact reset_notMem_kinds_of_isListed i.isListed_listed
  next hsize =>
    cases hfirst : Rule.firstForm? s Rule.inOrder i with
    | none => exact reset_notMem_kinds_of_isListed (f := .table i.values) trivial
    | some g =>
      rcases List.exists_of_findSome?_eq_some hfirst with ⟨r, -, hr⟩
      exact hi.reset_notMem_kinds_of_form? hsize hr

/-! ## The switch -/

/-- With other rules switched on or off alike, the first form found is the same. -/
theorem IsValid.firstForm?_congr (hi : i.IsValid) (hsize : i.size ≠ 1) (h : s.AgreesBut .reset s')
    (rules : List Rule) : Rule.firstForm? s rules i = Rule.firstForm? s' rules i := by
  apply Rule.firstForm?_congr
  intro r _ hfound
  apply h
  rintro rfl
  exact hfound (hi.reset?_eq_none hsize)

theorem IsValid.form_congr (hi : i.IsValid) (h : s.AgreesBut .reset s') :
    i.form s = i.form s' := by
  unfold form
  split
  next => rfl
  next hsize => rw [hi.firstForm?_congr hsize h]

theorem IsValid.formByCount?_congr (hi : i.IsValid)
    (hroom : i.first.toNat + i.size + 1 < UInt32.size) (h : s.AgreesBut .reset s') :
    i.formByCount? s = i.formByCount? s' := by
  rw [hi.formByCount?_eq_ok s hroom, hi.formByCount?_eq_ok s' hroom, hi.form_congr h]

theorem IsValid.classify_congr (hi : i.IsValid) (h : s.AgreesBut .reset s') :
    i.classify s = i.classify s' := by
  rw [classify, classify, hi.form_congr h]

/-- What is reported of the choice is the same. -/
theorem IsValid.classifyRecords_congr (hi : i.IsValid) (h : s.AgreesBut .reset s') :
    i.classifyRecords s = i.classifyRecords s' := by
  have hchosen : i.chosen s = i.chosen s' := by rw [chosen, chosen, hi.form_congr h]
  unfold classifyRecords
  split
  next => rw [hchosen]
  next hsize =>
    have hlast : s.setException = s'.setException := h .setException nofun
    rw [hchosen, scattered, scattered, hlast, hi.firstForm?_congr hsize h]

end Interval

end CaseFolding

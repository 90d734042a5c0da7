import CaseFolding.Mapping.Classify
import CaseFolding.Proofs.Table.Basic
import CaseFolding.Proofs.Table.Gaps
import Mathlib.Data.List.Perm.Subperm
import Mathlib.Tactic.ByContra

namespace CaseFolding.Interval

/-! # Forms compute the values

A form that a rule finds for an interval computes just the values of the
interval, and so does the lookup table that is left where no rule applies. What
is shown of each rule is the same; the classifier is then right whichever of
them are switched on.
-/

/-- A form stands for an interval: it fits the span and computes each value. -/
structure IsExact (i : Interval) (f : Form) : Prop where
  fits : f.Fits i.span
  apply : ∀ e ∈ i.pairs, f.apply i.first e.1 = .ok e.2

variable {i : Interval} {f : Form}

/-! ## Lists -/

theorem IsValid.lookup_eq_ok (hi : i.IsValid) {e : Entry} (he : e ∈ i.pairs) :
    Form.lookup i.first i.values e.1 = .ok e.2 := by
  have hget := (hi.mem_pairs_iff.mp he).2
  rw [Form.lookup, hget]

theorem IsValid.length_values (hi : i.IsValid) : i.values.length = i.span.size :=
  hi.size_span.symm

theorem IsValid.isExact_table (hi : i.IsValid) : i.IsExact (.table i.values) :=
  ⟨hi.length_values, fun _ he => hi.lookup_eq_ok he⟩

/-- The values taken one by one. -/
theorem IsValid.isExact_listed (hi : i.IsValid) : i.IsExact i.listed := by
  unfold listed
  split
  next v hv =>
    refine ⟨trivial, ?_⟩
    intro e he
    have hget := (hi.mem_pairs_iff.mp he).2
    have hmem := List.mem_of_getElem? hget
    rw [hv, List.mem_singleton] at hmem
    rw [Form.apply, hmem]
  next => exact hi.isExact_table

/-! ## Distances -/

theorem offset_eq {e : Entry} {d : Int} (h : (e.2.toNat : Int) - e.1.toNat = d) :
    Form.offset e.1 d = e.2 := by
  apply UInt32.toNat.inj
  have hvalue : e.2.toNat < 2 ^ 32 := e.2.toNat_lt
  have hsum : (e.1.toNat : Int) + d = e.2.toNat := by omega
  rw [Form.offset, hsum, UInt32.ofInt, UInt32.toNat_ofNat']
  omega

/-- All values lie equally far above their codepoints. -/
theorem isExact_of_delta? (h : i.delta? = some f) : i.IsExact f := by
  unfold delta? at h
  split at h
  next => exact absurd h nofun
  next d ds hdeltas =>
    rcases Option.ite_none_right_eq_some.mp h with ⟨hall, hf⟩
    rcases Option.some.inj hf with rfl
    refine ⟨trivial, ?_⟩
    intro e he
    have hmem : (e.2.toNat : Int) - e.1.toNat ∈ d :: ds := by
      rw [← hdeltas]
      exact List.mem_map_of_mem he
    have hd : (e.2.toNat : Int) - e.1.toNat = d := by
      rcases List.mem_cons.mp hmem with hd | hd
      · exact hd
      · simpa using List.all_eq_true.mp hall _ hd
    rw [Form.apply, offset_eq hd]

/-- Where all elements but one have a property, no two of them lack it. -/
theorem eq_of_countP {α : Type} {p : α → Bool} {as : List α}
    (h : as.countP p = as.length - 1) (hne : as ≠ []) {a b : α} (ha : a ∈ as) (hb : b ∈ as)
    (hpa : p a = false) (hpb : p b = false) : a = b := by
  -- those that lack it can be counted as well, and there is one
  have hpos := List.length_pos_iff.mpr hne
  have hrest : (as.filter fun x => !p x).length = 1 := by
    have hsum := List.length_eq_countP_add_countP p (l := as)
    rw [← List.countP_eq_length_filter]
    have hnot : as.countP (fun x => !p x) = as.countP (fun x => decide ¬ p x = true) := by
      simp
    omega
  rcases List.length_eq_one_iff.mp hrest with ⟨x, hx⟩
  have hax : a ∈ as.filter fun x => !p x := by simp [ha, hpa]
  have hbx : b ∈ as.filter fun x => !p x := by simp [hb, hpb]
  rw [hx, List.mem_singleton] at hax hbx
  rw [hax, hbx]

/-- All values but one lie equally far above their codepoints. -/
theorem isExact_of_deltaException? (hi : i.IsValid) (h : i.deltaException? = some f) :
    i.IsExact f := by
  unfold deltaException? at h
  split at h
  next => exact absurd h nofun
  next =>
    rcases Option.bind_eq_some_iff.mp h with ⟨d, hd, h⟩
    rcases Option.bind_eq_some_iff.mp h with ⟨x, hx, h⟩
    rcases Option.some.inj h with rfl
    have hcount : i.deltas.count d = i.size - 1 := by simpa using List.find?_some hd
    have hdeviates : (x.2.toNat : Int) - x.1.toNat ≠ d := by simpa using List.find?_some hx
    have hxmem := List.mem_of_find?_eq_some hx
    have hcountP : i.pairs.countP (fun e => (e.2.toNat : Int) - e.1.toNat == d) =
        i.pairs.length - 1 := by
      rw [length_pairs, ← hcount, List.count, deltas, List.countP_map]
      rfl
    refine ⟨trivial, ?_⟩
    intro e he
    rw [Form.apply]
    by_cases heq : e.1 = x.1
    · -- the exception itself
      have hvalue : e.2 = x.2 := hi.eq_of_mem_pairs (c := e.1) he (heq ▸ hxmem)
      rw [if_pos heq, hvalue]
    · have hconforms : (e.2.toNat : Int) - e.1.toNat = d := by
        by_contra hne
        have hex := eq_of_countP hcountP (List.ne_nil_of_mem he) he hxmem
          (beq_eq_false_iff_ne.mpr hne) (beq_eq_false_iff_ne.mpr hdeviates)
        exact heq (congrArg Prod.fst hex)
      rw [if_neg heq, offset_eq hconforms]

/-! ## The lowest bit -/

/-- All values are their codepoints with the lowest bit set. -/
theorem isExact_of_set? (h : i.set? = some f) : i.IsExact f := by
  rcases Option.ite_none_right_eq_some.mp h with ⟨hcount, hf⟩
  rcases Option.some.inj hf with rfl
  rw [setCount, ← length_pairs, List.countP_eq_length] at hcount
  refine ⟨trivial, ?_⟩
  intro e he
  have hset : e.1 ||| 1 = e.2 := by simpa [isSet] using hcount e he
  rw [Form.apply, hset]

/-- The values without their lowest bit are their codepoints, and they are looked up. -/
theorem isExact_of_reset? (hi : i.IsValid) (h : i.reset? = some f) : i.IsExact f := by
  rcases Option.ite_none_right_eq_some.mp h with ⟨-, hf⟩
  rcases Option.some.inj hf with rfl
  exact ⟨hi.length_values, fun _ he => hi.lookup_eq_ok he⟩

theorem even_of_isReset {e : Entry} (h : isReset e = true) : e.1.toNat % 2 = 0 := by
  have heq : e.2 &&& ~~~1 = e.1 := by simpa [isReset] using h
  have hlow : e.1 &&& 1 = 0 := by
    have hmask : ~~~(1 : Codepoint) &&& 1 = 0 := by decide
    rw [← heq, UInt32.and_assoc, hmask, UInt32.and_zero]
  have hnumber := congrArg UInt32.toNat hlow
  rw [UInt32.toNat_and] at hnumber
  exact (Nat.and_one_is_mod _).symm.trans hnumber

/-- Of two codepoints side by side one is odd, so no interval of two or more is of that kind. -/
theorem IsValid.reset?_eq_none (hi : i.IsValid) (hsize : i.size ≠ 1) : i.reset? = none := by
  unfold reset?
  rw [if_neg]
  intro hcount
  rw [resetCount, ← length_pairs, List.countP_eq_length] at hcount
  rcases i with ⟨c, values⟩
  match values with
  | [] => exact Nat.lt_irrefl 0 hi.pos
  | [v] => exact hsize rfl
  | v :: w :: vs =>
    rw [pairs_cons, pairs_cons] at hcount
    have heven := even_of_isReset (hcount (c, v) (by simp))
    have heven' := even_of_isReset (hcount (c + 1, w) (by simp))
    have hbound : c.toNat + (vs.length + 2) ≤ UInt32.size := hi.bound
    have hnext : (c + 1).toNat = c.toNat + 1 := toNat_add_ofNat (k := 1) (by omega)
    dsimp only at heven heven'
    omega

/-! ## Exceptions to the lowest bit being set -/

theorem IsValid.mem_exceptions (hi : i.IsValid) {e : Entry} :
    e ∈ i.exceptions.entries ↔ e ∈ i.pairs ∧ isSet e = false := by
  rw [exceptions, Table.entries_ofList (hi.ascending_pairs.filter _), List.mem_filter]
  simp

/-- A codepoint between exceptions that is none itself is a codepoint of the interval and has the
value with the lowest bit set. -/
theorem IsValid.mem_pairs_of_isMissing (hi : i.IsValid) {c : Codepoint}
    (hc : i.exceptions.IsMissing c) : (c, c ||| 1) ∈ i.pairs := by
  rcases hc with ⟨⟨a, ha, hac⟩, ⟨b, hb, hcb⟩, habsent⟩
  have ha := (hi.mem_pairs_iff.mp (hi.mem_exceptions.mp ha).1).1
  have hb := (hi.mem_pairs_iff.mp (hi.mem_exceptions.mp hb).1).1
  -- the interval has no holes
  have hcontains : i.contains c = true := by
    rw [hi.contains_iff] at ha hb ⊢
    rw [UInt32.lt_iff_toNat_lt] at hac hcb
    omega
  rcases hi.exists_mem_pairs hcontains with ⟨v, hv⟩
  have hset : isSet (c, v) = true := by
    by_contra hset
    exact habsent _ (hi.mem_exceptions.mpr ⟨hv, Bool.eq_false_iff.mpr hset⟩) rfl
  have hvalue : c ||| 1 = v := by simpa [isSet] using hset
  rw [hvalue]
  exact hv

/-- Part of an interval outside of which every value has the lowest bit set. -/
structure IsPatch (i patch : Interval) : Prop where
  valid : patch.IsValid
  mem_pairs : ∀ e ∈ patch.pairs, e ∈ i.pairs
  isSet_outside : ∀ e ∈ i.pairs, e ∈ patch.pairs ∨ isSet e = true

section Run

variable {added : List Codepoint} {run : Table}

/-- The run of exceptions is made of pairs of the interval. -/
theorem IsValid.mem_pairs_of_mem_run (hi : i.IsValid)
    (h : Table.IsClosing (· ||| 1) i.exceptions run added) {e : Entry} (he : e ∈ run.entries) :
    e ∈ i.pairs := by
  have hmem := h.entries.mem_iff.mp he
  rcases List.mem_append.mp hmem with hmem | hmem
  · rcases List.mem_map.mp hmem with ⟨c, hc, rfl⟩
    exact hi.mem_pairs_of_isMissing (h.missing c hc)
  · exact (hi.mem_exceptions.mp hmem).1

/-- A pair that is not in the run of exceptions is no exception. -/
theorem IsValid.mem_run_or_isSet (hi : i.IsValid)
    (h : Table.IsClosing (· ||| 1) i.exceptions run added) {e : Entry} (he : e ∈ i.pairs) :
    e ∈ run.entries ∨ isSet e = true := by
  cases hset : isSet e with
  | true => exact .inr rfl
  | false =>
    have hexception := hi.mem_exceptions.mpr ⟨he, hset⟩
    exact .inl (h.entries.mem_iff.mpr (List.mem_append_right _ hexception))

theorem IsValid.length_added_le (hi : i.IsValid)
    (h : Table.IsClosing (· ||| 1) i.exceptions run added) : added.length ≤ i.setCount := by
  have hsub : run.entries.Subperm i.pairs :=
    List.subperm_of_subset (Table.nodup_of_ascending run.ascending)
      fun e he => hi.mem_pairs_of_mem_run h he
  -- all that was added counts, and none of the exceptions does
  have hadded : (added.map fun c => (c, c ||| 1)).countP isSet = added.length := by
    rw [← List.length_map (fun c : Codepoint => (c, c ||| 1)), List.countP_eq_length]
    intro e he
    rcases List.mem_map.mp he with ⟨c, -, rfl⟩
    simp [isSet]
  calc
    added.length ≤ (added.map fun c => (c, c ||| 1)).countP isSet +
        i.exceptions.entries.countP isSet := by omega
    _ = run.entries.countP isSet := by rw [h.entries.countP_eq, List.countP_append]
    _ ≤ i.setCount := hsub.countP_le isSet

/-- A run of exceptions without gaps is a patch. -/
theorem IsValid.isPatch_of_run (hi : i.IsValid)
    (h : Table.IsClosing (· ||| 1) i.exceptions run added)
    (hnone : Table.firstGap? run.entries = none) {e : Entry} (he : run.entries.head? = some e) :
    i.IsPatch ⟨e.1, run.entries.map (·.2)⟩ := by
  obtain ⟨es, hes⟩ : ∃ es, run.entries = e :: es := List.head?_eq_some_iff.mp he
  have hascending : (e :: es).Pairwise fun a b => a.1 < b.1 := hes ▸ run.ascending
  have hpairs : (⟨e.1, run.entries.map (·.2)⟩ : Interval).pairs = run.entries := by
    rw [hes]
    exact Table.pairs_of_firstGap?_eq_none hascending (hes ▸ hnone)
  constructor
  case valid =>
    rw [hes]
    exact Table.isValid_of_ascending hascending
  case mem_pairs =>
    intro d hd
    exact hi.mem_pairs_of_mem_run h (hpairs ▸ hd)
  case isSet_outside =>
    intro d hd
    rw [hpairs]
    exact hi.mem_run_or_isSet h hd

end Run

/-- What the rule finds is a patch for the interval. -/
theorem IsValid.exists_patch_of_setException? (hi : i.IsValid) (h : i.setException? = some f) :
    ∃ patch, i.IsPatch patch ∧ f = .setException patch.span patch.listed := by
  unfold setException? at h
  split at h
  next => exact absurd h nofun
  next =>
    split at h
    next => exact absurd h nofun
    next patches run hclose =>
      obtain ⟨added, hfills, -, hnone⟩ := Table.exists_fills_of_closeGaps hclose
      dsimp only at h
      split at h
      next => exact absurd h nofun
      next =>
        rcases Option.map_eq_some_iff.mp h with ⟨e, he, rfl⟩
        exact ⟨_, hi.isPatch_of_run hfills.isClosing hnone he, rfl⟩

/-- What is outside of a patch has its lowest bit set, and the patch has a form of its own. -/
theorem IsPatch.isExact {patch : Interval} (h : i.IsPatch patch) (hi : i.IsValid) :
    i.IsExact (.setException patch.span patch.listed) := by
  have hexact := h.valid.isExact_listed
  refine ⟨hexact.fits, ?_⟩
  intro d hd
  change (if patch.contains d.1 = true then patch.listed.apply patch.first d.1
    else .ok (d.1 ||| 1)) = .ok d.2
  split
  next hinner =>
    -- the patch has the value that the interval has
    rcases h.valid.exists_mem_pairs hinner with ⟨v, hv⟩
    rw [hi.eq_of_mem_pairs hd (h.mem_pairs _ hv)]
    exact hexact.apply _ hv
  next hinner =>
    rcases h.isSet_outside d hd with hpatch | hset
    · exact absurd (h.valid.mem_pairs_iff.mp hpatch).1 hinner
    · have hvalue : d.1 ||| 1 = d.2 := by simpa [isSet] using hset
      rw [hvalue]

/-- The exceptions make a patch, which has a form of its own. -/
theorem isExact_of_setException? (hi : i.IsValid) (h : i.setException? = some f) :
    i.IsExact f := by
  rcases hi.exists_patch_of_setException? h with ⟨patch, hpatch, rfl⟩
  exact hpatch.isExact hi

/-! ## The choice -/

/-- Whatever a rule finds is exact. -/
theorem isExact_of_form? (hi : i.IsValid) {r : Rule} (h : Rule.form? i r = some f) :
    i.IsExact f := by
  cases r with
  | delta => exact isExact_of_delta? h
  | deltaException => exact isExact_of_deltaException? hi h
  | set => exact isExact_of_set? h
  | reset => exact isExact_of_reset? hi h
  | setException => exact isExact_of_setException? hi h

/-- The form that is chosen for a valid interval computes its values, whichever rules are switched
on. -/
theorem IsValid.isExact_form (hi : i.IsValid) (s : Switches) : i.IsExact (i.form s) := by
  unfold form
  split
  next => exact hi.isExact_listed
  next =>
    cases hfirst : Rule.firstForm? s Rule.inOrder i with
    | none => exact hi.isExact_table
    | some g =>
      rcases List.exists_of_findSome?_eq_some hfirst with ⟨r, -, hr⟩
      exact isExact_of_form? hi hr

/-- Nothing goes wrong with the choice if 32 bits have room for two steps beyond the interval. -/
theorem IsValid.classify?_eq_ok (hi : i.IsValid) (s : Switches)
    (hroom : i.first.toNat + i.size + 1 < UInt32.size) : i.classify? s = .ok (i.classify s) := by
  have hne : i.values ≠ [] := List.length_pos_iff.mp hi.pos
  have hfault : i.fault? = none := by
    unfold fault?
    rw [if_neg hne]
    split
    next => rfl
    next =>
      rw [if_neg (Nat.not_le.mpr hroom)]
      split
      next => rfl
      next patches hclose =>
        obtain ⟨added, hfills, hlength, -⟩ :=
          Table.exists_fills_of_closeGaps (Prod.ext hclose rfl)
        rw [if_neg (Nat.not_lt.mpr (hlength ▸ hi.length_added_le hfills.isClosing))]
  rw [classify?, hfault]

end CaseFolding.Interval

import CaseFolding.Proofs.Mapping.Exceptions

namespace CaseFolding.Interval

/-! # Which form is chosen

The rules decide by counting and searching. What each of them looks for can be said
of the values of an interval as they are, and so can the choice: it is the form of
the first rule that is switched on and applies, and a lookup table if there is none.
-/

/-! ## What the rules look for -/

/-- Every value lies as far above its codepoint. -/
def HasDelta (i : Interval) (d : Int) : Prop :=
  ∀ e ∈ i.pairs, (e.2.toNat : Int) - e.1.toNat = d

/-- Among six codepoints or more, every value but that of `c` lies as far above its codepoint. -/
structure HasDeltaException (i : Interval) (d : Int) (c v : Codepoint) : Prop where
  size : 6 ≤ i.size
  mem : (c, v) ∈ i.pairs
  deviates : (v.toNat : Int) - c.toNat ≠ d
  conforms : ∀ e ∈ i.pairs, e.1 ≠ c → (e.2.toNat : Int) - e.1.toNat = d

/-- A rule is switched on and finds what it looks for. No two consecutive codepoints are their
values without the lowest bit. -/
def Applies (i : Interval) (s : Switches) : Rule → Prop
  | .delta => s.delta = true ∧ ∃ d, i.HasDelta d
  | .deltaException => s.deltaException = true ∧ ∃ d c v, i.HasDeltaException d c v
  | .set => s.set = true ∧ ∀ c, ¬ i.IsException c
  | .reset => False
  | .setException => s.setException = true ∧ ∃ inner, i.HasInnerSpan inner

/-- The form of the first rule that applies, or the lookup table. -/
inductive IsChosen (s : Switches) (i : Interval) : Form → Prop where
  | delta {d : Int} :
    s.delta = true → i.HasDelta d → IsChosen s i (.delta d)
  | deltaException {d : Int} {c v : Codepoint} :
    ¬ i.Applies s .delta →
    s.deltaException = true → i.HasDeltaException d c v → IsChosen s i (.deltaException d c v)
  | set :
    ¬ i.Applies s .delta → ¬ i.Applies s .deltaException →
    s.set = true → (∀ c, ¬ i.IsException c) → IsChosen s i .set
  | setExceptionSingle {c v : Codepoint} :
    ¬ i.Applies s .delta → ¬ i.Applies s .deltaException → ¬ i.Applies s .set →
    s.setException = true → i.HasInnerSpan ⟨c, c⟩ → (c, v) ∈ i.pairs →
    IsChosen s i (.setException ⟨c, c⟩ (.single v))
  | setExceptionTable {inner : Span} :
    ¬ i.Applies s .delta → ¬ i.Applies s .deltaException → ¬ i.Applies s .set →
    s.setException = true → i.HasInnerSpan inner → inner.first < inner.last →
    IsChosen s i (.setException inner (.table (i.part inner).values))
  | table : (∀ r, ¬ i.Applies s r) → IsChosen s i (.table i.values)

variable {i : Interval} {s : Switches} {f : Form} {d : Int} {c v : Codepoint} {inner : Span}

/-! ## Distances -/

/-- A distance is that of all values if no other is found. -/
theorem hasDelta_iff : i.HasDelta d ↔ ∀ x ∈ i.deltas, x = d := by
  rw [deltas, List.forall_mem_map]
  exact Iff.rfl

/-- A distance is that of all values if it is found at all codepoints. -/
theorem hasDelta_iff_count : i.HasDelta d ↔ i.deltas.count d = i.size := by
  have hlength : i.deltas.length = i.size := by rw [deltas, List.length_map, length_pairs]
  rw [hasDelta_iff, ← hlength, List.count_eq_length]
  simp only [eq_comm]

/-- The rule for one distance finds that of all values. -/
theorem delta?_eq_some_iff (hne : i.values ≠ []) :
    i.delta? = some f ↔ ∃ d, i.HasDelta d ∧ f = .delta d := by
  have hdeltas : i.deltas ≠ [] := by
    rw [← List.length_pos_iff, deltas, List.length_map, length_pairs]
    exact List.length_pos_iff.mpr hne
  rw [delta?]
  split
  next hnil => exact absurd hnil hdeltas
  next x xs hcons =>
    simp only [hasDelta_iff, hcons, List.forall_mem_cons]
    rw [Option.ite_none_right_eq_some, List.all_eq_true]
    constructor
    · rintro ⟨hall, hf⟩
      refine ⟨x, ⟨rfl, ?_⟩, (Option.some.inj hf).symm⟩
      intro y hy
      exact eq_of_beq (hall y hy)
    · rintro ⟨d, ⟨rfl, hall⟩, rfl⟩
      refine ⟨?_, rfl⟩
      intro y hy
      exact beq_iff_eq.mpr (hall y hy)

/-- The pairs whose values lie elsewhere. -/
def deviating (i : Interval) (d : Int) : List Entry :=
  i.pairs.filter fun e => (e.2.toNat : Int) - e.1.toNat != d

/-- A distance is found at all codepoints but those that deviate from it. -/
theorem count_deltas_add (d : Int) : i.deltas.count d + (i.deviating d).length = i.size := by
  have hsum := List.length_eq_countP_add_countP (l := i.pairs)
    fun e : Entry => (e.2.toNat : Int) - e.1.toNat == d
  rw [length_pairs] at hsum
  rw [deltas, List.count, List.countP_map, deviating, ← List.countP_eq_length_filter, hsum]
  refine congrArg₂ (· + ·) rfl (List.countP_congr ?_)
  intro e _
  simp

/-- One pair deviates from a distance. -/
theorem IsValid.deviating_eq_iff (hi : i.IsValid) :
    i.deviating d = [(c, v)] ↔ (c, v) ∈ i.pairs ∧ (v.toNat : Int) - c.toNat ≠ d ∧
      ∀ e ∈ i.pairs, e.1 ≠ c → (e.2.toNat : Int) - e.1.toNat = d := by
  have hmem : ∀ e, e ∈ i.deviating d ↔ e ∈ i.pairs ∧ (e.2.toNat : Int) - e.1.toNat ≠ d := by
    intro e
    rw [deviating, List.mem_filter, bne_iff_ne]
  constructor
  · intro h
    rcases (hmem (c, v)).mp (h ▸ List.mem_singleton.mpr rfl) with ⟨hcv, hdeviates⟩
    refine ⟨hcv, hdeviates, ?_⟩
    intro e he hne
    by_contra hother
    have heq := (hmem e).mpr ⟨he, hother⟩
    rw [h, List.mem_singleton] at heq
    exact hne (congrArg Prod.fst heq)
  · rintro ⟨hcv, hdeviates, hconforms⟩
    refine Table.eq_of_mem_iff (hi.ascending_pairs.filter _) (List.pairwise_singleton _ _) ?_
    intro e
    rw [List.mem_singleton]
    refine (hmem e).trans ?_
    constructor
    · rintro ⟨he, hother⟩
      by_contra hne
      refine hother (hconforms e he ?_)
      intro hfirst
      exact hne (Table.eq_of_ascending hi.ascending_pairs he hcv hfirst)
    · rintro rfl
      exact ⟨hcv, hdeviates⟩

/-- Where one value deviates, no other distance is found as often. -/
theorem HasDeltaException.eq_of_count (h : i.HasDeltaException d c v) (hi : i.IsValid) {x : Int}
    (hx : i.deltas.count x = i.size - 1) : x = d := by
  have hsize := h.size
  have hone : (i.deviating d).length = 1 :=
    congrArg List.length (hi.deviating_eq_iff.mpr ⟨h.mem, h.deviates, h.conforms⟩)
  by_contra hne
  -- what is found elsewhere deviates
  have hle : i.deltas.count x ≤ (i.deviating d).length := by
    rw [deltas, List.count, List.countP_map, deviating, ← List.countP_eq_length_filter]
    refine List.countP_mono_left ?_
    intro e _ he
    have hex : (e.2.toNat : Int) - e.1.toNat = x := eq_of_beq he
    rw [hex]
    exact bne_iff_ne.mpr hne
  omega

/-- Where one value deviates, the distance of the others is found at all codepoints but one. -/
theorem HasDeltaException.count_eq (h : i.HasDeltaException d c v) (hi : i.IsValid) :
    i.deltas.count d = i.size - 1 := by
  have hone : (i.deviating d).length = 1 :=
    congrArg List.length (hi.deviating_eq_iff.mpr ⟨h.mem, h.deviates, h.conforms⟩)
  have hsum := count_deltas_add (i := i) d
  omega

/-- Where one value deviates, the distance of the others is found at one of the first two
codepoints. -/
theorem HasDeltaException.find?_deltas (h : i.HasDeltaException d c v) (hi : i.IsValid) :
    ((i.deltas.take 2).find? fun x => i.deltas.count x == i.size - 1) = some d := by
  have htwo : d ∈ i.deltas.take 2 := by
    have hascending := hi.ascending_pairs
    have hlength := length_pairs i
    have hsize := h.size
    rw [deltas, ← List.map_take]
    cases hpairs : i.pairs with
    | nil => simp [hpairs] at hlength; omega
    | cons a as =>
      cases as with
      | nil => simp [hpairs] at hlength; omega
      | cons b bs =>
        rw [hpairs] at hascending
        have hab := (List.pairwise_cons.mp hascending).1 b List.mem_cons_self
        by_cases hac : a.1 = c
        · have hbc : b.1 ≠ c := by
            rintro rfl
            exact UInt32.ne_of_lt hab hac
          exact List.mem_map.mpr ⟨b, by simp, h.conforms b (by simp [hpairs]) hbc⟩
        · exact List.mem_map.mpr ⟨a, by simp, h.conforms a (by simp [hpairs]) hac⟩
  cases hfind : (i.deltas.take 2).find? fun x => i.deltas.count x == i.size - 1 with
  | none =>
    have hnot := List.find?_eq_none.mp hfind d htwo
    exact absurd (beq_iff_eq.mpr (h.count_eq hi)) hnot
  | some x =>
    have hx : i.deltas.count x = i.size - 1 := by simpa using List.find?_some hfind
    rw [h.eq_of_count hi hx]

/-- However the distance that all values but one have is found, what deviates from it is found. -/
theorem IsValid.deltaException_iff_of_found (hi : i.IsValid) (hsize : 6 ≤ i.size)
    {found : Option Int} (hsound : ∀ d, found = some d → i.deltas.count d = i.size - 1)
    (hcomplete : ∀ d c v, i.HasDeltaException d c v → found = some d) :
    (do
      let d ← found
      let e ← i.pairs.find? fun e => (e.2.toNat : Int) - e.1.toNat != d
      return Form.deltaException d e.1 e.2) = some f ↔
    ∃ d c v, i.HasDeltaException d c v ∧ f = .deltaException d c v := by
  have hfind : ∀ d, (i.pairs.find? fun e => (e.2.toNat : Int) - e.1.toNat != d) =
      (i.deviating d).head? := by
    intro d
    rw [deviating, List.head?_filter]
  constructor
  · intro hf
    rcases Option.bind_eq_some_iff.mp hf with ⟨d, hd, hf⟩
    rcases Option.bind_eq_some_iff.mp hf with ⟨x, hx, hf⟩
    have hcount := hsound d hd
    have hsum := count_deltas_add (i := i) d
    have hone : (i.deviating d).length = 1 := by omega
    rcases List.length_eq_one_iff.mp hone with ⟨y, hy⟩
    rw [hfind, hy] at hx
    rcases Option.some.inj hx with rfl
    rcases hi.deviating_eq_iff.mp hy with ⟨hmem, hdeviates, hconforms⟩
    exact ⟨d, y.1, y.2, ⟨hsize, hmem, hdeviates, hconforms⟩, (Option.some.inj hf).symm⟩
  · rintro ⟨d, c, v, h, rfl⟩
    have hdeviating := hi.deviating_eq_iff.mpr ⟨h.mem, h.deviates, h.conforms⟩
    refine Option.bind_eq_some_iff.mpr ⟨d, hcomplete d c v h, ?_⟩
    refine Option.bind_eq_some_iff.mpr ⟨(c, v), ?_, rfl⟩
    rw [hfind, hdeviating]
    rfl

/-- The rule for one deviating codepoint finds it and the distance of the others. -/
theorem IsValid.deltaException?_eq_some_iff (hi : i.IsValid) :
    i.deltaException? = some f ↔
      ∃ d c v, i.HasDeltaException d c v ∧ f = .deltaException d c v := by
  rw [deltaException?]
  split
  next hfew =>
    have hsmall : i.size - 1 ≤ 4 := hfew
    constructor
    · intro hf
      exact absurd hf nofun
    · rintro ⟨d, c, v, h, -⟩
      have := h.size
      omega
  next hmany =>
    have hlarge : ¬ i.size - 1 ≤ 4 := hmany
    refine hi.deltaException_iff_of_found (by omega) ?_ fun _ _ _ h => h.find?_deltas hi
    intro d hd
    simpa using List.find?_some hd

/-! ## The lowest bit -/

/-- The rule for the lowest bit applies where nothing is an exception. -/
theorem set?_eq_some_iff : i.set? = some f ↔ (∀ c, ¬ i.IsException c) ∧ f = .set := by
  rw [set?, Option.ite_none_right_eq_some, setCount, ← length_pairs, List.countP_eq_length]
  constructor
  · rintro ⟨hall, hf⟩
    refine ⟨?_, (Option.some.inj hf).symm⟩
    rintro c ⟨v, hmem, hne⟩
    exact hne (by simpa [isSet] using hall _ hmem)
  · rintro ⟨hnone, rfl⟩
    refine ⟨?_, rfl⟩
    intro e he
    rw [isSet, beq_iff_eq]
    by_contra hne
    exact hnone e.1 ⟨e.2, he, hne⟩

/-! ## Patches -/

theorem IsValid.listed_part_single (hi : i.IsValid) (h : (c, v) ∈ i.pairs) :
    (i.part ⟨c, c⟩).listed = .single v := by
  have hget := (hi.mem_pairs_iff.mp h).2
  have hone : Span.size ⟨c, c⟩ = 1 := by
    rw [Span.size, UInt32.sub_self]
    rfl
  have hvalues : (i.part ⟨c, c⟩).values = [v] := by
    rw [part, hone, List.take_one, List.head?_drop, hget]
    rfl
  rw [listed, hvalues]

/-- A longer part of an interval is listed as a table. -/
theorem Holds.listed_part_table (h : i.Holds inner) (hi : i.IsValid)
    (hlt : inner.first < inner.last) :
    (i.part inner).listed = .table (i.part inner).values := by
  have hsize := hi.size_part h
  have hspan := h.size_span
  have hlt := UInt32.lt_iff_toNat_lt.mp hlt
  unfold listed
  split
  next v hv =>
    have hone : (i.part inner).size = 1 := congrArg List.length hv
    omega
  next => rfl

/-! ## The first rule that applies -/

/-- If no earlier rule finds a form, the first one that does decides. -/
theorem firstForm?_eq_some {before after : List Rule} {r : Rule}
    (hbefore : ∀ q ∈ before, s.allows q = true → Rule.form? i q = none)
    (hr : s.allows r = true) (hf : Rule.form? i r = some f) :
    Rule.firstForm? s (before ++ r :: after) i = some f := by
  have hnone : Rule.firstForm? s before i = none := by
    rw [Rule.firstForm?, List.findSome?_eq_none_iff]
    intro q hq
    rcases List.mem_filter.mp hq with ⟨hmem, hallows⟩
    exact hbefore q hmem hallows
  rw [Rule.firstForm?] at hnone ⊢
  rw [List.filter_append, List.findSome?_append, hnone, List.filter_cons_of_pos hr,
    List.findSome?_cons_of_isSome, hf]
  · rfl
  · rw [hf]
    rfl

/-- A rule that does not apply finds no form. -/
theorem IsValid.form?_eq_none_of_not_applies (hi : i.IsValid) (hsize : 2 ≤ i.size) {r : Rule}
    (h : ¬ i.Applies s r) (hr : s.allows r = true) : Rule.form? i r = none := by
  have hne : i.values ≠ [] := List.length_pos_iff.mp hi.pos
  rw [Option.eq_none_iff_forall_ne_some]
  intro f hf
  cases r with
  | delta =>
    rcases (delta?_eq_some_iff hne).mp hf with ⟨d, hd, -⟩
    exact h ⟨hr, d, hd⟩
  | deltaException =>
    rcases hi.deltaException?_eq_some_iff.mp hf with ⟨d, c, v, hd, -⟩
    exact h ⟨hr, d, c, v, hd⟩
  | set => exact h ⟨hr, (set?_eq_some_iff.mp hf).1⟩
  | reset => exact absurd (hf.symm.trans (hi.reset?_eq_none (by omega))) nofun
  | setException =>
    rcases hi.setException?_eq_some_iff.mp hf with ⟨inner, hinner, -⟩
    exact h ⟨hr, inner, hinner⟩

theorem IsChosen.form_eq (h : IsChosen s i f) (hi : i.IsValid) (hsize : 2 ≤ i.size) :
    i.form s = f := by
  have hne : i.values ≠ [] := List.length_pos_iff.mp hi.pos
  have hnone : ∀ {r}, ¬ i.Applies s r → s.allows r = true → Rule.form? i r = none :=
    fun h hr => hi.form?_eq_none_of_not_applies hsize h hr
  have hreset : s.allows .reset = true → Rule.form? i .reset = none := hnone id
  have hfirst : ∀ (before : List Rule) {after : List Rule} {r : Rule},
      Rule.inOrder = before ++ r :: after →
      (∀ q ∈ before, s.allows q = true → Rule.form? i q = none) → s.allows r = true →
      Rule.form? i r = some f → i.form s = f := by
    intro before after r horder hbefore hr hf
    rw [form, if_neg (by omega), horder, firstForm?_eq_some hbefore hr hf]
    rfl
  cases h with
  | delta hs hd =>
    exact hfirst [] rfl nofun hs ((delta?_eq_some_iff hne).mpr ⟨_, hd, rfl⟩)
  | deltaException hdelta hs hd =>
    refine hfirst [.delta] rfl ?_ hs (hi.deltaException?_eq_some_iff.mpr ⟨_, _, _, hd, rfl⟩)
    simpa using hnone hdelta
  | set hdelta hexception hs hset =>
    refine hfirst [.delta, .deltaException] rfl ?_ hs (set?_eq_some_iff.mpr ⟨hset, rfl⟩)
    simpa using ⟨hnone hdelta, hnone hexception⟩
  | setExceptionSingle hdelta hexception hset hs hinner hmem =>
    refine hfirst [.delta, .deltaException, .set, .reset] rfl ?_ hs
      (hi.setException?_eq_some_iff.mpr ⟨_, hinner, ?_⟩)
    · simpa using ⟨hnone hdelta, hnone hexception, hnone hset, hreset⟩
    · rw [hi.listed_part_single hmem]
  | setExceptionTable hdelta hexception hset hs hinner hlt =>
    refine hfirst [.delta, .deltaException, .set, .reset] rfl ?_ hs
      (hi.setException?_eq_some_iff.mpr ⟨_, hinner, ?_⟩)
    · simpa using ⟨hnone hdelta, hnone hexception, hnone hset, hreset⟩
    · rw [(hinner.frames.holds hi).listed_part_table hi hlt]
  | table hall =>
    have hfirst : Rule.firstForm? s Rule.inOrder i = none := by
      rw [Rule.firstForm?, List.findSome?_eq_none_iff]
      intro q hq
      exact hnone (hall q) (List.mem_filter.mp hq).2
    rw [form, if_neg (by omega), hfirst]
    rfl

/-- There is such a form. -/
theorem IsValid.exists_isChosen (hi : i.IsValid) (s : Switches) : ∃ f, IsChosen s i f := by
  by_cases hdelta : i.Applies s .delta
  · rcases hdelta with ⟨hs, d, hd⟩
    exact ⟨_, .delta hs hd⟩
  by_cases hexception : i.Applies s .deltaException
  · rcases hexception with ⟨hs, d, c, v, hd⟩
    exact ⟨_, .deltaException hdelta hs hd⟩
  by_cases hset : i.Applies s .set
  · rcases hset with ⟨hs, hnone⟩
    exact ⟨_, .set hdelta hexception hs hnone⟩
  by_cases hinner : i.Applies s .setException
  · rcases hinner with ⟨hs, ⟨first, last⟩, hinner⟩
    have hholds := hinner.frames.holds hi
    rcases Nat.lt_or_eq_of_le (UInt32.le_iff_toNat_le.mp hholds.first_le_last) with hlt | heq
    · exact ⟨_, .setExceptionTable hdelta hexception hset hs hinner
        (UInt32.lt_iff_toNat_lt.mpr hlt)⟩
    · have hsingle : first = last := UInt32.toNat.inj heq
      subst hsingle
      rcases hi.exists_mem_pairs hholds.first with ⟨v, hv⟩
      exact ⟨_, .setExceptionSingle hdelta hexception hset hs hinner hv⟩
  · refine ⟨_, .table ?_⟩
    intro r
    cases r with
    | delta => exact hdelta
    | deltaException => exact hexception
    | set => exact hset
    | reset => exact id
    | setException => exact hinner

/-- The form that is chosen is the one in question and no other. -/
theorem IsValid.isChosen_iff (hi : i.IsValid) (hsize : 2 ≤ i.size) :
    IsChosen s i f ↔ f = i.form s := by
  constructor
  · intro h
    exact (h.form_eq hi hsize).symm
  · rintro rfl
    rcases hi.exists_isChosen s with ⟨f, hf⟩
    rw [hf.form_eq hi hsize]
    exact hf

end CaseFolding.Interval

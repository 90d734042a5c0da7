import CaseFolding.Mapping.Census
import CaseFolding.Proofs.Interval.Gather
import CaseFolding.Proofs.Mapping.Priority

namespace CaseFolding

/-! # The counts decide like the values

One walk along an interval counts every distance and every fit, provided that 32 bits
have room for the steps. What the rules make of these counts is what they find when
they look at all values.
-/

namespace Census

variable {ds : List (Int × Nat)} {xs : List Int} {d : Int} {n : Nat} {k : Census} {i : Interval}

/-! ## Distances -/

/-- How often a list of counts has a distance. -/
def times : List (Int × Nat) → Int → Nat
  | [], _ => 0
  | p :: ps, d => (if p.1 = d then p.2 else 0) + times ps d

/-- Distances in order, each with how often it occurs. -/
structure Tallies (ds : List (Int × Nat)) (xs : List Int) : Prop where
  ascending : ds.Pairwise fun p q => p.1 < q.1
  pos : ∀ p ∈ ds, 0 < p.2
  times_eq : ∀ d, times ds d = xs.count d

theorem times_eq_zero (h : ∀ p ∈ ds, p.1 ≠ d) : times ds d = 0 := by
  induction ds with
  | nil => rfl
  | cons p ps ih =>
    rcases List.forall_mem_cons.mp h with ⟨hp, hps⟩
    rw [times, if_neg hp, ih hps]

/-- A distance that is listed has the count beside it. -/
theorem times_eq_of_mem (h : ds.Pairwise fun p q => p.1 < q.1) (hmem : (d, n) ∈ ds) :
    times ds d = n := by
  induction ds with
  | nil => exact absurd hmem List.not_mem_nil
  | cons p ps ih =>
    rcases List.pairwise_cons.mp h with ⟨hp, hps⟩
    rw [times]
    rcases List.mem_cons.mp hmem with rfl | hrest
    · have hzero : times ps d = 0 := times_eq_zero fun q hq => (Int.ne_of_lt (hp q hq)).symm
      rw [if_pos rfl, hzero, Nat.add_zero]
    · rw [if_neg (Int.ne_of_lt (hp _ hrest)), ih hps hrest, Nat.zero_add]

theorem times_countDistance (d x : Int) (ds : List (Int × Nat)) :
    times (countDistance d ds) x = times ds x + if d = x then 1 else 0 := by
  induction ds with
  | nil => simp [countDistance, times]
  | cons p ps ih =>
    unfold countDistance
    split
    next =>
      rw [times]
      exact Nat.add_comm _ _
    next hge =>
      split
      next =>
        rw [times, times, ih]
        omega
      next hle =>
        have heq : p.1 = d := by omega
        rw [times, times, heq]
        split <;> omega

/-- Counting brings in no other distance. -/
theorem mem_countDistance {p : Int × Nat} (h : p ∈ countDistance d ds) :
    p.1 = d ∧ 0 < p.2 ∨ p ∈ ds := by
  induction ds with
  | nil => exact .inl (by simp [List.mem_singleton.mp h])
  | cons q qs ih =>
    unfold countDistance at h
    split at h
    next =>
      rcases List.mem_cons.mp h with rfl | hmem
      · exact .inl ⟨rfl, Nat.one_pos⟩
      · exact .inr hmem
    next hge =>
      split at h
      next =>
        rcases List.mem_cons.mp h with rfl | hmem
        · exact .inr List.mem_cons_self
        · exact (ih hmem).imp id (List.mem_cons_of_mem q)
      next hle =>
        rcases List.mem_cons.mp h with rfl | hmem
        · exact .inl ⟨by dsimp only; omega, Nat.succ_pos _⟩
        · exact .inr (List.mem_cons_of_mem q hmem)

/-- Counting keeps the distances in order. -/
theorem ascending_countDistance (d : Int) (h : ds.Pairwise fun p q => p.1 < q.1) :
    (countDistance d ds).Pairwise fun p q => p.1 < q.1 := by
  induction ds with
  | nil => exact List.pairwise_singleton _ _
  | cons p ps ih =>
    rcases List.pairwise_cons.mp h with ⟨hp, hps⟩
    unfold countDistance
    split
    next hlt =>
      refine List.pairwise_cons.mpr ⟨List.forall_mem_cons.mpr ⟨hlt, ?_⟩, h⟩
      intro q hq
      exact Int.lt_trans hlt (hp q hq)
    next hge =>
      split
      next hgt =>
        refine List.pairwise_cons.mpr ⟨?_, ih hps⟩
        intro q hq
        rcases mem_countDistance hq with ⟨hqd, -⟩ | hmem
        · exact hqd ▸ hgt
        · exact hp q hmem
      next => exact List.pairwise_cons.mpr ⟨hp, hps⟩

/-- A distance that has been met is counted. -/
theorem Tallies.countDistance (h : Tallies ds xs) (d : Int) :
    Tallies (countDistance d ds) (xs ++ [d]) := by
  refine ⟨ascending_countDistance d h.ascending, ?_, ?_⟩
  · intro p hp
    rcases mem_countDistance hp with ⟨-, hpos⟩ | hmem
    · exact hpos
    · exact h.pos p hmem
  · intro x
    rw [times_countDistance, h.times_eq, List.count_append, List.count_singleton]
    simp only [beq_iff_eq]

/-- A distance is listed with the number of its occurrences, if it occurs. -/
theorem Tallies.mem_iff (h : Tallies ds xs) : (d, n) ∈ ds ↔ 0 < n ∧ xs.count d = n := by
  constructor
  · intro hmem
    rw [← h.times_eq]
    exact ⟨h.pos _ hmem, times_eq_of_mem h.ascending hmem⟩
  · rintro ⟨hpos, hcount⟩
    by_contra habsent
    have hzero : times ds d = 0 := by
      refine times_eq_zero ?_
      rintro ⟨x, m⟩ hmem rfl
      have hm := times_eq_of_mem h.ascending hmem
      rw [h.times_eq, hcount] at hm
      exact habsent (hm ▸ hmem)
    rw [h.times_eq] at hzero
    omega

/-! ## The walk -/

/-- What is counted agrees with the values. -/
structure Counts (k : Census) (es : List Entry) : Prop where
  distances : Tallies k.distances (es.map distance)
  set : k.set = es.countP Interval.isSet
  reset : k.reset = es.countP Interval.isReset

theorem counts_nil : Counts {} [] :=
  ⟨⟨.nil, nofun, fun _ => rfl⟩, rfl, rfl⟩

variable {es : List Entry} {e : Entry}

/-- One entry is counted. -/
theorem Counts.add (h : k.Counts es) (e : Entry) : (k.add e).Counts (es ++ [e]) := by
  constructor
  case distances =>
    rw [List.map_append, List.map_singleton]
    exact h.distances.countDistance (distance e)
  case set =>
    rw [List.countP_append, List.countP_singleton, ← h.set, Census.add]
    dsimp only
    split <;> rfl
  case reset =>
    rw [List.countP_append, List.countP_singleton, ← h.reset, Census.add]
    dsimp only
    split <;> rfl

theorem Counts.foldl (h : k.Counts es) (ds : List Entry) :
    (ds.foldl Census.add k).Counts (es ++ ds) := by
  induction ds generalizing k es with
  | nil => simpa using h
  | cons d ds ih =>
    rw [List.foldl_cons]
    simpa using ih (h.add d)

/-- The walk along values counts the entries that are found on the way. -/
theorem along?_eq (k : Census) (c : Codepoint) (vs : List Codepoint) :
    k.along? c vs = (Interval.pairsFrom? c vs).map (·.foldl Census.add k) := by
  induction vs generalizing k c with
  | nil =>
    rw [along?, Interval.pairsFrom?]
    cases c.next? <;> rfl
  | cons v vs ih =>
    rw [along?, Interval.pairsFrom?]
    cases c.next? with
    | error f => rfl
    | ok next =>
      show (k.add (c, v)).along? next vs =
        Except.map (·.foldl Census.add k) (do return (c, v) :: (← Interval.pairsFrom? next vs))
      rw [ih]
      cases Interval.pairsFrom? next vs <;> rfl

/-- The walk along an interval counts its pairs, if 32 bits have room for two steps beyond it. -/
theorem counts_ofInterval? (hroom : i.first.toNat + i.size + 1 < UInt32.size) :
    ∃ k, ofInterval? i = .ok k ∧ k.Counts i.pairs := by
  have hpairs : Interval.pairsFrom? i.first i.values = .ok i.pairs := Interval.pairs?_eq_ok hroom
  have hcounts := counts_nil.foldl i.pairs
  refine ⟨i.pairs.foldl Census.add {}, ?_, by simpa using hcounts⟩
  rw [ofInterval?, along?_eq, hpairs]
  rfl

/-! ## What the rules make of the counts -/

/-- A distance is listed with the number of codepoints at which it occurs. -/
theorem Counts.mem_distances_iff (h : k.Counts i.pairs) :
    (d, n) ∈ k.distances ↔ 0 < n ∧ i.deltas.count d = n :=
  h.distances.mem_iff

/-- The lowest distance is that of all values if it occurs at all codepoints. -/
theorem Counts.uniform?_eq_some_iff (h : k.Counts i.pairs) (hi : i.IsValid) :
    k.uniform? i.size = some d ↔ i.HasDelta d := by
  have hpos := hi.pos
  rw [uniform?]
  constructor
  · intro hd
    split at hd
    next => exact absurd hd nofun
    next p ps hcons =>
      rcases Option.ite_none_right_eq_some.mp hd with ⟨hsize, hpd⟩
      rcases Option.some.inj hpd with rfl
      have hp : (p.1, p.2) ∈ k.distances := by simp [hcons]
      rw [Interval.hasDelta_iff_count, (h.mem_distances_iff.mp hp).2, hsize]
  · intro hd
    have hcount := Interval.hasDelta_iff_count.mp hd
    have hmem := h.mem_distances_iff.mpr ⟨hpos, hcount⟩
    split
    next hnil => exact absurd hmem (by simp [hnil])
    next p ps hcons =>
      have hp : (p.1, p.2) ∈ k.distances := by simp [hcons]
      rcases h.mem_distances_iff.mp hp with ⟨hp2, hpcount⟩
      -- what occurs at all is the distance of all
      have hpd : p.1 = d := by
        have hoccurs := List.count_pos_iff.mp (hpcount ▸ hp2)
        rcases List.mem_map.mp hoccurs with ⟨e, he, hed⟩
        exact hed ▸ hd e he
      rw [if_pos (by rw [← hpcount, hpd, hcount]), hpd]

/-- The rule for one distance. -/
theorem Counts.uniform?_eq (h : k.Counts i.pairs) (hi : i.IsValid) :
    (k.uniform? i.size).map .delta = i.delta? := by
  ext f
  rw [Interval.delta?_eq_some_iff (List.length_pos_iff.mp hi.pos), Option.map_eq_some_iff]
  constructor
  · rintro ⟨d, hd, rfl⟩
    exact ⟨d, (h.uniform?_eq_some_iff hi).mp hd, rfl⟩
  · rintro ⟨d, hd, rfl⟩
    exact ⟨d, (h.uniform?_eq_some_iff hi).mpr hd, rfl⟩

/-- The distance that occurs at all codepoints but one is that from which one value deviates. -/
theorem Counts.deltaException?_eq (h : k.Counts i.pairs) (hi : i.IsValid) :
    k.deltaException? i = .ok i.deltaException? := by
  have hpos := hi.pos
  rw [deltaException?, remaining?_eq_ok hpos]
  by_cases hfew : i.size - 1 ≤ conformingMin
  · have hnone : i.deltaException? = none := if_pos hfew
    rw [hnone]
    exact if_pos hfew
  · have hlarge : ¬ i.size - 1 ≤ 4 := hfew
    have hsound : ∀ d, k.occurring? (i.size - 1) = some d → i.deltas.count d = i.size - 1 := by
      intro d hd
      rcases Option.map_eq_some_iff.mp hd with ⟨p, hp, rfl⟩
      have hp2 : p.2 = i.size - 1 := by simpa using List.find?_some hp
      rw [← hp2]
      exact (h.mem_distances_iff.mp (List.mem_of_find?_eq_some hp)).2
    refine (if_neg hfew).trans (congrArg Except.ok (Option.ext fun f => ?_))
    rw [hi.deltaException?_eq_some_iff]
    refine hi.deltaException_iff_of_found (by omega) hsound ?_
    intro d c v hd
    have hmem : (d, i.size - 1) ∈ k.distances :=
      h.mem_distances_iff.mpr ⟨by omega, hd.count_eq hi⟩
    cases hfind : k.occurring? (i.size - 1) with
    | none =>
      have hnot := List.find?_eq_none.mp (Option.map_eq_none_iff.mp hfind) _ hmem
      exact absurd (beq_iff_eq.mpr rfl) hnot
    | some x => rw [hd.eq_of_count hi (hsound x hfind)]

/-- The run of exceptions and the counts say where the exceptions are. -/
theorem Counts.setException?_eq (h : k.Counts i.pairs) (hi : i.IsValid)
    (hroom : i.first.toNat + i.size + 1 < UInt32.size) :
    k.setException? i = .ok i.setException? := by
  by_cases hnil : i.exceptions.entries = []
  · rw [setException?, if_pos hnil, Interval.setException?_of_entries_eq_nil hnil]
  · rcases hi.exists_frames hnil with ⟨inner, hframes⟩
    obtain ⟨count, run, hclose⟩ : ∃ count run, i.exceptions.closeGaps (· ||| 1) = (count, run) :=
      ⟨_, _, rfl⟩
    cases count with
    | none =>
      rw [setException?, Interval.setException?, if_neg hnil, if_neg hnil, hclose]
    | some patches =>
      rcases hframes.run_of_closeGaps hi hclose with ⟨hrun, hle, hsum⟩
      rcases hrun.exists_entries hi with ⟨v, es, hentries⟩
      have hset : k.set = i.setCount := h.set
      -- the codepoint past the run is one of the interval or follows it
      have hpast := hrun.holds.plus?_size hi (by omega)
      have hpart := hrun.part_eq
      rw [hentries] at hpart
      rw [hrun.setException?_eq hi hclose, setException?, if_neg hnil, hclose]
      dsimp only
      rw [hset, remaining?_eq_ok hle, hentries, apply_ite Except.ok]
      refine if_congr (hrun.rejected_iff hi hsum) rfl ?_
      dsimp only
      rw [← hpart, hrun.size_eq hi, hpast]
      exact congrArg (fun c => Except.ok (some (Form.setException ⟨inner.first, c⟩ _)))
        (UInt32.add_sub_cancel _ _)

/-- Each rule makes of the counts what it finds in the values. -/
theorem Counts.form?_eq (h : k.Counts i.pairs) (hi : i.IsValid)
    (hroom : i.first.toNat + i.size + 1 < UInt32.size) (r : Rule) :
    k.form? i r = .ok (r.form? i) := by
  cases r with
  | delta => exact congrArg Except.ok (h.uniform?_eq hi)
  | deltaException => exact h.deltaException?_eq hi
  | set =>
    rw [form?, h.set]
    rfl
  | reset =>
    rw [form?, h.reset]
    rfl
  | setException => exact h.setException?_eq hi hroom

/-- The first rule that finds a form is the same. -/
theorem Counts.firstForm?_eq (h : k.Counts i.pairs) (hi : i.IsValid)
    (hroom : i.first.toNat + i.size + 1 < UInt32.size) (s : Switches) (rs : List Rule) :
    k.firstForm? s i rs = .ok (Rule.firstForm? s rs i) := by
  induction rs with
  | nil => rfl
  | cons r rs ih =>
    rw [firstForm?, Rule.firstForm?_cons, ih]
    split
    next =>
      rw [h.form?_eq hi hroom]
      cases r.form? i <;> rfl
    next => rfl

end Census

namespace Interval

/-! ## The choice -/

variable {i : Interval}

/-- The counts decide like the values. -/
theorem IsValid.formByCount?_eq_ok (hi : i.IsValid) (s : Switches)
    (hroom : i.first.toNat + i.size + 1 < UInt32.size) : i.formByCount? s = .ok (i.form s) := by
  rw [formByCount?, form]
  split
  next => rfl
  next =>
    rcases Census.counts_ofInterval? hroom with ⟨k, hk, hcounts⟩
    rw [hk]
    change (do return (← k.firstForm? s i Rule.inOrder).getD (.table i.values)) = _
    rw [hcounts.firstForm?_eq hi hroom]
    rfl

/-- An interval of at least one value below the two largest codepoints gets a mapping, whichever
rules are switched on. It has the bounds of the interval and computes each of its values. -/
theorem choice_is_exact (i : Interval) (s : Switches) (hne : i.values ≠ [])
    (hroom : i.first.toNat + i.values.length + 2 ≤ UInt32.size) :
    ∃ m, i.classify? s = .ok m ∧ i.formByCount? s = .ok m.form ∧
      m.first = i.first ∧ m.last = i.last ∧
      m.last.toNat = i.first.toNat + i.values.length - 1 ∧
      ∀ c, i.first ≤ c → c ≤ i.last →
        ∃ v, i.values[(c - i.first).toNat]? = some v ∧ m.apply c = .ok v := by
  have hpos := List.length_pos_iff.mpr hne
  have hi : i.IsValid := ⟨hpos, by rw [size]; omega⟩
  have hlast := hi.toNat_last
  refine ⟨i.classify s, hi.classify?_eq_ok s hroom, hi.formByCount?_eq_ok s hroom, rfl, rfl, ?_, ?_⟩
  · rw [size] at hlast
    exact Nat.eq_sub_of_add_eq hlast
  · intro c hfirst hle
    rcases hi.exists_mem_pairs (Span.contains_iff.mpr ⟨hfirst, hle⟩) with ⟨v, hv⟩
    exact ⟨v, (hi.mem_pairs_iff.mp hv).2, (hi.isExact_form s).apply _ hv⟩

/-- Values far from their codepoints, in the last interval that leaves room for two steps. -/
theorem choice_is_exact_far :
    let i : Interval := ⟨0xFFFFFFFB, [0, 0xFFFFFFFF, 0xFFFFFFFC]⟩
    i.values ≠ [] ∧ i.first.toNat + i.values.length + 2 ≤ UInt32.size ∧
      ∃ m, i.classify? {} = .ok m ∧ m.last = 0xFFFFFFFD ∧
        m.apply 0xFFFFFFFB = .ok 0 ∧ m.apply 0xFFFFFFFD = .ok 0xFFFFFFFC := by
  intro i
  have hne : i.values ≠ [] := by decide
  have hroom : i.first.toNat + i.values.length + 2 ≤ UInt32.size := by decide
  obtain ⟨m, hm, -, -, hlast, -, happly⟩ := i.choice_is_exact {} hne hroom
  rcases happly 0xFFFFFFFB (by decide) (by decide) with ⟨v, hv, hlow⟩
  rcases happly 0xFFFFFFFD (by decide) (by decide) with ⟨w, hw, hhigh⟩
  have hv0 : i.values[((0xFFFFFFFB : Codepoint) - i.first).toNat]? = some 0 := by decide
  have hw0 : i.values[((0xFFFFFFFD : Codepoint) - i.first).toNat]? = some 0xFFFFFFFC := by decide
  rw [← Option.some.inj (hv0.symm.trans hv)] at hlow
  rw [← Option.some.inj (hw0.symm.trans hw)] at hhigh
  exact ⟨hne, hroom, m, hm, hlast.trans (by decide), hlow, hhigh⟩

/-- An interval of two values or more below the two largest codepoints gets the form of the first
rule that is switched on and applies to its values, and no other. -/
theorem choice_goes_by_priority (i : Interval) (s : Switches) (hsize : 2 ≤ i.values.length)
    (hroom : i.first.toNat + i.values.length + 2 ≤ UInt32.size) :
    ∃ f, i.classify? s = .ok ⟨i.span, f⟩ ∧ i.formByCount? s = .ok f ∧
      ∀ g, IsChosen s i g ↔ g = f := by
  have hi : i.IsValid := ⟨by rw [size]; omega, by rw [size]; omega⟩
  exact ⟨i.form s, hi.classify?_eq_ok s hroom, hi.formByCount?_eq_ok s hroom,
    fun _ => hi.isChosen_iff hsize⟩

/-- Two exceptions with a codepoint between them that is none. -/
theorem choice_goes_by_priority_inner :
    let i : Interval := ⟨0x40, [0x41, 0x41, 0x43, 0x50, 0x45, 0x60, 0x47, 0x47]⟩
    2 ≤ i.values.length ∧ i.first.toNat + i.values.length + 2 ≤ UInt32.size ∧
      i.formByCount? {} = .ok (.setException ⟨0x43, 0x45⟩ (.table [0x50, 0x45, 0x60])) ∧
      IsChosen {} i (.setException ⟨0x43, 0x45⟩ (.table [0x50, 0x45, 0x60])) := by
  intro i
  have hsize : 2 ≤ i.values.length := by decide
  have hroom : i.first.toNat + i.values.length + 2 ≤ UInt32.size := by decide
  have hform : i.formByCount? {} = .ok (.setException ⟨0x43, 0x45⟩ (.table [0x50, 0x45, 0x60])) := by
    decide
  obtain ⟨f, -, hf, hchosen⟩ := i.choice_goes_by_priority {} hsize hroom
  exact ⟨hsize, hroom, hform, (hchosen _).mpr (Except.ok.inj (hform.symm.trans hf))⟩

end Interval

end CaseFolding

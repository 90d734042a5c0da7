import CaseFolding.Proofs.Interval.Useful

namespace CaseFolding

/-! # Intervals of the entries of intervals

The entries of intervals say of every codepoint that is covered what it folds to, of
those that keep their own value as well. Cut anew, they make the same intervals: the
codepoints of one interval follow each other and so are near, unless there is just
one; no two intervals are near; and identities are dropped neither before the first
codepoint that folds to something else nor behind the last one, for there are none.
-/

namespace Interval

variable {i : Interval} {is : List Interval} {gap : UInt32}

/-! ## Cutting the pairs -/

/-- What comes behind the first value is an interval as well, with the same end. -/
theorem IsValid.tail {c v w : Codepoint} {vs : List Codepoint}
    (h : (⟨c, v :: w :: vs⟩ : Interval).IsValid) :
    (c + 1).toNat = c.toNat + 1 ∧ (⟨c + 1, w :: vs⟩ : Interval).IsValid ∧
      (⟨c + 1, w :: vs⟩ : Interval).last = (⟨c, v :: w :: vs⟩ : Interval).last := by
  have hbound := h.bound
  have hlast := h.toNat_last
  simp only [size, List.length_cons] at hbound hlast
  have hnext : (c + 1).toNat = c.toNat + 1 := toNat_add_ofNat (k := 1) (by omega)
  have htail : (⟨c + 1, w :: vs⟩ : Interval).IsValid := by
    constructor
    · simp [size]
    · simp only [size, List.length_cons]
      omega
  have hlast' := htail.toNat_last
  simp only [size, List.length_cons] at hlast'
  refine ⟨hnext, htail, UInt32.toNat.inj ?_⟩
  omega

/-- The pairs of an interval are joined to it, in front of intervals that lie apart. -/
theorem IsValid.foldr_join (hi : i.IsValid) (hgap : i.size ≠ 1 → 0 < gap.toNat)
    (hfar : ∀ j ∈ is, isNear gap i.last j.first = false) :
    i.pairs.foldr (join gap) is = i :: is := by
  -- on the values from the last one on, which starts the interval
  rcases i with ⟨c, values⟩
  induction values generalizing c with
  | nil => exact absurd hi.pos (Nat.lt_irrefl 0)
  | cons v vs ih =>
    rw [pairs_cons, List.foldr_cons]
    cases vs with
    | nil =>
      rw [last_single (c, v)] at hfar
      show join gap (c, v) is = _
      rw [join_eq_absorb]
      cases is with
      | nil => rfl
      | cons j js =>
        rw [absorb, last_single, if_neg]
        rw [hfar j List.mem_cons_self]
        exact Bool.false_ne_true
    | cons w vs =>
      obtain ⟨hnext, htail, hlast⟩ := hi.tail
      have hpos : 0 < gap.toNat := hgap (by simp [size])
      have hnear : isNear gap c (c + 1) = true := by
        rw [isNear, decide_eq_true_iff]
        omega
      rw [ih (c + 1) htail (fun _ => hpos) (hlast ▸ hfar), join, if_pos hnear,
        strictlyBetween_of_next (Nat.le_of_eq hnext), List.nil_append]

/-- Cutting the pairs of intervals that lie apart makes these intervals. -/
theorem scan_flatMap_pairs (hvalid : ∀ i ∈ is, i.IsValid)
    (hgap : ∀ i ∈ is, i.size ≠ 1 → 0 < gap.toNat)
    (hapart : is.Pairwise fun a b => a.last.toNat + gap.toNat < b.first.toNat) :
    scan gap (is.flatMap pairs) = is := by
  induction is with
  | nil => rfl
  | cons i is ih =>
    rcases List.forall_mem_cons.mp hvalid with ⟨hi, his⟩
    rcases List.forall_mem_cons.mp hgap with ⟨hgapi, hgapis⟩
    rcases List.pairwise_cons.mp hapart with ⟨hlow, hrest⟩
    have ih : (is.flatMap pairs).foldr (join gap) [] = is := ih his hgapis hrest
    rw [scan, List.flatMap_cons, List.foldr_append, ih]
    refine hi.foldr_join hgapi ?_
    intro j hj
    have hlt := hlow j hj
    rw [isNear, decide_eq_false_iff_not]
    omega

end Interval

open CaseFolding.Interval

namespace Table

variable {t : Table} {s : Span} {gap : UInt32} {c d : Codepoint} {i : Interval} {e : Entry}

/-! ## The entries of the intervals -/

/-- The pairs of the intervals of a table. -/
def covered (t : Table) (s : Span) (gap : UInt32) : List Entry :=
  (t.intervals s gap).flatMap Interval.pairs

/-- They ascend. -/
theorem ascending_covered (t : Table) (s : Span) (gap : UInt32) :
    (t.covered s gap).Pairwise fun a b => a.1 < b.1 := by
  have hcut := t.isCut_intervals s gap
  apply List.pairwise_flatMap.mpr
  constructor
  · intro i hi
    exact (hcut.valid i hi).ascending_pairs
  · refine hcut.apart.imp_of_mem ?_
    intro i j hi hj hij a ha b hb
    have hia := ((hcut.valid i hi).mem_pairs_iff.mp ha).1
    have hjb := ((hcut.valid j hj).mem_pairs_iff.mp hb).1
    have hlt := UInt32.lt_of_le_of_lt (Span.contains_iff.mp hia).2 hij
    exact UInt32.lt_of_lt_of_le hlt (Span.contains_iff.mp hjb).1

theorem contains_of_mem_covered (he : e ∈ t.covered s gap) : s.contains e.1 = true := by
  rcases List.mem_flatMap.mp he with ⟨i, hi, hpair⟩
  have hvalid := isValid_of_mem_intervals hi
  exact contains_of_mem_intervals hi (hvalid.mem_pairs_iff.mp hpair).1

/-- What folds to something else is among them. -/
theorem mem_covered_of_fold_ne (hc : s.contains c = true) (hfold : t.fold c ≠ c) :
    (c, t.fold c) ∈ t.covered s gap := by
  rcases exists_interval_of_fold_ne gap hc hfold with ⟨i, hi, hic⟩
  rcases (isValid_of_mem_intervals hi).exists_mem_pairs hic with ⟨v, hv⟩
  rw [fold_of_mem_pairs hi hv]
  exact List.mem_flatMap.mpr ⟨i, hi, hv⟩

/-- Identities come neither first nor last. -/
theorem trimIdentity_covered (t : Table) (s : Span) (gap : UInt32) :
    trimIdentity (t.covered s gap) = t.covered s gap := by
  have hascending := t.ascending_covered s gap
  have hfolds : ∀ {c : Codepoint}, t.fold c ≠ c → isIdentity (c, t.fold c) = false := by
    intro c hfold
    simpa [isIdentity] using hfold.symm
  refine eq_of_mem_iff (ascending_trimIdentity hascending) hascending ?_
  intro e
  rw [mem_trimIdentity_iff hascending]
  constructor
  · exact And.left
  · intro he
    rcases List.mem_flatMap.mp he with ⟨i, hi, hpair⟩
    have hcontains := ((isValid_of_mem_intervals hi).mem_pairs_iff.mp hpair).1
    rcases Span.contains_iff.mp hcontains with ⟨hle, hge⟩
    rcases (isScanned_first hi).above with ⟨a, ha, hafold, hai⟩
    rcases (isScanned_last hi).below with ⟨b, hb, hbfold, hib⟩
    refine ⟨he, ⟨_, mem_covered_of_fold_ne ha hafold, hfolds hafold, ?_⟩,
      ⟨_, mem_covered_of_fold_ne hb hbfold, hfolds hbfold, ?_⟩⟩
    · exact UInt32.le_trans hai hle
    · exact UInt32.le_trans hge hib

/-! ## Cutting them anew -/

/-- Without a gap, nothing is linked but a codepoint and itself. -/
theorem IsLinked.eq_of_gap (hgap : gap.toNat = 0) (h : t.IsLinked s gap c d) : c = d := by
  induction h with
  | refl => rfl
  | tail _ hstep ih =>
    rw [ih]
    have hup := hstep.up
    have hdown := hstep.down
    apply UInt32.toNat.inj
    omega

/-- Without a gap, there is one codepoint in each interval. -/
theorem gap_pos (hi : i ∈ t.intervals s gap) (hsize : i.size ≠ 1) : 0 < gap.toNat := by
  by_contra hnot
  have heq : i.first = i.last := (isLinked_bounds hi).eq_of_gap (by omega)
  have hlast := (isValid_of_mem_intervals hi).toNat_last
  rw [← heq] at hlast
  omega

/-- The table of these entries has the intervals that they come from. -/
theorem intervals_ofList_covered (t : Table) (s : Span) (gap : UInt32) :
    (ofList (t.covered s gap)).intervals s gap = t.intervals s gap := by
  have hentries := entries_ofList (t.ascending_covered s gap)
  have hwithin : (ofList (t.covered s gap)).within s = t.covered s gap := by
    rw [within, hentries, List.filter_eq_self]
    intro e he
    exact contains_of_mem_covered he
  rw [intervals, hwithin, trimIdentity_covered]
  have hcut := t.isCut_intervals s gap
  exact scan_flatMap_pairs hcut.valid (fun _ => gap_pos) (t.isSpaced_intervals s gap).apart

/-- Within a span with room above it, the intervals of a table are a normal form: their entries are
found by counting up, and the table of these entries has the same intervals, whatever the gap. -/
theorem intervals_are_normal (t : Table) {s : Span} (hs : s.first ≤ s.last)
    (hroom : s.last.toNat + 3 ≤ UInt32.size) (gap : UInt32) :
    ∃ is ess, t.gather? s gap = .ok is ∧ is.mapM Interval.pairs? = .ok ess ∧
      (ofList ess.flatten).gather? s gap = .ok is := by
  refine ⟨t.intervals s gap, (t.intervals s gap).map Interval.pairs, t.gather?_eq_ok hs gap, ?_, ?_⟩
  · apply mapM_eq_ok
    intro i hi
    exact pairs?_eq_ok (room_of_mem_intervals hroom hi)
  · rw [← List.flatMap_def, gather?_eq_ok _ hs]
    exact congrArg Except.ok (t.intervals_ofList_covered s gap)

/-- Identities in the middle, that were entries and that were not, up to the last codepoint for which
there is room. -/
theorem intervals_are_normal_high :
    let t := ofList [(0x41, 0x61), (0x44, 0x44), (0x47, 0x67), (0x50, 0x50), (0x51, 0x51),
      (0xFFFFFFFA, 0xFFFFFFFB), (0xFFFFFFFD, 0)]
    let s : Span := ⟨0x41, 0xFFFFFFFD⟩
    let low : Interval := ⟨0x41, [0x61, 0x42, 0x43, 0x44, 0x45, 0x46, 0x67]⟩
    let middle : Interval := ⟨0x50, [0x50, 0x51]⟩
    let high : Interval := ⟨0xFFFFFFFA, [0xFFFFFFFB, 0xFFFFFFFB, 0xFFFFFFFC, 0]⟩
    s.first ≤ s.last ∧ s.last.toNat + 3 ≤ UInt32.size ∧
      t.gather? s 3 = .ok [low, middle, high] ∧
      ∃ ess, [low, middle, high].mapM Interval.pairs? = .ok ess ∧ ess.flatten.length = 13 ∧
        (ofList ess.flatten).gather? s 3 = .ok [low, middle, high] := by
  intro t s low middle high
  have hs : s.first ≤ s.last := by decide
  have hroom : s.last.toNat + 3 ≤ UInt32.size := by decide
  have hfound : t.gather? s 3 = .ok [low, middle, high] := by
    rw [t.gather?_eq_ok hs]
    decide
  obtain ⟨is, ess, his, hess, hagain⟩ := t.intervals_are_normal hs hroom 3
  rcases Except.ok.inj (hfound.symm.trans his) with rfl
  refine ⟨hs, hroom, hfound, ess, hess, ?_, hagain⟩
  have hpairs : [low, middle, high].mapM Interval.pairs? =
      .ok [low.pairs, middle.pairs, high.pairs] := by decide
  rw [← Except.ok.inj (hpairs.symm.trans hess)]
  decide

end Table

end CaseFolding

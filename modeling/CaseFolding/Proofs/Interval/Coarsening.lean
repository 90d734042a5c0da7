import CaseFolding.Proofs.Interval.Useful

namespace CaseFolding

/-! # Wider gaps

What is scanned does not depend on the gap, and codepoints that are near each other
stay so when the gap grows. So links are kept, and an interval, which holds what is
linked, can only grow together with others. Between them come codepoints that keep
their own value.
-/

/-- Every codepoint of an interval has the same value in another one. -/
def Interval.IsPartOf (i j : Interval) : Prop :=
  ∀ c, i.contains c = true → ∃ v, i.get? c = some v ∧ j.get? c = some v

open CaseFolding.Interval

namespace Table

variable {t : Table} {s : Span} {gap gap' : UInt32} {c d : Codepoint} {i j : Interval}

/-! ## Links -/

theorem IsNeighbor.mono (hgap : gap ≤ gap') (h : t.IsNeighbor s gap c d) :
    t.IsNeighbor s gap' c d := by
  have hle := UInt32.le_iff_toNat_le.mp hgap
  have hup := h.up
  have hdown := h.down
  exact ⟨h.left, h.right, by omega, by omega⟩

theorem IsLinked.mono (hgap : gap ≤ gap') (h : t.IsLinked s gap c d) : t.IsLinked s gap' c d := by
  induction h with
  | refl => exact .refl
  | tail _ hstep ih => exact ih.tail (hstep.mono hgap)

/-! ## Intervals -/

/-- Intervals with a codepoint in common are one. -/
theorem eq_of_contains (hi : i ∈ t.intervals s gap) (hj : j ∈ t.intervals s gap)
    (hic : i.contains c = true) (hjc : j.contains c = true) : i = j :=
  eq_of_near hi hj hic hjc (UInt32.le_refl c) (Nat.le_add_right _ _)

theorem get?_eq_some_fold (hi : i ∈ t.intervals s gap) (hc : i.contains c = true) :
    i.get? c = some (t.fold c) := by
  have hvalid := isValid_of_mem_intervals hi
  rcases hvalid.exists_mem_pairs hc with ⟨v, hv⟩
  rw [Interval.get?, if_pos hc, (hvalid.mem_pairs_iff.mp hv).2, fold_of_mem_pairs hi hv]

/-- With a wider gap some interval reaches from one bound of an interval to the other. -/
theorem exists_wider (hgap : gap ≤ gap') (hi : i ∈ t.intervals s gap) :
    ∃ j ∈ t.intervals s gap', j.first ≤ i.first ∧ i.last ≤ j.last := by
  rcases (isScanned_first hi).exists_interval gap' with ⟨j, hj, hjfirst⟩
  have hjlast := contains_of_isLinked hj hjfirst ((isLinked_bounds hi).mono hgap)
  exact ⟨j, hj, (Span.contains_iff.mp hjfirst).1, (Span.contains_iff.mp hjlast).2⟩

/-- An interval that reaches from one bound of another to its other bound has all of its values. -/
theorem isPartOf_of_le (hi : i ∈ t.intervals s gap) (hj : j ∈ t.intervals s gap')
    (hfirst : j.first ≤ i.first) (hlast : i.last ≤ j.last) : i.IsPartOf j := by
  intro c hc
  rcases Span.contains_iff.mp hc with ⟨hle, hge⟩
  have hjc : j.contains c = true :=
    Span.contains_iff.mpr ⟨UInt32.le_trans hfirst hle, UInt32.le_trans hge hlast⟩
  exact ⟨t.fold c, get?_eq_some_fold hi hc, get?_eq_some_fold hj hjc⟩

/-- An interval is part of one interval with the wider gap. -/
theorem existsUnique_isPartOf (hgap : gap ≤ gap') (hi : i ∈ t.intervals s gap) :
    ∃! j, j ∈ t.intervals s gap' ∧ i.IsPartOf j := by
  rcases exists_wider hgap hi with ⟨j, hj, hfirst, hlast⟩
  have hcontains : ∀ k : Interval, i.IsPartOf k → k.contains i.first = true := by
    intro k hk
    rcases hk i.first (contains_first hi) with ⟨v, -, hv⟩
    exact (Option.ite_none_right_eq_some.mp hv).1
  have hpart := isPartOf_of_le hi hj hfirst hlast
  refine ⟨j, ⟨hj, hpart⟩, ?_⟩
  intro k hk
  rcases hk with ⟨hk, hkpart⟩
  exact eq_of_contains hk hj (hcontains k hkpart) (hcontains j hpart)

/-- What is covered with one gap but not with another keeps its own value. -/
theorem get?_eq_self (hj : j ∈ t.intervals s gap') (hc : j.contains c = true)
    (hnone : ∀ i ∈ t.intervals s gap, ¬ i.contains c = true) : j.get? c = some c := by
  have hfold : t.fold c = c := by
    by_contra hne
    rcases exists_interval_of_fold_ne gap (contains_of_mem_intervals hj hc) hne with ⟨i, hi, hic⟩
    exact hnone i hi hic
  rw [get?_eq_some_fold hj hc, hfold]

/-! ## The number of intervals -/

/-- With the wider gap an interval starts where one with the narrower gap does. -/
theorem exists_first_eq (hgap : gap ≤ gap') (hj : j ∈ t.intervals s gap') :
    ∃ i ∈ t.intervals s gap, i.first = j.first := by
  rcases (isScanned_first hj).exists_interval gap with ⟨i, hi, hic⟩
  refine ⟨i, hi, ?_⟩
  rcases Span.contains_iff.mp hic with ⟨hle, hge⟩
  rcases exists_wider hgap hi with ⟨k, hk, hfirst, hlast⟩
  -- the interval around that one is the given one, so it cannot start further down
  have hkj : k.contains j.first = true :=
    Span.contains_iff.mpr ⟨UInt32.le_trans hfirst hle, UInt32.le_trans hge hlast⟩
  rw [eq_of_contains hk hj hkj (contains_first hj)] at hfirst
  exact UInt32.le_antisymm hle hfirst

theorem nodup_firsts (t : Table) (s : Span) (gap : UInt32) :
    ((t.intervals s gap).map (·.first)).Nodup := by
  have hcut := t.isCut_intervals s gap
  apply List.pairwise_map.mpr
  apply hcut.apart.imp_of_mem
  intro a b ha _ hab
  exact UInt32.ne_of_lt (UInt32.lt_of_le_of_lt (hcut.valid a ha).first_le_last hab)

/-- The number of intervals does not grow with the gap. -/
theorem length_intervals_le (t : Table) (s : Span) (hgap : gap ≤ gap') :
    (t.intervals s gap').length ≤ (t.intervals s gap).length := by
  have hsub : (t.intervals s gap').map (·.first) ⊆ (t.intervals s gap).map (·.first) := by
    intro c hc
    rcases List.mem_map.mp hc with ⟨j, hj, rfl⟩
    rcases exists_first_eq hgap hj with ⟨i, hi, hfirst⟩
    exact List.mem_map.mpr ⟨i, hi, hfirst⟩
  have hle := (List.subperm_of_subset (t.nodup_firsts s gap') hsub).length_le
  rwa [List.length_map, List.length_map] at hle

theorem intervals_ofTree (t : Table) (s : Span) (gap : UInt32) (sw : Switches) :
    (Stats.ofTree (t.tree s gap sw)).intervals = (t.intervals s gap).length := by
  show (t.tree s gap sw).size = _
  rw [← Tree.length_toList, toList_tree, mappings, List.length_map]

/-- When the gap grows, intervals grow together: each one is part of one interval with the wider
gap, with the same values, and whatever is covered in addition keeps its own value. So there are no
more intervals than before, and single-width code has no more mappings. -/
theorem wider_gaps_join_intervals (t : Table) {gap gap' : UInt32} (hgap : gap ≤ gap') :
    (∀ s : Span, s.first ≤ s.last → ∃ is js, t.gather? s gap = .ok is ∧ t.gather? s gap' = .ok js ∧
      (∀ i ∈ is, ∃! j, j ∈ js ∧ i.IsPartOf j) ∧
      (∀ j ∈ js, ∀ c, j.contains c = true → (∀ i ∈ is, ¬ i.contains c = true) →
        j.get? c = some c) ∧
      js.length ≤ is.length) ∧
    ∀ (config : Config) (var : String) (sink : Sink),
      (t.listing { config with gap := gap' } var sink).stats.intervals ≤
        (t.listing { config with gap := gap } var sink).stats.intervals := by
  constructor
  · intro s hs
    refine ⟨t.intervals s gap, t.intervals s gap', t.gather?_eq_ok hs gap, t.gather?_eq_ok hs gap',
      ?_, ?_, t.length_intervals_le s hgap⟩
    · intro i hi
      exact existsUnique_isPartOf hgap hi
    · intro j hj c hc hnone
      exact get?_eq_self hj hc hnone
  · intro config var sink
    show (Stats.ofTree (t.tree Span.folded gap' config.switches)).intervals ≤
      (Stats.ofTree (t.tree Span.folded gap config.switches)).intervals
    rw [intervals_ofTree, intervals_ofTree]
    exact t.length_intervals_le Span.folded hgap

/-- Four intervals, the highest one at the largest codepoint of all, of which two are left. -/
theorem wider_gaps_join_intervals_high :
    let t := ofList [(0x41, 0x61), (0x42, 0x62), (0x46, 0x66), (0xFFFFFFFC, 0xFFFFFFFD),
      (0xFFFFFFFF, 0)]
    let s : Span := ⟨0x41, 0xFFFFFFFF⟩
    let narrow : List Interval :=
      [⟨0x41, [0x61, 0x62]⟩, ⟨0x46, [0x66]⟩, ⟨0xFFFFFFFC, [0xFFFFFFFD]⟩, ⟨0xFFFFFFFF, [0]⟩]
    let low : Interval := ⟨0x41, [0x61, 0x62, 0x43, 0x44, 0x45, 0x66]⟩
    let high : Interval := ⟨0xFFFFFFFC, [0xFFFFFFFD, 0xFFFFFFFD, 0xFFFFFFFE, 0]⟩
    (2 : UInt32) ≤ 4 ∧ s.first ≤ s.last ∧
      t.gather? s 2 = .ok narrow ∧ t.gather? s 4 = .ok [low, high] ∧
      (∃! j, j ∈ [low, high] ∧ Interval.IsPartOf ⟨0x46, [0x66]⟩ j) ∧
      low.get? 0x44 = some 0x44 ∧
      (t.listing { gap := 4 } "c" .toCaller).stats.intervals ≤
        (t.listing { gap := 2 } "c" .toCaller).stats.intervals := by
  intro t s narrow low high
  have hgap : (2 : UInt32) ≤ 4 := by decide
  have hs : s.first ≤ s.last := by decide
  have hnarrow : t.gather? s 2 = .ok narrow := by
    rw [t.gather?_eq_ok hs]
    decide
  have hwide : t.gather? s 4 = .ok [low, high] := by
    rw [t.gather?_eq_ok hs]
    decide
  rcases t.wider_gaps_join_intervals hgap with ⟨hspans, hcode⟩
  obtain ⟨is, js, his, hjs, hpart, hself, -⟩ := hspans s hs
  rcases Except.ok.inj (hnarrow.symm.trans his) with rfl
  rcases Except.ok.inj (hwide.symm.trans hjs) with rfl
  refine ⟨hgap, hs, hnarrow, hwide, ?_, ?_, hcode {} "c" .toCaller⟩
  · exact hpart ⟨0x46, [0x66]⟩ (by decide)
  · exact hself low (by simp) 0x44 (by decide) (by decide)

end Table

end CaseFolding

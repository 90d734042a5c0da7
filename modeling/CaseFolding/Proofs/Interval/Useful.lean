import CaseFolding.Proofs.Interval.Partition
import CaseFolding.Proofs.Table.Tree
import Mathlib.Logic.Relation

namespace CaseFolding

/-! # Intervals of identities only

Identities are dropped at both ends of a span, but not in between. One that lies there
joins its neighbours if they are near, and is of use then. If it is further away from
all codepoints that fold to something else, and no other entries lead to one of them in
steps no wider than the gap, it makes an interval of identities only, and the tree has
a node for that.
-/

/-- Some codepoint of the interval has a value other than itself. -/
def Interval.IsUseful (i : Interval) : Prop := ∃ e ∈ i.pairs, e.2 ≠ e.1

instance (i : Interval) : Decidable i.IsUseful :=
  inferInstanceAs (Decidable (∃ e ∈ i.pairs, e.2 ≠ e.1))

/-- Some codepoint of the mapping's span is mapped to another one. -/
def Mapping.IsUseful (m : Mapping) : Prop := ∃ c, m.contains c = true ∧ m.apply c ≠ .ok c

open CaseFolding.Interval

namespace Table

variable {t : Table} {s : Span} {gap : UInt32} {c d : Codepoint} {i : Interval}

/-! ## What an interval is of use for -/

/-- An interval is of use if the table folds one of its codepoints to something else. -/
theorem isUseful_iff (hi : i ∈ t.intervals s gap) :
    i.IsUseful ↔ ∃ c, i.contains c = true ∧ t.fold c ≠ c := by
  have hvalid := isValid_of_mem_intervals hi
  constructor
  · rintro ⟨⟨c, v⟩, hpair, hne⟩
    refine ⟨c, (hvalid.mem_pairs_iff.mp hpair).1, ?_⟩
    rw [fold_of_mem_pairs hi hpair]
    exact hne
  · rintro ⟨c, hc, hfold⟩
    rcases hvalid.exists_mem_pairs hc with ⟨v, hpair⟩
    rw [fold_of_mem_pairs hi hpair] at hfold
    exact ⟨(c, v), hpair, hfold⟩

/-- The mapping of an interval is of use if the interval is. -/
theorem isUseful_classify_iff (hi : i ∈ t.intervals s gap) (sw : Switches) :
    (i.classify sw).IsUseful ↔ i.IsUseful := by
  have hm : i.classify sw ∈ t.mappings s gap sw := List.mem_map_of_mem hi
  rw [isUseful_iff hi]
  constructor
  · rintro ⟨c, hc, hne⟩
    refine ⟨c, hc, ?_⟩
    intro hfold
    rw [(apply_of_mem_mappings hm hc).1, hfold] at hne
    exact hne rfl
  · rintro ⟨c, hc, hfold⟩
    refine ⟨c, hc, ?_⟩
    rw [(apply_of_mem_mappings hm hc).1]
    intro happly
    exact hfold (Except.ok.inj happly)

/-! ## What is scanned -/

theorem isScanned_of_fold_ne (hc : s.contains c = true) (h : t.fold c ≠ c) : t.IsScanned s c :=
  ⟨⟨_, get?_eq_some_iff.mpr (mem_of_fold_ne h)⟩, hc, ⟨c, hc, h, UInt32.le_refl c⟩,
    ⟨c, hc, h, UInt32.le_refl c⟩⟩

/-- What is scanned is in some interval. -/
theorem IsScanned.exists_interval (h : t.IsScanned s c) (gap : UInt32) :
    ∃ i ∈ t.intervals s gap, i.contains c = true := by
  have hcut := t.isCut_intervals s gap
  rcases exists_mem_trimIdentity_iff.mpr h with ⟨e, he, rfl⟩
  rcases hcut.covers e he with ⟨i, hi, hpair⟩
  exact ⟨i, hi, ((hcut.valid i hi).mem_pairs_iff.mp hpair).1⟩

theorem isScanned_first (hi : i ∈ t.intervals s gap) : t.IsScanned s i.first :=
  exists_mem_trimIdentity_iff.mp ((t.isCut_intervals s gap).first_mem i hi)

theorem isScanned_last (hi : i ∈ t.intervals s gap) : t.IsScanned s i.last :=
  exists_mem_trimIdentity_iff.mp ((t.isCut_intervals s gap).last_mem i hi)

theorem contains_first (hi : i ∈ t.intervals s gap) : i.contains i.first = true :=
  (isValid_of_mem_intervals hi).contains_first

/-! ## The ends -/

/-- No interval starts below the first one. -/
theorem first_le_of_head? {j : Interval} (hhead : (t.intervals s gap).head? = some i)
    (hj : j ∈ t.intervals s gap) : i.first ≤ j.first := by
  have hcut := t.isCut_intervals s gap
  rcases List.head?_eq_some_iff.mp hhead with ⟨is, his⟩
  rw [his] at hcut hj
  rcases List.mem_cons.mp hj with rfl | hj
  · exact UInt32.le_refl _
  · have hvalid := hcut.valid i List.mem_cons_self
    have hlt := (List.pairwise_cons.mp hcut.apart).1 j hj
    exact UInt32.le_of_lt (UInt32.lt_of_le_of_lt hvalid.first_le_last hlt)

/-- No interval ends above the last one. -/
theorem last_le_of_getLast? {j : Interval} (hlast : (t.intervals s gap).getLast? = some i)
    (hj : j ∈ t.intervals s gap) : j.last ≤ i.last := by
  have hcut := t.isCut_intervals s gap
  rcases List.getLast?_eq_some_iff.mp hlast with ⟨is, his⟩
  rw [his] at hcut hj
  have hi : i ∈ is ++ [i] := List.mem_append_right is List.mem_cons_self
  rcases List.mem_append.mp hj with hj | hj
  · have hlt := (List.pairwise_append.mp hcut.apart).2.2 j hj i List.mem_cons_self
    exact UInt32.le_of_lt (UInt32.lt_of_lt_of_le hlt (hcut.valid i hi).first_le_last)
  · rw [List.mem_singleton.mp hj]
    exact UInt32.le_refl _

/-- The first interval starts with a codepoint that folds to something else. -/
theorem fold_first_ne (hhead : (t.intervals s gap).head? = some i) : t.fold i.first ≠ i.first := by
  have hi : i ∈ t.intervals s gap := List.mem_of_head? hhead
  rcases (isScanned_first hi).above with ⟨a, ha, hfold, hle⟩
  rcases (isScanned_of_fold_ne ha hfold).exists_interval gap with ⟨j, hj, hja⟩
  have hge : i.first ≤ a :=
    UInt32.le_trans (first_le_of_head? hhead hj) (Span.contains_iff.mp hja).1
  rw [UInt32.le_antisymm hge hle]
  exact hfold

/-- The last interval ends with a codepoint that folds to something else. -/
theorem fold_last_ne (hlast : (t.intervals s gap).getLast? = some i) :
    t.fold i.last ≠ i.last := by
  have hi : i ∈ t.intervals s gap := List.mem_of_getLast? hlast
  rcases (isScanned_last hi).below with ⟨b, hb, hfold, hle⟩
  rcases (isScanned_of_fold_ne hb hfold).exists_interval gap with ⟨j, hj, hjb⟩
  have hge : b ≤ i.last :=
    UInt32.le_trans (Span.contains_iff.mp hjb).2 (last_le_of_getLast? hlast hj)
  rw [UInt32.le_antisymm hle hge]
  exact hfold

/-! ## What lies in between -/

/-- Two codepoints that are scanned, no further apart than the gap. -/
structure IsNeighbor (t : Table) (s : Span) (gap : UInt32) (c d : Codepoint) : Prop where
  left : t.IsScanned s c
  right : t.IsScanned s d
  up : d.toNat ≤ c.toNat + gap.toNat
  down : c.toNat ≤ d.toNat + gap.toNat

/-- Codepoints that are scanned lead from one to the other in steps no wider than the gap. -/
def IsLinked (t : Table) (s : Span) (gap : UInt32) : Codepoint → Codepoint → Prop :=
  Relation.ReflTransGen (t.IsNeighbor s gap)

theorem IsNeighbor.symm (h : t.IsNeighbor s gap c d) : t.IsNeighbor s gap d c :=
  ⟨h.right, h.left, h.down, h.up⟩

theorem IsLinked.symm (h : t.IsLinked s gap c d) : t.IsLinked s gap d c := by
  induction h with
  | refl => exact .refl
  | tail _ hstep ih => exact .head hstep.symm ih

/-- An interval with one of two neighbours has the other one. -/
theorem contains_of_isNeighbor (hi : i ∈ t.intervals s gap) (hc : i.contains c = true)
    (h : t.IsNeighbor s gap c d) : i.contains d = true := by
  rcases h.right.exists_interval gap with ⟨j, hj, hd⟩
  rcases UInt32.le_total c d with hcd | hdc
  · rw [eq_of_near hi hj hc hd hcd h.up]
    exact hd
  · rw [← eq_of_near hj hi hd hc hdc h.down]
    exact hd

/-- No link leads out of an interval. -/
theorem contains_of_isLinked (hi : i ∈ t.intervals s gap) (hc : i.contains c = true)
    (h : t.IsLinked s gap c d) : i.contains d = true := by
  induction h with
  | refl => exact hc
  | tail _ hstep ih => exact contains_of_isNeighbor hi ih hstep

/-- In an interval, codepoints that are scanned are linked. -/
theorem isLinked_of_contains_of_le (hi : i ∈ t.intervals s gap) (hc : t.IsScanned s c)
    (hd : t.IsScanned s d) (hic : i.contains c = true) (hid : i.contains d = true)
    (hcd : c ≤ d) : t.IsLinked s gap c d := by
  -- on the distance, which any codepoint in between cuts in two
  induction hn : d.toNat - c.toNat using Nat.strong_induction_on generalizing c d with
  | _ n ih =>
    by_cases hbetween : ∃ k, t.IsScanned s k ∧ c < k ∧ k < d
    · rcases hbetween with ⟨k, hk, hck, hkd⟩
      have hik : i.contains k = true := by
        have hle := (Span.contains_iff.mp hic).1
        have hge := (Span.contains_iff.mp hid).2
        exact Span.contains_iff.mpr ⟨UInt32.le_trans hle (UInt32.le_of_lt hck),
          UInt32.le_trans (UInt32.le_of_lt hkd) hge⟩
      have hlow := UInt32.lt_iff_toNat_lt.mp hck
      have hhigh := UInt32.lt_iff_toNat_lt.mp hkd
      have hleft := ih (k.toNat - c.toNat) (by omega) hc hk hic hik (UInt32.le_of_lt hck) rfl
      have hright := ih (d.toNat - k.toNat) (by omega) hk hd hik hid (UInt32.le_of_lt hkd) rfl
      exact hleft.trans hright
    · rcases UInt32.lt_or_eq_of_le hcd with hlt | rfl
      · rcases exists_mem_trimIdentity_iff.mpr hc with ⟨a, ha, rfl⟩
        rcases exists_mem_trimIdentity_iff.mpr hd with ⟨b, hb, rfl⟩
        have hnone : ∀ e ∈ trimIdentity (t.within s), ¬ (a.1 < e.1 ∧ e.1 < b.1) := by
          intro e he hae
          exact hbetween ⟨e.1, exists_mem_trimIdentity_iff.mp ⟨e, he, rfl⟩, hae⟩
        have hnear := (t.isSpaced_intervals s gap).near i hi a ha b hb hic hid hlt hnone
        have hup : b.1.toNat ≤ a.1.toNat + gap.toNat := by simpa [isNear] using hnear
        have hlt := UInt32.lt_iff_toNat_lt.mp hlt
        exact Relation.ReflTransGen.single ⟨hc, hd, hup, by omega⟩
      · exact .refl

/-- The codepoints that are scanned and lie in one interval are those that are linked. -/
theorem isLinked_iff (hi : i ∈ t.intervals s gap) (hc : t.IsScanned s c)
    (hic : i.contains c = true) (hd : t.IsScanned s d) :
    t.IsLinked s gap c d ↔ i.contains d = true := by
  constructor
  · intro h
    exact contains_of_isLinked hi hic h
  · intro hid
    rcases UInt32.le_total c d with hcd | hdc
    · exact isLinked_of_contains_of_le hi hc hd hic hid hcd
    · exact (isLinked_of_contains_of_le hi hd hc hid hic hdc).symm

/-- The bounds of an interval are linked. -/
theorem isLinked_bounds (hi : i ∈ t.intervals s gap) : t.IsLinked s gap i.first i.last := by
  apply (isLinked_iff hi (isScanned_first hi) (contains_first hi) (isScanned_last hi)).mpr
  exact (isValid_of_mem_intervals hi).contains_last

/-- An interval is of use if one of its codepoints that are scanned, no matter which, is linked to
one that folds to something else. -/
theorem isUseful_iff_isLinked (hi : i ∈ t.intervals s gap) (hc : t.IsScanned s c)
    (hic : i.contains c = true) :
    i.IsUseful ↔ ∃ d, t.IsLinked s gap c d ∧ t.fold d ≠ d := by
  rw [isUseful_iff hi]
  constructor
  · rintro ⟨d, hid, hfold⟩
    have hd := isScanned_of_fold_ne (contains_of_mem_intervals hi hid) hfold
    exact ⟨d, (isLinked_iff hi hc hic hd).mpr hid, hfold⟩
  · rintro ⟨d, hlink, hfold⟩
    exact ⟨d, contains_of_isLinked hi hic hlink, hfold⟩

/-! ## Intervals that are of no use -/

/-- Within a span whose bounds are in order, the first interval starts and the last one ends with a
codepoint that folds to something else. In between an interval is of use just if its codepoints
with entries are linked to one that does, so all are if no identity is scanned. The tree has a node
for each interval, of use or not. -/
theorem useless_intervals_are_cut_off (t : Table) {s : Span} (hs : s.first ≤ s.last)
    (gap : UInt32) :
    ∃ is, t.gather? s gap = .ok is ∧
      (∀ i, is.head? = some i → t.fold i.first ≠ i.first) ∧
      (∀ i, is.getLast? = some i → t.fold i.last ≠ i.last) ∧
      (∀ i ∈ is, ∀ c, t.IsScanned s c → i.contains c = true →
        (i.IsUseful ↔ ∃ d, t.IsLinked s gap c d ∧ t.fold d ≠ d)) ∧
      ((∀ c, t.IsScanned s c → t.fold c ≠ c) → ∀ i ∈ is, i.IsUseful) ∧
      ∀ sw, (t.tree s gap sw).toList = is.map (·.classify sw) ∧
        ∀ i ∈ is, (i.classify sw).IsUseful ↔ i.IsUseful := by
  refine ⟨t.intervals s gap, t.gather?_eq_ok hs gap, ?_, ?_, ?_, ?_, ?_⟩
  · intro i hhead
    exact fold_first_ne hhead
  · intro i hlast
    exact fold_last_ne hlast
  · intro i hi c hc hic
    exact isUseful_iff_isLinked hi hc hic
  · intro hfolds i hi
    have hfirst := hfolds i.first (isScanned_first hi)
    exact (isUseful_iff hi).mpr ⟨i.first, contains_first hi, hfirst⟩
  · intro sw
    refine ⟨t.toList_tree s gap sw, ?_⟩
    intro i hi
    exact isUseful_classify_iff hi sw

/-- An identity that joins its neighbour, one that is cut off, and one that is dropped; and the
same table without identities. -/
theorem useless_intervals_are_cut_off_middle :
    let t := ofList [(0x41, 0x41), (0x42, 0x62), (0x45, 0x45), (0x50, 0x50), (0x60, 0x80)]
    let t' := ofList [(0x42, 0x62), (0x60, 0x80)]
    let s : Span := ⟨0x41, 0x7F⟩
    let low : Interval := ⟨0x42, [0x62, 0x43, 0x44, 0x45]⟩
    let useless : Interval := ⟨0x50, [0x50]⟩
    let high : Interval := ⟨0x60, [0x80]⟩
    s.first ≤ s.last ∧ t.gather? s 4 = .ok [low, useless, high] ∧
      t.fold low.first ≠ low.first ∧ t.fold high.last ≠ high.last ∧
      (∃ d, t.IsLinked s 4 0x45 d ∧ t.fold d ≠ d) ∧
      (¬ ∃ d, t.IsLinked s 4 0x50 d ∧ t.fold d ≠ d) ∧
      (t.tree s 4 {}).toList = [low, useless, high].map (·.classify {}) ∧
      (∀ c, t'.IsScanned s c → t'.fold c ≠ c) ∧
      ∃ is, t'.gather? s 4 = .ok is ∧ ∀ i ∈ is, i.IsUseful := by
  intro t t' s low useless high
  have hs : s.first ≤ s.last := by decide
  have hfound : t.intervals s 4 = [low, useless, high] := by decide
  have hgather : t.gather? s 4 = .ok [low, useless, high] := by
    rw [t.gather?_eq_ok hs, hfound]
  have h45 : t.IsScanned s 0x45 :=
    ⟨⟨0x45, by decide⟩, by decide, ⟨0x42, by decide⟩, 0x60, by decide⟩
  have h50 : t.IsScanned s 0x50 :=
    ⟨⟨0x50, by decide⟩, by decide, ⟨0x42, by decide⟩, 0x60, by decide⟩
  have hfolds : ∀ c, t'.IsScanned s c → t'.fold c ≠ c := by
    intro c hc
    have hentries : t'.entries.all (fun e => t'.fold e.1 ≠ e.1) = true := by decide
    rcases hc.entry with ⟨v, hv⟩
    exact of_decide_eq_true (List.all_eq_true.mp hentries (c, v) (get?_eq_some_iff.mp hv))
  obtain ⟨is, hgather', hfirst, hlast, hlinked, -, htree⟩ := t.useless_intervals_are_cut_off hs 4
  rcases Except.ok.inj (hgather.symm.trans hgather') with rfl
  obtain ⟨is, hgather', -, -, -, huseful, -⟩ := t'.useless_intervals_are_cut_off hs 4
  refine ⟨hs, hgather, hfirst low rfl, hlast high rfl, ?_, ?_, (htree {}).1, hfolds, is, hgather',
    huseful hfolds⟩
  · exact (hlinked low (by simp) 0x45 h45 (by decide)).mp (by decide)
  · exact (not_congr (hlinked useless (by simp) 0x50 h50 (by decide))).mp (by decide)

/-- An identity that is cut off has an interval and a node of its own. -/
theorem cut_off_identity_has_a_node :
    let t := ofList [(0x10, 0x20), (0x50, 0x50), (0x90, 0xA0)]
    let s : Span := ⟨0, 0x1FFFFF⟩
    let useless : Interval := ⟨0x50, [0x50]⟩
    (∃ is, t.gather? s 4 = .ok is ∧ useless ∈ is) ∧ ¬ useless.IsUseful ∧
      ∃ tree, t.tree? s 4 {} = .ok tree ∧
        (⟨⟨0x50, 0x50⟩, .single 0x50⟩ : Mapping) ∈ tree.toList := by
  intro t s useless
  have hs : s.first ≤ s.last := by decide
  have hfound : useless ∈ t.intervals s 4 := by decide
  have hmapping : useless.classify {} = ⟨⟨0x50, 0x50⟩, .single 0x50⟩ := by decide
  refine ⟨⟨_, t.gather?_eq_ok hs 4, hfound⟩, by decide, _, t.tree?_eq_ok hs (by decide) 4 {}, ?_⟩
  rw [toList_tree, ← hmapping]
  exact List.mem_map_of_mem hfound

end Table

end CaseFolding

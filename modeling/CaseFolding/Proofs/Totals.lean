import CaseFolding.Proofs.Stats
import CaseFolding.Utf8
import Mathlib.Data.List.Fold

namespace CaseFolding

/-! # Adding up statistics

Statistics are added up number by number and kind by kind. If all sums fit, this is a
sum in every respect: neither the order nor the grouping matters, and nothing is added
by statistics of nothing. As counts do not shrink, a sum that does not fit on the way
does not fit in the end, so the order does not matter there either.
-/

/-! ## Counts of kinds -/

namespace KindCounts

variable {a b c : KindCounts} {k : Kind} {n : Nat}

theorem add_comm (a b : KindCounts) : a.add b = b.add a := by
  funext k
  unfold add
  cases a k <;> cases b k <;> simp [Nat.add_comm]

theorem getD_add (a b : KindCounts) (k : Kind) :
    (a.add b k).getD 0 = (a k).getD 0 + (b k).getD 0 := by
  unfold add
  cases a k <;> cases b k <;> simp

theorem isSome_add (a b : KindCounts) (k : Kind) :
    (a.add b k).isSome = ((a k).isSome || (b k).isSome) := by
  unfold add
  cases a k <;> cases b k <;> rfl

/-- The count of a single kind. -/
def single (k : Kind) (n : Nat) : KindCounts :=
  fun k' => if k' = k then some n else .none

/-- The sum of counts of single kinds. -/
def ofEntries (es : List (Kind × Nat)) : KindCounts :=
  es.foldr (fun e a => (single e.1 e.2).add a) none

/-- The counts of some kinds, each of which stands there once. -/
theorem ofEntries_filterMap (a : KindCounts) {ks : List Kind} (hks : ks.Nodup) (k : Kind) :
    ofEntries (ks.filterMap fun k => (a k).map fun n => (k, n)) k =
      if k ∈ ks then a k else .none := by
  induction ks with
  | nil => rfl
  | cons k₁ ks ih =>
    rcases List.nodup_cons.mp hks with ⟨hfresh, hks⟩
    have hrest := ih hks
    by_cases hk : k = k₁
    · -- the kind does not come again, so its count is that of the head
      subst hk
      rw [if_neg hfresh] at hrest
      rw [if_pos List.mem_cons_self]
      cases hcount : a k with
      | none => rw [List.filterMap_cons_none (by rw [hcount]; rfl), hrest]
      | some n =>
        rw [List.filterMap_cons_some (by rw [hcount]; rfl)]
        change (single k n).add (ofEntries _) k = _
        rw [add, hrest, single, if_pos rfl]
    · have hmem : k ∈ k₁ :: ks ↔ k ∈ ks := List.mem_cons.trans (or_iff_right hk)
      rw [if_congr hmem rfl rfl, ← hrest]
      cases hcount : a k₁ with
      | none => rw [List.filterMap_cons_none (by rw [hcount]; rfl)]
      | some n =>
        rw [List.filterMap_cons_some (by rw [hcount]; rfl)]
        change (single k₁ n).add (ofEntries _) k = _
        rw [add, single, if_neg hk]

theorem ofEntries_toList (a : KindCounts) : ofEntries a.toList = a := by
  funext k
  have hall : Kind.all.Nodup := by decide
  rw [toList, ofEntries_filterMap a hall, if_pos]
  cases k <;> decide

/-- All counts can be kept. -/
def Fits (a : KindCounts) : Prop :=
  ∀ k, (a k).getD 0 < UInt64.size

instance : DecidablePred Fits := fun a =>
  decidable_of_iff (∀ k ∈ Kind.all, (a k).getD 0 < UInt64.size)
    ⟨fun h k => h k (by cases k <;> decide), fun h k _ => h k⟩

theorem Fits.left (h : (a.add b).Fits) : a.Fits := by
  intro k
  have hk := h k
  rw [getD_add] at hk
  omega

/-- Raising one count is adding it. -/
theorem raise?_eq (h : a.Fits) (k : Kind) (n : Nat) :
    a.raise? k n = kept? (a.add (single k n)).Fits (a.add (single k n)) := by
  have hsum : ∀ k', (a.add (single k n) k').getD 0 =
      if k' = k then (a k).getD 0 + n else (a k').getD 0 := by
    intro k'
    rw [getD_add, single]
    split
    next hk => rw [hk]; rfl
    next => rfl
  have hfits : (a k).getD 0 + n < UInt64.size ↔ (a.add (single k n)).Fits := by
    constructor
    · intro hk k'
      rw [hsum]
      split
      next => exact hk
      next => exact h k'
    · intro hall
      have hk := hall k
      rwa [hsum, if_pos rfl] at hk
  have hraised : (fun k' => if k' = k then some ((a k).getD 0 + n) else a k') =
      a.add (single k n) := by
    funext k'
    by_cases hk : k' = k
    · rw [hk, if_pos rfl, add, single, if_pos rfl]
      cases a k <;> simp
    · rw [if_neg hk, add, single, if_neg hk]
      cases a k' <;> rfl
  rw [← hraised] at hfits ⊢
  exact (kept?_map _).trans (kept?_congr hfits)

/-- Raising counts one after the other is adding them. -/
theorem raiseEach?_eq (h : a.Fits) (es : List (Kind × Nat)) :
    a.raiseEach? es = kept? (a.add (ofEntries es)).Fits (a.add (ofEntries es)) := by
  induction es generalizing a with
  | nil =>
    change .ok a = kept? (a.add none).Fits (a.add none)
    rw [add_none, kept?_eq_ok h]
  | cons e es ih =>
    have hsplit : a.add (ofEntries (e :: es)) =
        (a.add (single e.1 e.2)).add (ofEntries es) := (add_assoc _ _ _).symm
    change a.raise? e.1 e.2 >>= (fun a => a.raiseEach? es) = _
    rw [raise?_eq h, hsplit]
    have hrest (hfits : (a.add (single e.1 e.2)).Fits) := ih hfits
    have hbind := kept?_bind (f := (raiseEach? · es)) hrest
    exact hbind.trans (kept?_congr (and_iff_right_of_imp Fits.left))

/-- Raising counts by those that are listed is adding them. -/
theorem raiseEach?_toList (h : a.Fits) (b : KindCounts) :
    a.raiseEach? b.toList = kept? (a.add b).Fits (a.add b) := by
  rw [raiseEach?_eq h, ofEntries_toList]

end KindCounts

/-! ## Statistics -/

namespace Stats

variable {a b c : Stats} {ss ss' : List Stats}

/-- Statistics can be merged in any grouping. -/
theorem merge_assoc (a b c : Stats) : (a.merge b).merge c = a.merge (b.merge c) := by
  ext1
  · exact Nat.add_assoc ..
  · exact Nat.add_assoc ..
  · exact Nat.add_assoc ..
  · exact Nat.max_assoc ..
  · exact KindCounts.add_assoc ..

/-- Statistics can be merged in any order. -/
theorem merge_comm (a b : Stats) : a.merge b = b.merge a := by
  ext1
  · exact Nat.add_comm ..
  · exact Nat.add_comm ..
  · exact Nat.add_comm ..
  · exact Nat.max_comm ..
  · exact KindCounts.add_comm ..

/-- Merging statistics of nothing changes nothing. -/
theorem merge_empty (a : Stats) : a.merge {} = a := by
  ext1
  · rfl
  · rfl
  · rfl
  · exact Nat.max_zero _
  · exact KindCounts.add_none _

theorem empty_merge (a : Stats) : merge {} a = a :=
  (merge_comm {} a).trans a.merge_empty

instance : Std.Associative merge := ⟨merge_assoc⟩

instance : Std.Commutative merge := ⟨merge_comm⟩

/-- All that is added up can be kept. Heights are not added up. -/
def Fits (s : Stats) : Prop :=
  s.intervals < UInt64.size ∧ s.branches < UInt64.size ∧ s.dataSize < UInt64.size ∧ s.kinds.Fits

instance : DecidablePred Fits := fun s => by
  unfold Fits
  infer_instance

theorem Fits.left (h : (a.merge b).Fits) : a.Fits := by
  rcases h with ⟨hintervals, hbranches, hdata, hkinds⟩
  exact ⟨Nat.lt_of_le_of_lt (Nat.le_add_right ..) hintervals,
    Nat.lt_of_le_of_lt (Nat.le_add_right ..) hbranches,
    Nat.lt_of_le_of_lt (Nat.le_add_right ..) hdata, hkinds.left⟩

theorem Fits.right (h : (a.merge b).Fits) : b.Fits := by
  rw [merge_comm] at h
  exact h.left

/-- Statistics that are kept number by number are added up as a whole. -/
theorem merge?_eq (h : a.Fits) (b : Stats) :
    a.merge? b = kept? (a.merge b).Fits (a.merge b) := by
  rw [merge?, KindCounts.raiseEach?_toList h.2.2.2]
  exact kept?_bind fun _ => kept?_bind fun _ => kept?_bind fun _ => kept?_map _

/-- Adds up runs in the order given. -/
def mergeAll? (ss : List Stats) : Except Fault Stats :=
  ss.foldlM merge? {}

/-- What runs add up to. -/
def total (ss : List Stats) : Stats :=
  ss.foldr merge {}

theorem total_perm (h : ss.Perm ss') : total ss = total ss' :=
  List.Perm.foldr_eq (f := merge) h {}

theorem mergeAll?_eq (ss : List Stats) : mergeAll? ss = kept? (total ss).Fits (total ss) := by
  -- what has been added up so far is a part of the whole and fits if the whole does
  have hrest : ∀ (ss : List Stats) (a : Stats), a.Fits →
      ss.foldlM merge? a = kept? (a.merge (total ss)).Fits (a.merge (total ss)) := by
    intro ss
    induction ss with
    | nil =>
      intro a ha
      change .ok a = kept? (a.merge {}).Fits (a.merge {})
      rw [merge_empty, kept?_eq_ok ha]
    | cons s ss ih =>
      intro a ha
      have hsplit : a.merge (total (s :: ss)) = (a.merge s).merge (total ss) :=
        (merge_assoc a s (total ss)).symm
      rw [List.foldlM_cons, merge?_eq ha, hsplit]
      have hbind := kept?_bind (f := (ss.foldlM merge? ·)) (ih (a.merge s))
      exact hbind.trans (kept?_congr (and_iff_right_of_imp Fits.left))
  have hempty : Fits {} := by decide
  rw [mergeAll?, hrest ss {} hempty, empty_merge]

/-- The numbers of runs add up, and the height is the largest. -/
structure IsTotal (s : Stats) (ss : List Stats) : Prop where
  intervals : s.intervals = (ss.map (·.intervals)).sum
  branches : s.branches = (ss.map (·.branches)).sum
  dataSize : s.dataSize = (ss.map (·.dataSize)).sum
  height : s.height = (ss.map (·.height)).foldr max 0
  counts : ∀ k, s.count k = (ss.map (·.count k)).sum
  /-- A kind is listed if some run lists it, even with no occurrence. -/
  listed : ∀ k, (s.kinds k).isSome ↔ ∃ s' ∈ ss, (s'.kinds k).isSome

/-- This is what runs add up to. -/
theorem isTotal_total (ss : List Stats) : (total ss).IsTotal ss := by
  induction ss with
  | nil => exact ⟨rfl, rfl, rfl, rfl, fun _ => rfl, fun _ => ⟨nofun, nofun⟩⟩
  | cons s ss ih =>
    constructor
    case intervals => exact congrArg (s.intervals + ·) ih.intervals
    case branches => exact congrArg (s.branches + ·) ih.branches
    case dataSize => exact congrArg (s.dataSize + ·) ih.dataSize
    case height => exact congrArg (max s.height ·) ih.height
    case counts =>
      intro k
      have hadd := KindCounts.getD_add s.kinds (total ss).kinds k
      exact hadd.trans (congrArg (s.count k + ·) (ih.counts k))
    case listed =>
      intro k
      have hadd := KindCounts.isSome_add s.kinds (total ss).kinds k
      change (s.kinds.add (total ss).kinds k).isSome ↔ _
      rw [hadd, Bool.or_eq_true, ih.listed, List.exists_mem_cons_iff]

/-- What runs add up to fits if the sums of their numbers do. -/
theorem IsTotal.fits {s : Stats} (h : s.IsTotal ss)
    (hintervals : (ss.map (·.intervals)).sum < UInt64.size)
    (hbranches : (ss.map (·.branches)).sum < UInt64.size)
    (hdata : (ss.map (·.dataSize)).sum < UInt64.size)
    (hcounts : ∀ k, (ss.map (·.count k)).sum < UInt64.size) : s.Fits := by
  refine ⟨h.intervals ▸ hintervals, h.branches ▸ hbranches, h.dataSize ▸ hdata, ?_⟩
  intro k
  exact (h.counts k).trans_lt (hcounts k)

/-- Merging statistics kind by kind merges them as a whole, as long as the sums fit. It does not
depend on the order and the grouping, not even in whether it fails, and statistics of nothing change
nothing. So in any order a list of statistics is merged into the sums of its numbers, the sums of its
counts for exactly the kinds that are listed somewhere, and the largest height. -/
theorem merging_in_any_order_adds_up :
    (∀ a b : Stats, (a.merge b).Fits → a.merge? b = .ok (a.merge b)) ∧
    (∀ a b : Stats, a.Fits → b.Fits → a.merge? b = b.merge? a) ∧
    (∀ a b c : Stats, a.Fits → b.Fits →
      a.merge? b >>= (·.merge? c) = b.merge? c >>= (a.merge? ·)) ∧
    (∀ a : Stats, a.Fits → merge? {} a = .ok a ∧ a.merge? {} = .ok a) ∧
    ∀ ss ss' : List Stats, ss.Perm ss' →
      mergeAll? ss' = mergeAll? ss ∧
      ((ss.map (·.intervals)).sum < UInt64.size → (ss.map (·.branches)).sum < UInt64.size →
        (ss.map (·.dataSize)).sum < UInt64.size →
        (∀ k, (ss.map (·.count k)).sum < UInt64.size) →
        ∃ s, mergeAll? ss' = .ok s ∧ s.IsTotal ss) := by
  have hcomm : ∀ a b : Stats, a.Fits → b.Fits → a.merge? b = b.merge? a := by
    intro a b ha hb
    rw [merge?_eq ha, merge?_eq hb, merge_comm]
  have hright : ∀ a : Stats, a.Fits → a.merge? {} = .ok a := by
    intro a ha
    rw [merge?_eq ha, merge_empty, kept?_eq_ok ha]
  have hempty : Fits {} := by decide
  refine ⟨?_, hcomm, ?_, fun a ha => ⟨(hcomm {} a hempty ha).trans (hright a ha), hright a ha⟩, ?_⟩
  · intro a b h
    rw [merge?_eq h.left, kept?_eq_ok h]
  · intro a b c ha hb
    -- what fits in the end has fitted on either way
    have hthird (h : (a.merge b).Fits) := merge?_eq h c
    have hfirst := kept?_bind (f := (merge? · c)) hthird
    have hothers (_ : (b.merge c).Fits) := merge?_eq ha (b.merge c)
    have hlast := kept?_bind (f := (merge? a ·)) hothers
    rw [merge?_eq ha, merge?_eq hb, hfirst, hlast, ← merge_assoc]
    refine kept?_congr ((and_iff_right_of_imp Fits.left).trans (and_iff_right_of_imp ?_).symm)
    rw [merge_assoc]
    exact Fits.right
  · intro ss ss' hperm
    have hsame : mergeAll? ss' = kept? (total ss).Fits (total ss) := by
      rw [mergeAll?_eq, total_perm hperm]
    refine ⟨hsame.trans (mergeAll?_eq ss).symm, ?_⟩
    intro hintervals hbranches hdata hcounts
    have htotal := isTotal_total ss
    have hfits := htotal.fits hintervals hbranches hdata hcounts
    exact ⟨_, hsame.trans (kept?_eq_ok hfits), htotal⟩

/-- A kind that is listed with no occurrence is still listed when statistics have been merged that
do not list it. -/
theorem merging_in_any_order_adds_up_no_occurrence :
    let a : Stats := { intervals := 2, branches := 3, height := 2, kinds := .single .delta 2 }
    let b : Stats := { dataSize := 8, height := 3, kinds := .single .set 0 }
    ∃ s, mergeAll? [a, b] = .ok s ∧ mergeAll? [b, a] = .ok s ∧ s.intervals = 2 ∧
      s.branches = 3 ∧ s.dataSize = 8 ∧ s.height = 3 ∧ s.count .delta = 2 ∧ s.count .set = 0 ∧
      (s.kinds .set).isSome ∧ ¬ (s.kinds .reset).isSome := by
  intro a b
  rcases merging_in_any_order_adds_up with ⟨-, -, -, -, hlists⟩
  rcases hlists [a, b] [b, a] (List.Perm.swap b a []) with ⟨hsame, hfits⟩
  have hcounts : ∀ k, ([a, b].map (·.count k)).sum < UInt64.size := by
    intro k
    cases k <;> decide
  rcases hfits (by decide) (by decide) (by decide) hcounts with ⟨s, hmerged, htotal⟩
  refine ⟨s, hsame ▸ hmerged, hmerged, htotal.intervals, htotal.branches, htotal.dataSize,
    htotal.height, htotal.counts .delta, htotal.counts .set, ?_, ?_⟩
  · exact (htotal.listed .set).mpr ⟨b, by simp, rfl⟩
  · rw [htotal.listed .reset]
    rintro ⟨s', hs', hlisted⟩
    rcases List.mem_pair.mp hs' with rfl | rfl
    · exact absurd hlisted (by decide)
    · exact absurd hlisted (by decide)

end Stats

end CaseFolding

import CaseFolding.Proofs.Tree.Store
import Mathlib.Data.List.Pairwise

namespace CaseFolding

/-! # Mappings in any order

Mappings that share no codepoint may be inserted in whatever order they come. The
tree may take another shape, but each of them is taken, and from left to right they
stand in ascending order. So which mapping is found for a codepoint, and with it the
whole fold, does not depend on the order.
-/

namespace Tree

/-- No span is empty, and no codepoint lies in two of them. -/
structure SharesNothing (ms : List Mapping) : Prop where
  first_le_last : ∀ m ∈ ms, m.first ≤ m.last
  disjoint : ms.Pairwise fun a b => ∀ c, ¬ (a.contains c = true ∧ b.contains c = true)

variable {ms ms' : List Mapping} {t : Tree} {m : Mapping} {c : Codepoint}

namespace SharesNothing

/-- The order does not matter. -/
theorem perm (h : SharesNothing ms) (hperm : ms'.Perm ms) : SharesNothing ms' := by
  refine ⟨?_, ?_⟩
  · intro m hm
    exact h.first_le_last m (hperm.mem_iff.mp hm)
  · refine hperm.symm.pairwise h.disjoint ?_
    intro a b hab c hc
    exact hab c hc.symm

/-- The first codepoints differ. -/
theorem first_ne (h : SharesNothing ms) : ms.Pairwise fun a b => a.first ≠ b.first := by
  refine h.disjoint.imp_of_mem ?_
  intro a b ha hb hab heq
  refine hab a.first ⟨?_, ?_⟩
  · exact contains_iff.mpr ⟨UInt32.le_refl _, h.first_le_last a ha⟩
  · rw [heq]
    exact contains_iff.mpr ⟨UInt32.le_refl _, h.first_le_last b hb⟩

theorem eq_of_contains (h : SharesNothing ms) {a b : Mapping} (ha : a ∈ ms) (hb : b ∈ ms)
    (hac : a.contains c = true) (hbc : b.contains c = true) : a = b := by
  have hsymm : Std.Symm fun a b : Mapping => ∀ c, ¬ (a.contains c = true ∧ b.contains c = true) :=
    ⟨fun a b hab c hc => hab c hc.symm⟩
  by_contra hne
  exact h.disjoint.forall ha hb hne c ⟨hac, hbc⟩

/-- In ascending order the spans lie one behind the other. -/
theorem separated (h : SharesNothing ms) (hascending : ms.Pairwise fun a b => a.first < b.first) :
    Separated ms := by
  refine ⟨h.first_le_last, (hascending.and h.disjoint).imp_of_mem ?_⟩
  intro a b _ hb ⟨hlt, hab⟩
  -- otherwise the lower span would reach the first codepoint of the upper one
  rw [← UInt32.not_le]
  intro hle
  refine hab b.first ⟨?_, ?_⟩
  · exact contains_iff.mpr ⟨UInt32.le_of_lt hlt, hle⟩
  · exact contains_iff.mpr ⟨UInt32.le_refl _, h.first_le_last b hb⟩

theorem of_separated (h : Separated ms) : SharesNothing ms := by
  refine ⟨h.1, h.2.imp ?_⟩
  intro a b hab c ⟨hac, hbc⟩
  have hle := UInt32.le_trans (contains_iff.mp hbc).1 (contains_iff.mp hac).2
  exact absurd hab (UInt32.not_lt.mpr hle)

/-! ## Searching a list -/

/-- The search finds the mapping that holds a codepoint, wherever it stands. -/
theorem foldList_of_contains (h : SharesNothing ms) (hm : m ∈ ms) (hc : m.contains c = true) :
    foldList ms c = m.apply c := by
  rw [foldList]
  split
  next k hfind =>
    have hk : k.contains c = true := by simpa using List.find?_some hfind
    rw [h.eq_of_contains (List.mem_of_find?_eq_some hfind) hm hk hc]
  next hfind => exact absurd hc (List.find?_eq_none.mp hfind m hm)

/-- What the search finds does not depend on the order. -/
theorem foldList_perm (h : SharesNothing ms) (hperm : ms'.Perm ms) (c : Codepoint) :
    foldList ms' c = foldList ms c := by
  by_cases hheld : ∃ m ∈ ms, m.contains c = true
  · rcases hheld with ⟨m, hm, hc⟩
    rw [h.foldList_of_contains hm hc,
      (h.perm hperm).foldList_of_contains (hperm.mem_iff.mpr hm) hc]
  · have hnone : ∀ ks : List Mapping, (∀ k ∈ ks, k ∈ ms) → foldList ks c = .ok c := by
      intro ks hks
      have hfind : ks.find? (·.contains c) = none := by
        refine List.find?_eq_none.mpr ?_
        intro k hk hc
        exact hheld ⟨k, hks k hk, hc⟩
      rw [foldList, hfind]
    rw [hnone ms' fun k hk => hperm.mem_iff.mp hk, hnone ms fun k hk => hk]

end SharesNothing

/-! ## Inserting -/

/-- A mapping whose first codepoint is new is taken, and comes on top of the others. -/
theorem insert_of_first_ne (ht : t.Ordered) (h : ∀ k ∈ t.toList, k.first ≠ m.first) :
    (t.insert m).2 = true ∧ (t.insert m).1.toList.Perm (m :: t.toList) := by
  rcases insert_spec ht m with ⟨⟨k, hk, heq⟩, -, -⟩ | ⟨before, after, hsplit, -, -, hflag, hlist⟩
  · exact absurd heq (h k hk)
  · refine ⟨hflag, ?_⟩
    rw [hlist, hsplit]
    exact List.perm_middle

/-- Mappings with different first codepoints are all in the tree. -/
theorem toList_ofList_perm (h : ms.Pairwise fun a b => a.first ≠ b.first) :
    (ofList ms).toList.Perm ms := by
  induction ms using List.reverseRecOn with
  | nil => exact .refl _
  | append_singleton ms m ih =>
    rcases List.pairwise_append.mp h with ⟨hms, -, hm⟩
    have hnew : ∀ k ∈ (ofList ms).toList, k.first ≠ m.first :=
      fun k hk => hm k (mem_of_mem_ofList hk) m List.mem_cons_self
    rw [ofList_concat]
    calc
      ((ofList ms).insert m).1.toList.Perm (m :: (ofList ms).toList) :=
        (insert_of_first_ne (ordered_ofList ms) hnew).2
      (m :: (ofList ms).toList).Perm (m :: ms) := (ih hms).cons m
      (m :: ms).Perm (ms ++ [m]) := (List.perm_append_singleton m ms).symm

/-- The mappings of a tree do not depend on the order in which they came. -/
theorem toList_ofList_of_perm (h : ms.Pairwise fun a b => a.first ≠ b.first)
    (hperm : ms'.Perm ms) : (ofList ms').toList = (ofList ms).toList := by
  have h' : ms'.Pairwise fun a b => a.first ≠ b.first := hperm.symm.pairwise h Ne.symm
  have hlists : (ofList ms').toList.Perm (ofList ms).toList :=
    ((toList_ofList_perm h').trans hperm).trans (toList_ofList_perm h).symm
  refine hlists.eq_of_pairwise ?_ (ordered_ofList ms') (ordered_ofList ms)
  intro a b _ _ hab hba
  exact absurd hba (UInt32.lt_asymm hab)

/-- The tree finds what a search through the mappings finds, in whatever order they came. -/
theorem SharesNothing.fold_ofList (h : SharesNothing ms) (c : Codepoint) :
    (ofList ms).fold c = foldList ms c := by
  have hperm := toList_ofList_perm h.first_ne
  rw [fold_eq_foldList ((h.perm hperm).separated (ordered_ofList ms)), h.foldList_perm hperm]

end Tree

/-! ## Stores -/

open CaseFolding.Tree

namespace Store

/-- Mappings that share no codepoint may come in any order. Each of them is taken when it comes, the
store holds them in ascending order, and it finds for each codepoint what a search through them
finds: the mapping that holds it, if there is one. Another order makes no difference to this. -/
theorem any_order_makes_the_same {ms : List Mapping} (h : SharesNothing ms) :
    ∃ s sorted, ofList ms = some s ∧ s.mappings? = some sorted ∧
      sorted.Perm ms ∧ (sorted.Pairwise fun a b => a.first < b.first) ∧
      (∀ before m after, ms = before ++ m :: after →
        ∃ s₁ s₂, ofList before = some s₁ ∧ s₁.insert m = some (s₂, true)) ∧
      (∀ c, s.fold? c = some (foldList ms c)) ∧
      (∀ c, ∀ m ∈ ms, m.contains c = true →
        s.fold? c = some (m.apply c) ∧ ∀ k ∈ ms, k.contains c = true → k = m) ∧
      (∀ c, (∀ m ∈ ms, ¬ m.contains c = true) → s.fold? c = some (.ok c)) ∧
      ∀ ms', ms'.Perm ms →
        ∃ s', ofList ms' = some s' ∧ s'.mappings? = some sorted ∧ ∀ c, s'.fold? c = s.fold? c := by
  obtain ⟨s, hs, hholds⟩ := exists_ofList ms
  have hfold : ∀ c, s.fold? c = some (foldList ms c) := by
    intro c
    rw [hholds.fold?_eq, h.fold_ofList]
  refine ⟨s, (Tree.ofList ms).toList, hs, hholds.mappings?_eq, toList_ofList_perm h.first_ne,
    ordered_ofList ms, ?_, hfold, ?_, ?_, ?_⟩
  · intro before m after hsplit
    obtain ⟨s₁, hs₁, hholds₁⟩ := exists_ofList before
    obtain ⟨s₂, hs₂, -⟩ := hholds₁.insert m
    have hne := h.first_ne
    rw [hsplit] at hne
    have hnew : ∀ k ∈ (Tree.ofList before).toList, k.first ≠ m.first := fun k hk =>
      (List.pairwise_append.mp hne).2.2 k (mem_of_mem_ofList hk) m List.mem_cons_self
    rw [(insert_of_first_ne (ordered_ofList before) hnew).1] at hs₂
    exact ⟨s₁, s₂, hs₁, hs₂⟩
  · intro c m hm hc
    rw [hfold, h.foldList_of_contains hm hc]
    exact ⟨rfl, fun k hk hkc => h.eq_of_contains hk hm hkc hc⟩
  · intro c hnone
    rw [hfold, foldList, List.find?_eq_none.mpr hnone]
  · intro ms' hperm
    obtain ⟨s', hs', hholds'⟩ := exists_ofList ms'
    refine ⟨s', hs', ?_, ?_⟩
    · rw [hholds'.mappings?_eq, toList_ofList_of_perm h.first_ne hperm]
    · intro c
      rw [hholds'.fold?_eq, (h.perm hperm).fold_ofList, h.foldList_perm hperm, hfold]

/-- Three mappings whose inner one comes last and takes two rotations, first to one side and then,
in the other order, to the other side. -/
theorem any_order_makes_the_same_three :
    let low : Mapping := ⟨⟨0x10, 0x1F⟩, .set⟩
    let inner : Mapping := ⟨⟨0x30, 0x30⟩, .single 0x131⟩
    let high : Mapping := ⟨⟨0x41, 0x5A⟩, .delta 32⟩
    SharesNothing [high, low, inner] ∧
      ∃ s, ofList [high, low, inner] = some s ∧ s.mappings? = some [low, inner, high] ∧
        (∃ s₁ s₂, ofList [high, low] = some s₁ ∧ s₁.insert inner = some (s₂, true)) ∧
        s.fold? 0x41 = some (.ok 0x61) ∧ s.fold? 0x40 = some (.ok 0x40) ∧
        ∃ s', ofList [low, high, inner] = some s' ∧ s'.mappings? = some [low, inner, high] ∧
          s'.fold? 0x41 = s.fold? 0x41 := by
  intro low inner high
  have hseparated : Separated [low, inner, high] := ⟨by decide, by decide⟩
  have hperm : [high, low, inner].Perm [low, inner, high] := by decide
  have h : SharesNothing [high, low, inner] := (SharesNothing.of_separated hseparated).perm hperm
  obtain ⟨s, sorted, hs, hmappings, hsorted, hascending, hinsert, -, hheld, hpassed, hagain⟩ :=
    any_order_makes_the_same h
  have hlist : sorted = [low, inner, high] := by
    refine (hsorted.trans hperm).eq_of_pairwise ?_ hascending hseparated.ascending
    intro a b _ _ hab hba
    exact absurd hba (UInt32.lt_asymm hab)
  rw [hlist] at hmappings
  obtain ⟨s', hs', hmappings', hfold⟩ := hagain [low, high, inner] (by decide)
  rw [hlist] at hmappings'
  exact ⟨h, s, hs, hmappings, hinsert [high, low] inner [] rfl,
    (hheld 0x41 high List.mem_cons_self (by decide)).1, hpassed 0x40 (by decide),
    s', hs', hmappings', hfold 0x41⟩

end Store

end CaseFolding

import CaseFolding.Tree.Basic
import Mathlib.Data.List.Induction

namespace CaseFolding.Tree

/-! # Order of dispatch trees

From left to right the mappings of a tree ascend by their first codepoint, and
insertion keeps it so. Mappings that are inserted in ascending order are all
taken and stand in the tree in that order. Where their spans do not overlap,
the search finds the mapping that holds a codepoint.
-/

variable {t : Tree} {m : Mapping}

/-- The mappings ascend by their first codepoint, by which they differ. -/
def Ordered (t : Tree) : Prop :=
  t.toList.Pairwise fun a b => a.first < b.first

/-- In an ordered tree both subtrees are ordered and lie on either side of the root. -/
theorem ordered_node {h : Nat} {l : Tree} {m : Mapping} {r : Tree} :
    (node h l m r).Ordered ↔
      l.Ordered ∧ r.Ordered ∧ (∀ k ∈ l.toList, k.first < m.first) ∧
        ∀ k ∈ r.toList, m.first < k.first := by
  simp only [Ordered, toList, List.pairwise_append, List.pairwise_cons, List.mem_cons]
  constructor
  · rintro ⟨hl, ⟨hmr, hr⟩, hlr⟩
    exact ⟨hl, hr, fun k hk => hlr k hk m (.inl rfl), hmr⟩
  · rintro ⟨hl, hr, hlm, hmr⟩
    refine ⟨hl, ⟨hmr, hr⟩, ?_⟩
    rintro a ha b (rfl | hb)
    · exact hlm a ha
    · exact UInt32.lt_trans (hlm a ha) (hmr b hb)

/-! ## Inserting -/

/-- What an insertion does to the mappings: they stay as they are where one of them has the first
codepoint of the new one, and otherwise the new one takes its place among them. -/
theorem insert_spec (ht : t.Ordered) (m : Mapping) :
    ((∃ k ∈ t.toList, k.first = m.first) ∧
      (t.insert m).2 = false ∧ (t.insert m).1.toList = t.toList) ∨
    ∃ before after, t.toList = before ++ after ∧
      (∀ k ∈ before, k.first < m.first) ∧ (∀ k ∈ after, m.first < k.first) ∧
      (t.insert m).2 = true ∧ (t.insert m).1.toList = before ++ m :: after := by
  induction t with
  | leaf => exact .inr ⟨[], [], rfl, nofun, nofun, rfl, rfl⟩
  | node h l k r ihl ihr =>
    rcases ordered_node.mp ht with ⟨hl, hr, hlk, hkr⟩
    unfold insert
    split
    next hmk =>
      -- the mapping belongs to the left of the root
      rcases ihl hl with ⟨⟨k', hk', hfirst⟩, hflag, hlist⟩ |
        ⟨before, after, hsplit, hb, ha, hflag, hlist⟩
      · refine .inl ⟨⟨k', by simp [toList, hk'], hfirst⟩, hflag, ?_⟩
        simp [toList, hlist]
      · refine .inr ⟨before, after ++ k :: r.toList, by simp [toList, hsplit], hb, ?_, hflag, ?_⟩
        · intro k' hk'
          rcases List.mem_append.mp hk' with hk' | hk'
          · exact ha k' hk'
          · rcases List.mem_cons.mp hk' with rfl | hk'
            · exact hmk
            · exact UInt32.lt_trans hmk (hkr k' hk')
        · simp [hlist]
    next hmk =>
      split
      next hkm =>
        -- the mapping belongs to the right of the root
        rcases ihr hr with ⟨⟨k', hk', hfirst⟩, hflag, hlist⟩ |
          ⟨before, after, hsplit, hb, ha, hflag, hlist⟩
        · refine .inl ⟨⟨k', by simp [toList, hk'], hfirst⟩, hflag, ?_⟩
          simp [toList, hlist]
        · refine .inr ⟨l.toList ++ k :: before, after, by simp [toList, hsplit], ?_, ha, hflag, ?_⟩
          · intro k' hk'
            rcases List.mem_append.mp hk' with hk' | hk'
            · exact UInt32.lt_trans (hlk k' hk') hkm
            · rcases List.mem_cons.mp hk' with rfl | hk'
              · exact hkm
              · exact hb k' hk'
          · simp [hlist]
      next hkm =>
        have heq : k.first = m.first :=
          UInt32.le_antisymm (UInt32.not_lt.mp hmk) (UInt32.not_lt.mp hkm)
        exact .inl ⟨⟨k, by simp [toList], heq⟩, rfl, rfl⟩

/-- A mapping is taken if and only if no other one has its first codepoint. -/
theorem insert_snd_eq_true_iff (ht : t.Ordered) :
    (t.insert m).2 = true ↔ ∀ k ∈ t.toList, k.first ≠ m.first := by
  rcases insert_spec ht m with ⟨⟨k, hk, heq⟩, hflag, -⟩ | ⟨before, after, hsplit, hb, ha, hflag, -⟩
  · rw [hflag]
    exact iff_of_false Bool.false_ne_true fun h => h k hk heq
  · refine iff_of_true hflag ?_
    intro k hk
    rw [hsplit, List.mem_append] at hk
    rcases hk with hk | hk
    · exact UInt32.ne_of_lt (hb k hk)
    · exact (UInt32.ne_of_lt (ha k hk)).symm

/-- Insertion keeps the order. -/
theorem ordered_insert (ht : t.Ordered) (m : Mapping) : (t.insert m).1.Ordered := by
  rcases insert_spec ht m with ⟨-, -, hlist⟩ | ⟨before, after, hsplit, hb, ha, -, hlist⟩
  · rw [Ordered, hlist]
    exact ht
  · rw [Ordered, hsplit, List.pairwise_append] at ht
    rcases ht with ⟨hbefore, hafter, hcross⟩
    rw [Ordered, hlist, List.pairwise_append]
    refine ⟨hbefore, List.pairwise_cons.mpr ⟨ha, hafter⟩, ?_⟩
    intro a hamem b hbmem
    rcases List.mem_cons.mp hbmem with rfl | hbmem
    · exact hb a hamem
    · exact hcross a hamem b hbmem

/-- Insertion brings in nothing but the new mapping. -/
theorem mem_insert (ht : t.Ordered) {k : Mapping} (h : k ∈ (t.insert m).1.toList) :
    k = m ∨ k ∈ t.toList := by
  rcases insert_spec ht m with ⟨-, -, hlist⟩ | ⟨before, after, hsplit, -, -, -, hlist⟩
  · rw [hlist] at h
    exact .inr h
  · rw [hlist, List.mem_append, List.mem_cons] at h
    rw [hsplit, List.mem_append]
    rcases h with h | h | h
    · exact .inr (.inl h)
    · exact .inl h
    · exact .inr (.inr h)

/-- A mapping that lies above all others is taken, and stands last. -/
theorem insert_of_above (ht : t.Ordered) (h : ∀ k ∈ t.toList, k.first < m.first) :
    (t.insert m).2 = true ∧ (t.insert m).1.toList = t.toList ++ [m] := by
  rcases insert_spec ht m with ⟨⟨k, hk, heq⟩, -, -⟩ | ⟨before, after, hsplit, -, ha, hflag, hlist⟩
  · have hlt := h k hk
    rw [heq] at hlt
    exact absurd hlt (UInt32.lt_irrefl _)
  · have hnil : after = [] := by
      cases after with
      | nil => rfl
      | cons k after =>
        have hlt := UInt32.lt_trans (h k (by simp [hsplit])) (ha k (by simp))
        exact absurd hlt (UInt32.lt_irrefl _)
    subst hnil
    refine ⟨hflag, ?_⟩
    rw [hlist, hsplit, List.append_nil]

/-! ## Runs of insertions -/

theorem ofList_concat (ms : List Mapping) (m : Mapping) :
    ofList (ms ++ [m]) = ((ofList ms).insert m).1 := by
  simp [ofList]

/-- A property of the empty tree that every insertion keeps holds after every run. -/
theorem ofList_induction {P : Tree → Prop} (hleaf : P leaf)
    (hinsert : ∀ t m, P t → P (t.insert m).1) (ms : List Mapping) : P (ofList ms) := by
  induction ms using List.reverseRecOn with
  | nil => exact hleaf
  | append_singleton ms m ih =>
    rw [ofList_concat]
    exact hinsert _ m ih

theorem ordered_ofList (ms : List Mapping) : (ofList ms).Ordered :=
  ofList_induction (P := Ordered) List.Pairwise.nil (fun _ m ht => ordered_insert ht m) ms

/-- A tree holds nothing but what was inserted. -/
theorem mem_of_mem_ofList {ms : List Mapping} {k : Mapping} (h : k ∈ (ofList ms).toList) :
    k ∈ ms := by
  induction ms using List.reverseRecOn with
  | nil => exact h
  | append_singleton ms m ih =>
    rw [ofList_concat] at h
    rcases mem_insert (ordered_ofList ms) h with rfl | h
    · simp
    · simp [ih h]

/-- Mappings inserted in ascending order stand in the tree in that order. -/
theorem toList_ofList {ms : List Mapping} (h : ms.Pairwise fun a b => a.first < b.first) :
    (ofList ms).toList = ms := by
  induction ms using List.reverseRecOn with
  | nil => rfl
  | append_singleton ms m ih =>
    rcases List.pairwise_append.mp h with ⟨hms, -, hm⟩
    have hlist := ih hms
    rw [ofList_concat, (insert_of_above (ordered_ofList ms) _).2, hlist]
    intro k hk
    rw [hlist] at hk
    exact hm k hk m (by simp)

/-- Mappings inserted in ascending order are all taken. -/
theorem insert_ofList_of_ascending {before after : List Mapping}
    (h : (before ++ m :: after).Pairwise fun a b => a.first < b.first) :
    ((ofList before).insert m).2 = true := by
  -- all mappings that are in the tree by then lie below
  rcases List.pairwise_append.mp h with ⟨hbefore, -, hm⟩
  apply (insert_of_above (ordered_ofList before) _).1
  intro k hk
  rw [toList_ofList hbefore] at hk
  exact hm k hk m (by simp)

/-! ## Searching -/

/-- The spans of mappings follow each other without overlap. -/
def Separated (ms : List Mapping) : Prop :=
  (∀ m ∈ ms, m.first ≤ m.last) ∧ ms.Pairwise fun a b => a.last < b.first

theorem Separated.ascending {ms : List Mapping} (h : Separated ms) :
    ms.Pairwise fun a b => a.first < b.first := by
  refine h.2.imp_of_mem ?_
  intro a b ha _ hab
  exact UInt32.lt_of_le_of_lt (h.1 a ha) hab

/-- A codepoint that is found nowhere in a list is passed through. -/
def foldList (ms : List Mapping) (c : Codepoint) : Except Fault Codepoint :=
  match ms.find? (·.contains c) with
  | some m => m.apply c
  | none => .ok c

theorem contains_iff {c : Codepoint} : m.contains c = true ↔ m.first ≤ c ∧ c ≤ m.last := by
  simp [Mapping.contains, Span.contains, Mapping.first, Mapping.last]

theorem find?_contains_of_lt_first {ms : List Mapping} {c : Codepoint}
    (h : ∀ k ∈ ms, c < k.first) : ms.find? (·.contains c) = none := by
  rw [List.find?_eq_none]
  intro k hk hcontains
  exact absurd (h k hk) (UInt32.not_lt.mpr (contains_iff.mp hcontains).1)

theorem find?_contains_of_last_lt {ms : List Mapping} {c : Codepoint}
    (h : ∀ k ∈ ms, k.last < c) : ms.find? (·.contains c) = none := by
  rw [List.find?_eq_none]
  intro k hk hcontains
  exact absurd (h k hk) (UInt32.not_lt.mpr (contains_iff.mp hcontains).2)

/-- In a tree with separated spans each subtree has separated spans, and they lie on either side of
the one at the root. -/
theorem separated_node {h : Nat} {l : Tree} {m : Mapping} {r : Tree}
    (ht : Separated (node h l m r).toList) :
    Separated l.toList ∧ Separated r.toList ∧ m.first ≤ m.last ∧
      (∀ k ∈ l.toList, k.last < m.first) ∧ ∀ k ∈ r.toList, m.last < k.first := by
  rcases ht with ⟨hle, hpair⟩
  simp only [toList, List.pairwise_append, List.pairwise_cons, List.mem_cons, List.mem_append]
    at hpair hle
  rcases hpair with ⟨hl, ⟨hmr, hr⟩, hlr⟩
  refine ⟨⟨?_, hl⟩, ⟨?_, hr⟩, hle m (.inr (.inl rfl)), ?_, hmr⟩
  · intro k hk
    exact hle k (.inl hk)
  · intro k hk
    exact hle k (.inr (.inr hk))
  · intro k hk
    exact hlr k hk m (.inl rfl)

/-- The search of a tree with separated spans finds the mapping that holds the codepoint. -/
theorem fold_eq_foldList (ht : Separated t.toList) (c : Codepoint) :
    t.fold c = foldList t.toList c := by
  induction t with
  | leaf => rfl
  | node h l m r ihl ihr =>
    rcases separated_node ht with ⟨hl, hr, hm, hlm, hmr⟩
    have ihl := ihl hl
    have ihr := ihr hr
    simp only [fold, foldList, toList, List.find?_append, List.find?_cons] at ihl ihr ⊢
    split
    next hc =>
      -- neither the root nor what lies to its right holds `c`
      have hroot : m.contains c = false := by
        rw [Bool.eq_false_iff, Ne, contains_iff]
        intro h
        exact absurd hc (UInt32.not_lt.mpr h.1)
      have hright : r.toList.find? (·.contains c) = none := by
        apply find?_contains_of_lt_first
        intro k hk
        exact UInt32.lt_trans (UInt32.lt_of_lt_of_le hc hm) (hmr k hk)
      simp only [hroot, hright, Option.or_none, ihl]
    next hc =>
      -- what lies to the left of the root ends below `c`
      have hleft : l.toList.find? (·.contains c) = none := by
        apply find?_contains_of_last_lt
        intro k hk
        exact UInt32.lt_of_lt_of_le (hlm k hk) (UInt32.not_lt.mp hc)
      split
      next hc' =>
        have hroot : m.contains c = false := by
          rw [Bool.eq_false_iff, Ne, contains_iff]
          intro h
          exact absurd hc' (UInt32.not_lt.mpr h.2)
        simp only [hleft, hroot, Option.none_or, ihr]
      next hc' =>
        have hroot : m.contains c = true :=
          contains_iff.mpr ⟨UInt32.not_lt.mp hc, UInt32.not_lt.mp hc'⟩
        simp only [hleft, hroot, Option.none_or]

end CaseFolding.Tree

import CaseFolding.Proofs.Tree.Height
import Mathlib.Data.Nat.Digits.Lemmas

namespace CaseFolding.Tree

/-! # Ascending insertions

Mappings that are inserted in ascending order all come in at the lower right.
There the tree grows like a binary counter: all subtrees to the left of its
rightmost path are full, and a full subtree moves under a higher node when its
counterpart on the right has become as high. So the tree is never higher than
the number of its mappings makes necessary.
-/

variable {t l r : Tree} {m k : Mapping} {h : Nat}

/-! ## Full trees -/

/-- A tree with as many mappings as its height allows. -/
def IsFull (t : Tree) : Prop :=
  t.size + 1 = 2 ^ t.depth

theorem isFull_leaf : IsFull leaf := rfl

/-- Two full trees of one height below a node make a full tree. -/
theorem isFull_node (hl : l.IsFull) (hr : r.IsFull) (hdepth : l.depth = r.depth) :
    (node h l m r).IsFull := by
  have hlsize : l.size + 1 = 2 ^ l.depth := hl
  have hrsize : r.size + 1 = 2 ^ r.depth := hr
  rw [IsFull, size, depth, hdepth, Nat.max_self, Nat.pow_succ]
  rw [hdepth] at hlsize
  omega

/-- No tree has more mappings than a full one of its height. -/
theorem size_lt_two_pow_depth (t : Tree) : t.size < 2 ^ t.depth := by
  induction t with
  | leaf => exact Nat.one_pos
  | node h l m r ihl ihr =>
    have hl : 2 ^ l.depth ≤ 2 ^ max l.depth r.depth :=
      Nat.pow_le_pow_right Nat.two_pos (Nat.le_max_left _ _)
    have hr : 2 ^ r.depth ≤ 2 ^ max l.depth r.depth :=
      Nat.pow_le_pow_right Nat.two_pos (Nat.le_max_right _ _)
    rw [size, depth, Nat.pow_succ]
    omega

/-! ## The rightmost path -/

/-- To the left of the rightmost path all subtrees are full, and each of them is as high as its
counterpart on the right or lower by one. -/
def IsCounter : Tree → Prop
  | leaf => True
  | node _ l _ r => l.IsFull ∧ l.depth ≤ r.depth ∧ r.depth ≤ l.depth + 1 ∧ r.IsCounter

/-- Such a tree has more mappings than any tree that is lower. -/
theorem IsCounter.two_pow_depth_le (ht : t.IsCounter) : 2 ^ t.depth ≤ 2 * t.size + 1 := by
  induction t with
  | leaf => exact Nat.le_refl 1
  | node h l m r _ ihr =>
    obtain ⟨hfull, hle, hge, hr⟩ := ht
    have hlsize : l.size + 1 = 2 ^ l.depth := hfull
    have hrsize := ihr hr
    rw [depth, size, Nat.max_eq_right hle, Nat.pow_succ]
    rcases Nat.le_iff_lt_or_eq.mp hge with hlt | heq
    · have heq : r.depth = l.depth := by omega
      rw [heq, ← hlsize]
      omega
    · have hpow : 2 ^ r.depth = 2 * 2 ^ l.depth := by rw [heq, Nat.pow_succ, Nat.mul_comm]
      omega

/-! ## Inserting above -/

theorem insert_node_of_above (hkm : k.first < m.first) :
    ((node h l k r).insert m).1 = balance l k (r.insert m).1 := by
  rw [insert, if_neg (UInt32.not_lt.mpr (UInt32.le_of_lt hkm)), if_pos hkm]

/-- A subtree on the right that has become too high hands its full left part over. -/
theorem isCounter_balance_of_high {a b : Tree} {x : Mapping} (hl : l.IsHeighted)
    (ha : a.IsHeighted) (hb : b.IsHeighted) (hfull : l.IsFull) (hcounter : (node h a x b).IsCounter)
    (heq : h = max a.height b.height + 1) (hdepth : a.depth = l.depth)
    (hhigh : b.depth = l.depth + 1) :
    (balance l k (node h a x b)).IsCounter ∧ (balance l k (node h a x b)).depth = l.depth + 2 := by
  obtain ⟨hafull, -, -, hbcounter⟩ := hcounter
  have hla := height_eq_depth hl
  have haa := height_eq_depth ha
  have hbb := height_eq_depth hb
  have hbalance : balance l k (node h a x b) = branch (branch l k a) x b := by
    have hlean : leanRight (node h a x b) = node h a x b := by
      rw [leanRight, left, right, if_neg (by omega)]
    rw [balance, height, if_neg (by omega), if_pos (by omega), hlean]
    rfl
  rw [hbalance]
  have hlower : (branch l k a).depth = l.depth + 1 := by
    rw [branch, depth, hdepth, Nat.max_self]
  refine ⟨⟨isFull_node hfull hafull hdepth.symm, ?_, ?_, hbcounter⟩, ?_⟩
  · omega
  · omega
  · rw [branch, depth, hlower, hhigh, Nat.max_self]

/-- A mapping above all others keeps the subtrees to the left of the rightmost path full. Where the
tree becomes higher, what it held before is lower by one than all of it now. -/
theorem isCounter_insert (hheight : t.IsHeighted) (ht : t.IsCounter)
    (habove : ∀ k ∈ t.toList, k.first < m.first) :
    (t.insert m).1.IsCounter ∧
      ((t.insert m).1.depth = t.depth ∨
        (t.insert m).1.depth = t.depth + 1 ∧ (t.insert m).1.left.depth = t.depth - 1) := by
  induction t with
  | leaf => exact ⟨⟨isFull_leaf, Nat.le_refl _, Nat.zero_le _, trivial⟩, .inr ⟨rfl, rfl⟩⟩
  | node h l k r _ ihr =>
    obtain ⟨-, hlheight, hrheight⟩ := hheight
    obtain ⟨hfull, hle, hge, hr⟩ := ht
    have habove' : ∀ k ∈ r.toList, k.first < m.first :=
      fun k hk => habove k (by simp [toList, hk])
    obtain ⟨hcounter, hdepth⟩ := ihr hrheight hr habove'
    have hheight' := isHeighted_insert hrheight m
    have hlh := height_eq_depth hlheight
    have hrh := height_eq_depth hheight'
    rw [insert_node_of_above (habove k (by simp [toList])), depth, Nat.max_eq_right hle]
    by_cases hhigh : (r.insert m).1.depth ≤ l.depth + 1
    · -- the heights still fit
      have hbalance : balance l k (r.insert m).1 = branch l k (r.insert m).1 := by
        rw [balance, if_neg (by omega), if_neg (by omega)]
      rw [hbalance]
      refine ⟨⟨hfull, by omega, hhigh, hcounter⟩, ?_⟩
      rw [branch, depth, left]
      omega
    · -- the right subtree has grown, and so its left part is as high as the left subtree
      generalize (r.insert m).1 = r' at *
      cases r' with
      | leaf => exact absurd (Nat.zero_le _) hhigh
      | node h' a x b =>
        obtain ⟨heq, haheight, hbheight⟩ := hheight'
        obtain ⟨-, hab, hba, -⟩ := id hcounter
        rw [left, depth, Nat.max_eq_right hab] at hdepth
        rw [depth, Nat.max_eq_right hab] at hhigh
        obtain ⟨hcounter', hdepth'⟩ := isCounter_balance_of_high (k := k) hlheight haheight hbheight
          hfull hcounter heq (by omega) (by omega)
        exact ⟨hcounter', .inl (by omega)⟩

/-- Ascending insertions make a tree of this kind. -/
theorem isCounter_ofList {ms : List Mapping} (h : ms.Pairwise fun a b => a.first < b.first) :
    (ofList ms).IsCounter := by
  induction ms using List.reverseRecOn with
  | nil => trivial
  | append_singleton ms m ih =>
    obtain ⟨hms, -, hm⟩ := List.pairwise_append.mp h
    rw [ofList_concat]
    refine (isCounter_insert (isHeighted_ofList ms) (ih hms) ?_).1
    intro k hk
    exact hm k (mem_of_mem_ofList hk) m (by simp)

/-! ## The lowest trees -/

/-- The height of the tree is the number of binary digits of the number of its mappings, and no tree
with that many mappings is lower. -/
structure IsLowest (t : Tree) : Prop where
  height_eq_depth : t.height = t.depth
  height_eq_length : t.height = (Nat.digits 2 t.size).length
  height_eq_zero : t.size = 0 → t.height = 0
  bounds : 0 < t.size → 2 ^ (t.height - 1) ≤ t.size ∧ t.size < 2 ^ t.height
  le_depth : ∀ u : Tree, u.size = t.size → t.height ≤ u.depth

/-- A number has as many binary digits as the powers of two say between which it lies. -/
theorem length_digits_eq {n d : Nat} (hlow : 2 ^ d ≤ 2 * n + 1) (hup : n < 2 ^ d) :
    (Nat.digits 2 n).length = d := by
  apply Nat.le_antisymm
  · exact (Nat.digits_length_le_iff (by decide) n).mpr hup
  · cases d with
    | zero => exact Nat.zero_le _
    | succ d =>
      rw [Nat.pow_succ] at hlow
      exact (Nat.lt_digits_length_iff (by decide) n).mpr (by omega)

/-- A tree that has grown by ascending insertions is as low as can be. -/
theorem isLowest_of_isCounter (hheight : t.IsHeighted) (ht : t.IsCounter) : t.IsLowest := by
  have hdepth := Tree.height_eq_depth hheight
  have hlow := ht.two_pow_depth_le
  have hup := size_lt_two_pow_depth t
  refine ⟨hdepth, ?_, ?_, ?_, ?_⟩
  · rw [hdepth, length_digits_eq hlow hup]
  · intro hzero
    cases t with
    | leaf => rfl
    | node h l m r => exact absurd hzero (Nat.succ_ne_zero _)
  · intro hpos
    rw [hdepth]
    refine ⟨?_, hup⟩
    cases hd : t.depth with
    | zero => exact hpos
    | succ d =>
      rw [hd, Nat.pow_succ] at hlow
      rw [Nat.add_sub_cancel]
      omega
  · intro u hu
    rw [hdepth, ← length_digits_eq hlow hup, ← hu]
    exact (Nat.digits_length_le_iff (by decide) _).mpr (size_lt_two_pow_depth u)

end CaseFolding.Tree

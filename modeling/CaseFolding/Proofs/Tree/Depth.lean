import CaseFolding.Proofs.Tree.Store
import Mathlib.Analysis.SpecialFunctions.Log.Base
import Mathlib.Data.List.Perm.Subperm
import Mathlib.Data.Nat.Fib.Basic

namespace CaseFolding

/-! # How high a tree becomes

The height at the root of a store is the length of the longest way down its links.
In whatever order mappings come, insertion keeps the tree in balance, and a balanced
tree of a certain height has no fewer mappings than a Fibonacci number says. As there
are only so many codepoints by which mappings can differ, the height stays below 1.44
times the binary logarithm of their number.
-/

/-! ## Ways down -/

namespace Store

/-- A way down the links, by the indices of the nodes on it, ends at a node without children. Where
a link leads nowhere there is no node on the way. -/
inductive IsPath (nodes : Array Node) : (link : Option Nat) → List Nat → Prop where
  | nowhere : IsPath nodes none []
  | stop {i : Nat} {n : Node} (hn : nodes[i]? = some n) (hleft : n.left = none)
      (hright : n.right = none) : IsPath nodes (some i) [i]
  | step {i j : Nat} {n : Node} {is : List Nat} (side : Side) (hn : nodes[i]? = some n)
      (hchild : n.child side = some j) (hrest : IsPath nodes (some j) is) :
      IsPath nodes (some i) (i :: is)

variable {nodes : Array Node} {link : Option Nat} {t near far : Tree} {ids ns fs is : List Nat}
  {i : Nat} {n : Node}

/-- No way down has more nodes than the tree is deep. -/
theorem IsPath.length_le_depth (hpath : IsPath nodes link is) (hspells : Spells nodes link t ids) :
    is.length ≤ t.depth := by
  induction hpath generalizing t ids with
  | nowhere => exact Nat.zero_le _
  | stop =>
    rcases Tree.exists_nodeOn .left hspells.ne_leaf with ⟨h, near, m, far, rfl⟩
    rw [Tree.depth_nodeOn]
    exact Nat.succ_le_succ (Nat.zero_le _)
  | step side hn hchild hrest ih =>
    rcases Tree.exists_nodeOn side hspells.ne_leaf with ⟨h, near, m, far, rfl⟩
    obtain ⟨_, _, ns, fs, hi, hn', -, -, -, hnear, -⟩ := hspells.exists_node
    rcases Option.some.inj hi with rfl
    rcases Option.some.inj (hn.symm.trans hn') with rfl
    rw [hchild] at hnear
    have hle := ih hnear
    rw [Tree.depth_nodeOn, List.length_cons]
    omega

theorem Spells.eq_none_of_depth (hspells : Spells nodes link t ids) (hdepth : t.depth = 0) :
    link = none := by
  cases hspells with
  | leaf => rfl
  | node => exact absurd hdepth (Nat.succ_ne_zero _)

/-- A way down from the child on the deeper side is a way down from its parent. -/
theorem exists_path_of_child (side : Side) (hn : nodes[i]? = some n)
    (hnear : Spells nodes (n.child side) near ns)
    (hfar : Spells nodes (n.child side.other) far fs) (hdeeper : far.depth ≤ near.depth)
    (hpath : ∃ is, IsPath nodes (n.child side) is ∧ is.length = near.depth) :
    ∃ is, IsPath nodes (some i) is ∧ is.length = near.depth + 1 := by
  rcases hpath with ⟨is, his, hlength⟩
  cases hchild : n.child side with
  | none =>
    -- then there is no child on the other side either
    rw [hchild] at hnear
    rcases hnear.eq_leaf with ⟨rfl, -⟩
    have hother : n.child side.other = none :=
      hfar.eq_none_of_depth (Nat.eq_zero_of_le_zero hdeeper)
    refine ⟨[i], ?_, rfl⟩
    cases side with
    | left => exact .stop hn hchild hother
    | right => exact .stop hn hother hchild
  | some j =>
    rw [hchild] at his
    exact ⟨i :: is, .step side hn hchild his, by rw [List.length_cons, hlength]⟩

/-- Some way down has as many nodes as the tree is deep. -/
theorem Spells.exists_path (hspells : Spells nodes link t ids) :
    ∃ is, IsPath nodes link is ∧ is.length = t.depth := by
  induction hspells with
  | leaf => exact ⟨[], .nowhere, rfl⟩
  | @node i n l r ls rs hn hl hr ihl ihr =>
    rw [Tree.depth]
    rcases Nat.le_total r.depth l.depth with hle | hle
    · rw [Nat.max_eq_left hle]
      exact exists_path_of_child .left hn hl hr hle ihl
    · rw [Nat.max_eq_right hle]
      exact exists_path_of_child .right hn hr hl hle ihr

end Store

/-! ## Depth and size -/

namespace Tree

variable {t : Tree}

theorem fib_succ_max_le {d e a b : Nat} (hde : d ≤ e + 1) (hed : e ≤ d + 1)
    (ha : Nat.fib (d + 2) ≤ a) (hb : Nat.fib (e + 2) ≤ b) :
    Nat.fib (max d e + 1 + 2) ≤ a + b := by
  wlog hle : d ≤ e generalizing d e a b
  · rw [Nat.max_comm, Nat.add_comm a]
    exact this hed hde hb ha (Nat.le_of_not_le hle)
  · have hlow : Nat.fib (e + 1) ≤ Nat.fib (d + 2) := Nat.fib_mono (by omega)
    calc
      Nat.fib (max d e + 1 + 2) = Nat.fib (e + 1) + Nat.fib (e + 2) := by
        rw [Nat.max_eq_right hle]
        exact Nat.fib_add_two
      _ ≤ a + b := Nat.add_le_add (hlow.trans ha) hb

/-- A balanced tree has many mappings for its depth. -/
theorem IsBalanced.fib_le (h : t.IsBalanced) : Nat.fib (t.depth + 2) ≤ t.size + 1 := by
  induction t with
  | leaf => exact Nat.le_refl 1
  | node n l m r ihl ihr =>
    obtain ⟨hlr, hrl, hl, hr⟩ := h
    calc
      Nat.fib ((node n l m r).depth + 2) ≤ (l.size + 1) + (r.size + 1) :=
        fib_succ_max_le hlr hrl (ihl hl) (ihr hr)
      _ = (node n l m r).size + 1 := by
        rw [size]
        omega

theorem Ordered.size_le (h : t.Ordered) : t.size ≤ UInt32.size := by
  have hnodup : (t.toList.map (·.first.toNat)).Nodup := by
    refine List.pairwise_map.mpr (h.imp ?_)
    intro a b hlt
    exact Nat.ne_of_lt (UInt32.lt_iff_toNat_lt.mp hlt)
  have hsub : t.toList.map (·.first.toNat) ⊆ List.range UInt32.size := by
    intro k hk
    rcases List.mem_map.mp hk with ⟨m, -, rfl⟩
    exact List.mem_range.mpr m.first.toNat_lt
  have hlength := (List.subperm_of_subset hnodup hsub).length_le
  rwa [List.length_map, length_toList, List.length_range] at hlength

theorem depth_lt_of_fib_le {d n : Nat} (hn : n ≤ UInt32.size) (hfib : Nat.fib (d + 2) ≤ n + 1) :
    d < 46 := by
  by_contra hge
  have hmono : Nat.fib 48 ≤ Nat.fib (d + 2) := Nat.fib_mono (by omega)
  have hlarge : UInt32.size + 1 < Nat.fib 48 := by decide
  omega

/-- Fibonacci numbers grow fast enough for all depths to which there are codepoints. -/
theorem two_pow_le_of_fib_le {d n : Nat} (hn : n ≤ UInt32.size)
    (hfib : Nat.fib (d + 2) ≤ n + 1) : 2 ^ (25 * d) ≤ (n + 2) ^ 36 := by
  have hd : d < 46 := depth_lt_of_fib_le hn hfib
  have hsmall : ∀ d < 46, 2 ^ (25 * d) ≤ (Nat.fib (d + 2) + 1) ^ 36 := by decide +kernel
  calc
    2 ^ (25 * d) ≤ (Nat.fib (d + 2) + 1) ^ 36 := hsmall d hd
    _ ≤ (n + 2) ^ 36 := Nat.pow_le_pow_left (Nat.succ_le_succ hfib) 36

theorem le_logb_of_two_pow_le {d n : Nat} (h : 2 ^ (25 * d) ≤ (n + 2) ^ 36) :
    (d : ℝ) ≤ 1.44 * Real.logb 2 (n + 2) := by
  have hreal : (2 : ℝ) ^ (25 * d) ≤ ((n : ℝ) + 2) ^ 36 := by exact_mod_cast h
  have hlog := Real.logb_le_logb_of_le (by norm_num : (1 : ℝ) < 2) (by positivity) hreal
  rw [Real.logb_pow, Real.logb_pow, Real.logb_self_eq_one (by norm_num)] at hlog
  push_cast at hlog
  linarith

end Tree

/-! ## Stores -/

namespace Store

/-- In whatever order mappings come, the height at the root is the length of the longest way down,
and it grows with the logarithm of the number of mappings that were taken. -/
theorem height_is_logarithmic (ms : List Mapping) :
    ∃ s h, ofList ms = some s ∧ s.height? = some h ∧
      (∃ is, IsPath s.nodes s.root is ∧ is.length = h) ∧
      (∀ is, IsPath s.nodes s.root is → is.length ≤ h) ∧
      Nat.fib (h + 2) ≤ s.size + 1 ∧ (h : ℝ) ≤ 1.44 * Real.logb 2 (s.size + 2) := by
  obtain ⟨s, hs, hholds⟩ := exists_ofList ms
  obtain ⟨ids, hspells, -⟩ := id hholds
  have hdepth := Tree.height_eq_depth (Tree.isHeighted_ofList ms)
  have hfib : Nat.fib ((Tree.ofList ms).height + 2) ≤ s.size + 1 := by
    rw [hdepth, hholds.size_eq]
    exact (Tree.isBalanced_ofList ms).fib_le
  have hsize : s.size ≤ UInt32.size := by
    rw [hholds.size_eq]
    exact (Tree.ordered_ofList ms).size_le
  refine ⟨s, _, hs, hholds.height?_eq, ?_, ?_, hfib, ?_⟩
  · rw [hdepth]
    exact hspells.exists_path
  · intro is his
    rw [hdepth]
    exact his.length_le_depth hspells
  · exact Tree.le_logb_of_two_pow_le (Tree.two_pow_le_of_fib_le hsize hfib)

end Store

end CaseFolding

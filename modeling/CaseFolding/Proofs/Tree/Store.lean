import CaseFolding.Proofs.Tree.Balance
import CaseFolding.Proofs.Tree.Links
import Mathlib.Data.List.Induction

namespace CaseFolding.Store

/-! # What a store holds

Whatever is done to the nodes of a store does to the tree that their links
spell out what is done to a tree of its own. So a store and a tree that have
taken the same mappings hold the same, and a mapping that is not taken leaves
every node of the store as it was.
-/

/-! ## Balance -/

section Balance

variable {nodes : Array Node} {t near far : Tree} {ids : List Nat} {side : Side} {h i : Nat}
  {m : Mapping}

/-- The child on a side is lifted to the root. -/
theorem ends_rotate (side : Side) (hspells : Spells nodes (some i) t ids) (hnodup : ids.Nodup) :
    Ends (rotate side i) nodes fun j nodes' =>
      Spells nodes' (some j) (Tree.rotateOn side t) ids ∧ Rewired ids [] nodes nodes' := by
  rcases Tree.exists_nodeOn side hspells.ne_leaf with ⟨h, near, y, c, rfl⟩
  obtain ⟨_, n, ns, cs, hi, hn, rfl, rfl, rfl, hnear, hc⟩ := hspells.exists_node
  rcases Option.some.inj hi with rfl
  refine (reads_nodeAt hn).ends_bind ?_
  cases hlink : n.child side with
  | none =>
    rw [hlink] at hnear
    rcases hnear.eq_leaf with ⟨rfl, rfl⟩
    rw [Tree.rotateOn_nodeOn_leaf]
    exact ends_pure ⟨hspells, .refl⟩
  | some p =>
    rw [hlink] at hnear
    rcases Tree.exists_nodeOn side hnear.ne_leaf with ⟨k, a, x, b, rfl⟩
    obtain ⟨_, pivot, as, bs, hp, hpivot, rfl, rfl, rfl, ha, hb⟩ := hnear.exists_node
    rcases Option.some.inj hp with rfl
    -- no index occurs twice
    obtain ⟨⟨hins, hics⟩, hns, -, hnscs⟩ := Side.nodup_order.mp hnodup
    obtain ⟨⟨hpas, hpbs⟩, -, -, -⟩ := Side.nodup_order.mp hns
    simp only [Side.mem_order, not_or, forall_eq_or_imp] at hins hnscs
    obtain ⟨hip, hias, hibs⟩ := hins
    obtain ⟨hpcs, -⟩ := hnscs
    refine (reads_nodeAt hpivot).ends_bind ?_
    -- the links change
    refine (ends_change hn (Node.mapping_withChild ..)).bind ?_
    rintro - nodes₁ ⟨hn₁, hrewired₁⟩
    have hpivot₁ := hrewired₁.outside p pivot (by simp [Ne.symm hip]) hpivot
    refine (ends_change hpivot₁ (Node.mapping_withChild ..)).bind ?_
    rintro - nodes₂ ⟨hpivot₂, hrewired₂⟩
    have hn₂ := hrewired₂.outside i _ (by simp [hip]) hn₁
    have ha₂ := (ha.of_changed hrewired₁ hias).of_changed hrewired₂ hpas
    have hb₂ := (hb.of_changed hrewired₁ hibs).of_changed hrewired₂ hpbs
    have hc₂ := (hc.of_changed hrewired₁ hics).of_changed hrewired₂ hpcs
    -- the lower node works out its height, and then the upper one
    refine (ends_updateHeight side hn₂ (by simpa using hb₂) (by simpa using hc₂)
      hibs hics).bind ?_
    rintro - nodes₃ ⟨hlower, hrewired₃⟩
    have hpivot₃ := hrewired₃.outside p _ (by simp [Ne.symm hip]) hpivot₂
    have ha₃ := ha₂.of_changed hrewired₃ hias
    refine (ends_updateHeight side hpivot₃ (by simpa using ha₃) (by simpa using hlower)
      hpas ?_).bind ?_
    · simp only [Side.mem_order, not_or]
      exact ⟨Ne.symm hip, hpbs, hpcs⟩
    rintro - nodes₄ ⟨hupper, hrewired₄⟩
    refine ends_pure ⟨?_, ?_⟩
    · rw [Tree.rotateOn_nodeOn, Side.order_order]
      simpa using hupper
    · have hi : ∀ j ∈ [i], j ∈ side.order (side.order as p bs) i cs := by
        simp [Side.mem_order]
      have hp : ∀ j ∈ [p], j ∈ side.order (side.order as p bs) i cs := by
        simp [Side.mem_order]
      exact (((hrewired₁.mono hi).trans hrewired₂ fun j hj _ => hp j hj).trans hrewired₃
        fun j hj _ => hi j hj).trans hrewired₄ fun j hj _ => hp j hj

/-- The subtree on a side is made ready to be lifted. -/
theorem ends_straighten (hspells : Spells nodes (some i) (.nodeOn side h near m far) ids)
    (hnodup : ids.Nodup) :
    Ends (straighten side i) nodes fun _ nodes' =>
      Spells nodes' (some i) (.nodeOn side h (Tree.leanOn side near) m far) ids ∧
        Rewired ids [] nodes nodes' := by
  obtain ⟨_, n, ns, fs, hi, hn, rfl, rfl, rfl, hnear, hfar⟩ := hspells.exists_node
  rcases Option.some.inj hi with rfl
  refine (reads_nodeAt hn).ends_bind ?_
  cases hlink : n.child side with
  | none =>
    rw [hlink] at hnear
    rcases hnear.eq_leaf with ⟨rfl, rfl⟩
    have hleaf : Tree.leanOn side .leaf = .leaf := by cases side <;> rfl
    rw [hleaf]
    exact ends_pure ⟨hspells, .refl⟩
  | some j =>
    rw [hlink] at hnear
    rcases Tree.exists_nodeOn side hnear.ne_leaf with ⟨k, a, x, b, rfl⟩
    obtain ⟨_, child, as, bs, hj, hchild, rfl, rfl, rfl, ha, hb⟩ := hnear.exists_node
    rcases Option.some.inj hj with rfl
    refine (reads_excess side hchild ha hb).ends_bind ?_
    rw [Tree.leanOn_nodeOn]
    by_cases hinner : a.height < b.height
    · rw [if_pos hinner, if_pos (by omega)]
      obtain ⟨⟨hins, hifs⟩, hns, -, hnsfs⟩ := Side.nodup_order.mp hnodup
      refine (ends_rotate side.other hnear hns).bind ?_
      rintro k nodes₁ ⟨hrotated, hrewired₁⟩
      have hn₁ := hrewired₁.outside i n hins hn
      have hfar₁ : Spells nodes₁ (n.child side.other) far fs :=
        hfar.of_rewired hrewired₁ fun j hjfs hjns => hnsfs j hjns hjfs
      refine (ends_change hn₁ (Node.mapping_withChild ..)).imp ?_
      rintro - nodes₂ ⟨hn₂, hrewired₂⟩
      refine ⟨?_, (hrewired₁.mono fun j hj => ?_).trans hrewired₂ fun j hj _ => ?_⟩
      · have hrotated₂ := hrotated.of_changed hrewired₂ hins
        have hfar₂ := hfar₁.of_changed hrewired₂ hifs
        simpa using Spells.nodeOn side hn₂ (by simpa using hrotated₂) (by simpa using hfar₂)
      · exact Side.mem_order.mpr (.inr (.inl hj))
      · exact Side.mem_order.mpr (.inl (List.mem_singleton.mp hj))
    · rw [if_neg hinner, if_neg (by omega)]
      exact ends_pure ⟨hspells, .refl⟩

/-- A subtree that is too high is made ready and lifted. -/
theorem ends_lift (hspells : Spells nodes (some i) (.nodeOn side h near m far) ids)
    (hnodup : ids.Nodup) (hhigh : far.height + 1 < near.height) :
    Ends (do straighten side i; rotate side i) nodes fun j nodes' =>
      Spells nodes' (some j) (.balanceOn side near m far) ids ∧ Rewired ids [] nodes nodes' := by
  have hne : near ≠ .leaf := by
    rintro rfl
    exact Nat.not_lt_zero _ hhigh
  refine (ends_straighten hspells hnodup).bind ?_
  rintro - nodes₁ ⟨hspells₁, hrewired₁⟩
  refine (ends_rotate side hspells₁ hnodup).imp ?_
  rintro j nodes₂ ⟨hspells₂, hrewired₂⟩
  refine ⟨?_, hrewired₁.trans hrewired₂ fun _ hj _ => hj⟩
  rw [Tree.balanceOn_of_high hhigh, Tree.rotateOn_branchOn (Tree.leanOn_ne_leaf hne)]
  exact hspells₂

/-- A node is put back into balance. -/
theorem ends_rebalance (hspells : Spells nodes (some i) (.nodeOn side h near m far) ids)
    (hnodup : ids.Nodup) :
    Ends (rebalance i) nodes fun j nodes' =>
      Spells nodes' (some j) (.balanceOn side near m far) ids ∧ Rewired ids [] nodes nodes' := by
  -- the excess is always that of the left side
  suffices hleft : ∀ {l r : Tree}, Spells nodes (some i) (.nodeOn .left h l m r) ids →
      Ends (rebalance i) nodes fun j nodes' =>
        Spells nodes' (some j) (.balanceOn .left l m r) ids ∧ Rewired ids [] nodes nodes' by
    cases side with
    | left => exact hleft hspells
    | right => exact hleft hspells
  intro l r hspells
  obtain ⟨_, n, ls, rs, hi, hn, rfl, rfl, rfl, hl, hr⟩ := hspells.exists_node
  rcases Option.some.inj hi with rfl
  obtain ⟨⟨hils, hirs⟩, -⟩ := Side.nodup_order.mp hnodup
  refine (ends_updateHeight .left hn hl hr hils hirs).bind ?_
  rintro - nodes₁ ⟨hspells₁, hrewired₁⟩
  have hrewired₁ : Rewired (Side.left.order ls i rs) [] nodes nodes₁ :=
    hrewired₁.mono (by simp [Side.mem_order])
  rw [Tree.branchOn_eq_nodeOn] at hspells₁
  obtain ⟨_, n₁, ls₁, rs₁, hi, hn₁, hheight₁, hmapping₁, hids₁, hl₁, hr₁⟩ := hspells₁.exists_node
  rcases Option.some.inj hi with rfl
  refine (reads_excess .left hn₁ hl₁ hr₁).ends_bind ?_
  by_cases hlhigh : r.height + 1 < l.height
  · rw [if_pos (by omega)]
    refine (ends_lift hspells₁ hnodup hlhigh).imp ?_
    rintro j nodes₂ ⟨hspells₂, hrewired₂⟩
    exact ⟨hspells₂, hrewired₁.trans hrewired₂ fun _ hj _ => hj⟩
  · rw [if_neg (by omega)]
    by_cases hrhigh : l.height + 1 < r.height
    · rw [if_pos (by omega)]
      rw [← Tree.nodeOn_other] at hspells₁
      rw [← Tree.balanceOn_other]
      refine (ends_lift hspells₁ hnodup hrhigh).imp ?_
      rintro j nodes₂ ⟨hspells₂, hrewired₂⟩
      exact ⟨hspells₂, hrewired₁.trans hrewired₂ fun _ hj _ => hj⟩
    · rw [if_neg (by omega)]
      rw [Tree.balanceOn_of_even (by omega) (by omega), Tree.branchOn_eq_nodeOn]
      exact ends_pure ⟨hspells₁, hrewired₁⟩

end Balance

/-! ## Inserting -/

section Inserting

variable {nodes : Array Node} {link : Option Nat} {t : Tree} {ids : List Nat} {m : Mapping}
  {steps : Nat}

/-- A new mapping gets a node of its own. -/
theorem ends_add (nodes : Array Node) (m : Mapping) :
    Ends (add m) nodes fun j nodes' =>
      j = nodes.size ∧ Spells nodes' (some j) (.branch .leaf m .leaf) [j] ∧
        Rewired [] [m] nodes nodes' := by
  refine ⟨nodes.size, nodes.push { mapping := m }, rfl, rfl, ?_, ?_, ?_⟩
  · have hnew : (nodes.push { mapping := m })[nodes.size]? = some { mapping := m } := by simp
    exact .node hnew .leaf .leaf
  · simp
  · intro j n _ hn
    have hlt : j < nodes.size := (Array.getElem?_eq_some_iff.mp hn).choose
    rw [Array.getElem?_push_lt hlt, ← Array.getElem?_eq_getElem hlt, hn]

/-- The index that a mapping gets if it is taken. -/
def newIds (nodes : Array Node) (inserted : Bool) : List Nat :=
  if inserted then [nodes.size] else []

theorem eq_size_of_mem_newIds {inserted : Bool} {j : Nat} (hj : j ∈ newIds nodes inserted) :
    j = nodes.size := by
  cases inserted with
  | true => exact List.mem_singleton.mp hj
  | false => exact absurd hj List.not_mem_nil

/-- A new index is none of those that are in use. -/
theorem nodup_newIds_append (hspells : Spells nodes link t ids) (hnodup : ids.Nodup)
    (inserted : Bool) : (newIds nodes inserted ++ ids).Nodup := by
  cases inserted with
  | true =>
    refine List.nodup_cons.mpr ⟨?_, hnodup⟩
    intro hmem
    exact Nat.lt_irrefl _ (hspells.lt_size hmem)
  | false => exact hnodup

theorem perm_order_append (side : Side) {ns ns' new : List Nat} (i : Nat) (fs : List Nat)
    (h : ns'.Perm (new ++ ns)) : (side.order ns' i fs).Perm (new ++ side.order ns i fs) :=
  calc
    (side.order ns' i fs).Perm (i :: (ns' ++ fs)) := Side.perm_order
    (i :: (ns' ++ fs)).Perm (i :: (new ++ (ns ++ fs))) := by
      rw [← List.append_assoc]
      exact (h.append_right fs).cons i
    (i :: (new ++ (ns ++ fs))).Perm (new ++ i :: (ns ++ fs)) := List.perm_middle.symm
    (new ++ i :: (ns ++ fs)).Perm (new ++ side.order ns i fs) :=
      Side.perm_order.symm.append_left new

/-- An insertion does to the tree in the store what it does to a tree of its own. A mapping that is
taken gets the next index, and a node for it is added. -/
theorem ends_insertAt (hspells : Spells nodes link t ids) (hnodup : ids.Nodup)
    (hsteps : t.depth ≤ steps) (m : Mapping) :
    Ends (insertAt m steps link) nodes fun (j, inserted) nodes' =>
      inserted = (t.insert m).2 ∧
        (∃ ids', Spells nodes' (some j) (t.insert m).1 ids' ∧
          ids'.Perm (newIds nodes inserted ++ ids)) ∧
        Rewired ids (if inserted then [m] else []) nodes nodes' := by
  induction t using Tree.induction_by_side generalizing link ids steps with
  | hleaf =>
    cases hspells
    rw [insertAt]
    refine (ends_add nodes m).bind ?_
    rintro _ nodes' ⟨rfl, hspells', hrewired⟩
    exact ends_pure ⟨rfl, ⟨_, hspells', .refl _⟩, hrewired⟩
  | hnode h l k r ih =>
    have hroot : Spells nodes link (.nodeOn .left h l k r) ids := hspells
    obtain ⟨i, n, -, -, rfl, hn, -, rfl, -⟩ := hroot.exists_node
    obtain ⟨steps, rfl⟩ := Nat.exists_eq_add_one.mpr (Nat.lt_of_lt_of_le (Nat.succ_pos _) hsteps)
    rw [insertAt]
    refine (reads_nodeAt hn).ends_bind ?_
    cases hside : Side.toward? m.first n.mapping.first with
    | none =>
      rw [Tree.insert_node_of_toward?_eq_none hside]
      exact ends_pure ⟨rfl, ⟨ids, hspells, .refl _⟩, .refl⟩
    | some side =>
      rcases ih side with ⟨near, far, heq, ih⟩
      rw [heq] at hspells hsteps ⊢
      rw [Tree.depth_nodeOn] at hsteps
      have hnearSteps : near.depth ≤ steps := by omega
      obtain ⟨_, _, ns, fs, hi, hn', hheight, -, rfl, hnear, hfar⟩ := hspells.exists_node
      rcases Option.some.inj hi with rfl
      rcases Option.some.inj (hn.symm.trans hn') with rfl
      obtain ⟨⟨hins, hifs⟩, hns, hfs, hnsfs⟩ := Side.nodup_order.mp hnodup
      rw [Tree.insert_nodeOn hside]
      refine (ih hnear hns hnearSteps).bind ?_
      rintro ⟨j, inserted⟩ nodes₁ ⟨hflag, ⟨ns', hnear₁, hperm⟩, hrewired₁⟩
      have hn₁ := hrewired₁.outside i n hins hn
      have hfar₁ : Spells nodes₁ (n.child side.other) far fs :=
        hfar.of_rewired hrewired₁ fun j hjfs hjns => hnsfs j hjns hjfs
      have hperm := perm_order_append side i fs hperm
      have hnodup' := hperm.nodup_iff.mpr (nodup_newIds_append hspells hnodup inserted)
      obtain ⟨⟨hins', -⟩, -⟩ := Side.nodup_order.mp hnodup'
      -- the node is linked to what its subtree has become
      refine (ends_change hn₁ (Node.mapping_withChild ..)).bind ?_
      rintro - nodes₂ ⟨hn₂, hrewired₂⟩
      have hnear₂ := hnear₁.of_changed hrewired₂ hins'
      have hfar₂ := hfar₁.of_changed hrewired₂ hifs
      have hspells₂ := Spells.nodeOn side hn₂ (by simpa using hnear₂)
        (by simpa using hfar₂)
      rw [Node.mapping_withChild] at hspells₂
      refine (ends_rebalance hspells₂ hnodup').bind ?_
      rintro j' nodes₃ ⟨hspells₃, hrewired₃⟩
      refine ends_pure ⟨hflag, ⟨_, hspells₃, hperm⟩, ?_⟩
      have hns_ids : ∀ j ∈ ns, j ∈ side.order ns i fs :=
        fun j hj => Side.mem_order.mpr (.inr (.inl hj))
      have hrewired := ((hrewired₁.mono hns_ids).trans hrewired₂
        fun j hj _ => Side.mem_order.mpr (.inl (List.mem_singleton.mp hj))).trans hrewired₃ ?_
      · simpa using hrewired
      · intro j hj hlt
        rcases List.mem_append.mp (hperm.mem_iff.mp hj) with hj | hj
        · exact absurd (eq_size_of_mem_newIds hj) (Nat.ne_of_lt hlt)
        · exact hj

/-! Where a mapping is not taken, nothing changes at all. -/

/-- A height that is right already is worked out to be what it is. -/
theorem reads_updateHeight {i : Nat} (hspells : Spells nodes (some i) t ids)
    (hheight : t.IsHeighted) : Reads (updateHeight i) nodes () := by
  cases hspells with
  | @node _ n l r ls rs hn hl hr =>
    refine (reads_nodeAt hn).bind ((reads_heightAt hl).bind ((reads_heightAt hr).bind ?_))
    apply reads_change hn
    rw [← hheight.1]

/-- A node that is in balance stays where it is. -/
theorem reads_rebalance {i : Nat} (hspells : Spells nodes (some i) t ids)
    (hheight : t.IsHeighted) (hbalance : t.IsBalanced) : Reads (rebalance i) nodes i := by
  refine (reads_updateHeight hspells hheight).bind ?_
  cases hspells with
  | @node _ n l r ls rs hn hl hr =>
    obtain ⟨-, hlheight, hrheight⟩ := hheight
    obtain ⟨hlr, hrl, -⟩ := hbalance
    rw [← Tree.height_eq_depth hlheight, ← Tree.height_eq_depth hrheight] at hlr hrl
    refine (reads_excess .left hn hl hr).bind ?_
    rw [if_neg (by omega), if_neg (by omega)]
    exact reads_pure

/-- A mapping that is not taken leaves every node as it was, although each node on the path is
linked and balanced anew. -/
theorem reads_insertAt (hspells : Spells nodes link t ids) (hsteps : t.depth ≤ steps)
    (hheight : t.IsHeighted) (hbalance : t.IsBalanced) (htaken : (t.insert m).2 = false) :
    ∃ i, link = some i ∧ Reads (insertAt m steps link) nodes (i, false) := by
  induction t using Tree.induction_by_side generalizing link ids steps with
  | hleaf => exact absurd htaken nofun
  | hnode h l k r ih =>
    have hroot : Spells nodes link (.nodeOn .left h l k r) ids := hspells
    obtain ⟨i, n, -, -, rfl, hn, -, rfl, -⟩ := hroot.exists_node
    obtain ⟨steps, rfl⟩ := Nat.exists_eq_add_one.mpr (Nat.lt_of_lt_of_le (Nat.succ_pos _) hsteps)
    refine ⟨i, rfl, ?_⟩
    rw [insertAt]
    refine (reads_nodeAt hn).bind ?_
    cases hside : Side.toward? m.first n.mapping.first with
    | none => exact reads_pure
    | some side =>
      have hrebalance := reads_rebalance hspells hheight hbalance
      rcases ih side with ⟨near, far, heq, ih⟩
      rw [heq] at hspells hsteps hheight hbalance htaken
      rw [Tree.depth_nodeOn] at hsteps
      have hnearSteps : near.depth ≤ steps := by omega
      rw [Tree.insert_nodeOn hside] at htaken
      obtain ⟨_, _, ns, fs, hi, hn', -, -, -, hnear, -⟩ := hspells.exists_node
      rcases Option.some.inj hi with rfl
      rcases Option.some.inj (hn.symm.trans hn') with rfl
      obtain ⟨-, hhnear, -⟩ := Tree.isHeighted_nodeOn.mp hheight
      obtain ⟨-, -, hbnear, -⟩ := Tree.isBalanced_nodeOn.mp hbalance
      obtain ⟨j, hlink, hreads⟩ := ih hnear hnearSteps hhnear hbnear htaken
      -- the link that is set is the one that was there
      have hsame : n.withChild side (some j) = n := by rw [← hlink, Node.withChild_child]
      exact hreads.bind ((reads_change hn hsame).bind (hrebalance.bind reads_pure))

end Inserting

/-! ## Stores -/

section Stores

variable {s : Store} {t : Tree} {m : Mapping}

/-- The links of the store spell out a tree in which every node occurs once. -/
def Holds (s : Store) (t : Tree) : Prop :=
  ∃ ids, Spells s.nodes s.root t ids ∧ ids.Perm (List.range s.nodes.size)

theorem holds_empty : Holds {} .leaf :=
  ⟨[], .leaf, .refl _⟩

theorem Holds.size_eq (hs : s.Holds t) : s.size = t.size := by
  rcases hs with ⟨ids, hspells, hperm⟩
  rw [size, hspells.size_eq, hperm.length_eq, List.length_range]

theorem Holds.depth_le (hs : s.Holds t) : t.depth ≤ s.nodes.size := by
  have hsize : s.nodes.size = t.size := hs.size_eq
  rw [hsize]
  exact t.depth_le_size

/-- The mappings of the nodes are those of the tree. -/
theorem Holds.mem_toList (hs : s.Holds t) {k : Mapping} :
    k ∈ t.toList ↔ ∃ n ∈ s.nodes, n.mapping = k := by
  rcases hs with ⟨ids, hspells, hperm⟩
  rw [hspells.mem_toList]
  constructor
  · rintro ⟨j, -, n, hn, rfl⟩
    exact ⟨n, Array.mem_of_getElem? hn, rfl⟩
  · rintro ⟨n, hn, rfl⟩
    rcases Array.mem_iff_getElem?.mp hn with ⟨j, hj⟩
    have hlt : j < s.nodes.size := (Array.getElem?_eq_some_iff.mp hj).choose
    exact ⟨j, hperm.mem_iff.mpr (List.mem_range.mpr hlt), n, hj, rfl⟩

/-- An insertion does to the store what it does to the tree, and adds a node for a mapping that is
taken. -/
theorem Holds.insert (hs : s.Holds t) (m : Mapping) :
    ∃ s', s.insert m = some (s', (t.insert m).2) ∧ s'.Holds (t.insert m).1 ∧
      s'.nodes.toList.map (·.mapping) =
        s.nodes.toList.map (·.mapping) ++ if (t.insert m).2 then [m] else [] := by
  have hdepth := hs.depth_le
  rcases hs with ⟨ids, hspells, hperm⟩
  have hnodup : ids.Nodup := hperm.nodup_iff.mpr List.nodup_range
  obtain ⟨⟨j, inserted⟩, nodes, hrun, hflag, ⟨ids', hspells', hperm'⟩, hrewired⟩ :=
    ends_insertAt hspells hnodup hdepth m
  subst hflag
  refine ⟨⟨nodes, some j⟩, ?_, ⟨ids', hspells', ?_⟩, hrewired.mappings⟩
  · rw [Store.insert, hrun]
    rfl
  · -- the new index is the next one
    refine (hperm'.trans (hperm.append_left _)).trans ?_
    have hsize := hrewired.size
    cases hnew : (t.insert m).2 with
    | true =>
      rw [hnew, if_pos rfl, List.length_singleton] at hsize
      rw [hsize, List.range_succ]
      exact List.perm_append_comm
    | false =>
      rw [hnew] at hsize
      rw [hsize]
      exact .refl _

/-- A mapping that is not taken leaves the store as it was. -/
theorem Holds.insert_of_taken (hs : s.Holds t) (hheight : t.IsHeighted) (hbalance : t.IsBalanced)
    (htaken : (t.insert m).2 = false) : s.insert m = some (s, false) := by
  have hdepth := hs.depth_le
  rcases hs with ⟨ids, hspells, -⟩
  obtain ⟨i, hroot, hreads⟩ := reads_insertAt hspells hdepth hheight hbalance htaken
  have hrun : (insertAt m s.nodes.size s.root).run s.nodes = some ((i, false), s.nodes) := hreads
  rw [Store.insert, hrun]
  change some ((⟨s.nodes, some i⟩ : Store), false) = _
  rw [← hroot]

/-- A run of insertions makes the store that holds the tree of the same run. -/
theorem exists_ofList (ms : List Mapping) : ∃ s, ofList ms = some s ∧ s.Holds (Tree.ofList ms) := by
  induction ms using List.reverseRecOn with
  | nil => exact ⟨{}, rfl, holds_empty⟩
  | append_singleton ms m ih =>
    rcases ih with ⟨s, hs, hholds⟩
    rcases hholds.insert m with ⟨s', hs', hholds', -⟩
    refine ⟨s', ?_, ?_⟩
    · rw [ofList, List.foldlM_append]
      change (ofList ms >>= _) = _
      rw [hs]
      simp [hs']
    · rw [Tree.ofList_concat]
      exact hholds'

/-! What is read off a store is what the tree tells. -/

theorem Holds.height?_eq (hs : s.Holds t) : s.height? = some t.height := by
  rcases hs with ⟨ids, hspells, -⟩
  have hreads : (heightAt s.root).run s.nodes = some (t.height, s.nodes) := reads_heightAt hspells
  rw [height?, StateT.run', show heightAt s.root s.nodes = _ from hreads]
  rfl

theorem Holds.mappings?_eq (hs : s.Holds t) : s.mappings? = some t.toList := by
  obtain ⟨ids, hspells, -⟩ := id hs
  exact hspells.mappingsAt?_eq hs.depth_le

theorem Holds.fold?_eq (hs : s.Holds t) (c : Codepoint) : s.fold? c = some (t.fold c) := by
  obtain ⟨ids, hspells, -⟩ := id hs
  exact hspells.foldAt?_eq hs.depth_le c

/-- After every run of insertions the links of the store spell out one tree, with a place for each
node. It is the tree that the same run makes, its mappings ascend, every node remembers its height,
and the heights of the subtrees of a node differ by at most one. One more insertion always ends. It
says that the mapping is new if and only if no node has its first codepoint. Then it adds a node for
it and keeps the mappings of all others, and otherwise it leaves the whole store as it was. -/
theorem store_of_inserts (ms : List Mapping) :
    ∃ s ids, ofList ms = some s ∧ Spells s.nodes s.root (Tree.ofList ms) ids ∧
      ids.Perm (List.range s.nodes.size) ∧
      (Tree.ofList ms).Ordered ∧ (Tree.ofList ms).IsHeighted ∧ (Tree.ofList ms).IsBalanced ∧
      ∀ m, ∃ s' inserted, s.insert m = some (s', inserted) ∧
        (inserted = true ↔ ∀ n ∈ s.nodes, n.mapping.first ≠ m.first) ∧
        (inserted = true →
          s'.nodes.toList.map (·.mapping) = s.nodes.toList.map (·.mapping) ++ [m]) ∧
        (inserted = false → s' = s) := by
  obtain ⟨s, hs, hholds⟩ := exists_ofList ms
  obtain ⟨ids, hspells, hperm⟩ := id hholds
  have hordered := Tree.ordered_ofList ms
  have hheight := Tree.isHeighted_ofList ms
  have hbalance := Tree.isBalanced_ofList ms
  refine ⟨s, ids, hs, hspells, hperm, hordered, hheight, hbalance, ?_⟩
  intro m
  obtain ⟨s', hs', -, hmappings⟩ := hholds.insert m
  refine ⟨s', _, hs', ?_, ?_, ?_⟩
  · rw [Tree.insert_snd_eq_true_iff hordered]
    simp only [hholds.mem_toList, forall_exists_index, and_imp, forall_apply_eq_imp_iff₂]
  · intro htrue
    rw [hmappings, if_pos htrue]
  · intro hfalse
    have hsame := hholds.insert_of_taken hheight hbalance hfalse
    rw [hs'] at hsame
    exact (Prod.mk.inj (Option.some.inj hsame)).1

end Stores

end CaseFolding.Store

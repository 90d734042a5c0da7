import CaseFolding.Proofs.Tree.Depth
import CaseFolding.Proofs.Tree.Layout

namespace CaseFolding

/-! # Slots

In a layout every subtree has a slot: the tree itself has the first one, and the
children of what has slot `k` have slots `2 * k + 1` and `2 * k + 2`. A stored tree
is laid out by following its links, each mapping being put where its node belongs.
As the height at the root is that of the tree, no slot is missing on the way, and
in the end the slots show what the links spell out.
-/

/-! ## Slots of subtrees -/

namespace Side

/-- Every slot but the first one is that of a child. -/
@[elab_as_elim]
theorem slot_induction {P : Nat → Prop} (k : Nat) (hroot : P 0)
    (hbelow : ∀ (side : Side) k, P k → P (side.slotBelow k)) : P k := by
  induction k using Nat.strong_induction_on with
  | _ k ih =>
    cases k with
    | zero => exact hroot
    | succ k =>
      have hparent : P (k / 2) := ih (k / 2) (by omega)
      rcases Nat.mod_two_eq_zero_or_one k with heven | hodd
      · have hk : k + 1 = left.slotBelow (k / 2) := by
          show k + 1 = 2 * (k / 2) + 1
          omega
        rw [hk]
        exact hbelow left (k / 2) hparent
      · have hk : k + 1 = right.slotBelow (k / 2) := by
          show k + 1 = 2 * (k / 2) + 2
          omega
        rw [hk]
        exact hbelow right (k / 2) hparent

/-- The slots of children lie right behind twice the slot of their parent. -/
theorem slotBelow_bounds (side : Side) (k : Nat) :
    2 * k + 1 ≤ side.slotBelow k ∧ side.slotBelow k ≤ 2 * k + 2 := by
  cases side with
  | left =>
    show 2 * k + 1 ≤ 2 * k + 1 ∧ 2 * k + 1 ≤ 2 * k + 2
    omega
  | right =>
    show 2 * k + 1 ≤ 2 * k + 2 ∧ 2 * k + 2 ≤ 2 * k + 2
    omega

end Side

namespace Tree

variable {t u : Tree} {m : Mapping} {side : Side} {j k count : Nat}

/-- The subtree on a side. -/
def childOn : Side → Tree → Tree
  | .left => left
  | .right => right

/-- The subtree that has slot `k`. -/
def inSlot (t : Tree) : (k : Nat) → Tree
  | 0 => t
  | k + 1 => (t.inSlot (k / 2)).childOn (if k % 2 = 0 then .left else .right)

theorem inSlot_slotBelow (t : Tree) (side : Side) (k : Nat) :
    t.inSlot (side.slotBelow k) = (t.inSlot k).childOn side := by
  cases side with
  | left =>
    show t.inSlot (2 * k + 1) = _
    rw [inSlot, if_pos (by omega), Nat.mul_div_cancel_left k Nat.two_pos]
  | right =>
    show t.inSlot (2 * k + 1 + 1) = _
    have hparent : (2 * k + 1) / 2 = k := by omega
    rw [inSlot, if_neg (by omega), hparent]

theorem inSlot_children {h : Nat} {l r : Tree} (hnode : t.inSlot k = node h l m r) :
    t.inSlot (Side.left.slotBelow k) = l ∧ t.inSlot (Side.right.slotBelow k) = r := by
  rw [inSlot_slotBelow, inSlot_slotBelow, hnode]
  exact ⟨rfl, rfl⟩

theorem childOn_leaf (side : Side) : leaf.childOn side = leaf := by
  cases side <;> rfl

/-- A child is lower than its parent. -/
theorem depth_childOn_le (side : Side) (t : Tree) : (t.childOn side).depth ≤ t.depth - 1 := by
  cases t with
  | leaf =>
    rw [childOn_leaf]
    exact Nat.zero_le _
  | node h l m r =>
    rw [depth, Nat.add_sub_cancel]
    cases side with
    | left => exact Nat.le_max_left l.depth r.depth
    | right => exact Nat.le_max_right l.depth r.depth

/-- The further on a slot is, the lower is what it holds. -/
theorem depth_inSlot_le {d : Nat} (h : 2 ^ d ≤ k + 1) : (t.inSlot k).depth ≤ t.depth - d := by
  induction k using Side.slot_induction generalizing d with
  | hroot =>
    have hd : d = 0 := by
      by_contra hne
      have hlt : 2 ^ 0 < 2 ^ d := Nat.pow_lt_pow_right Nat.one_lt_two (Nat.pos_of_ne_zero hne)
      omega
    rw [hd, inSlot]
    exact Nat.le_refl _
  | hbelow side k ih =>
    have hchild := depth_childOn_le side (t.inSlot k)
    have hslot := (side.slotBelow_bounds k).2
    rw [inSlot_slotBelow]
    cases d with
    | zero =>
      have hparent : (t.inSlot k).depth ≤ t.depth - 0 := ih (Nat.succ_pos k)
      omega
    | succ d =>
      rw [Nat.pow_succ] at h
      have hparent : (t.inSlot k).depth ≤ t.depth - d := ih (by omega)
      omega

/-- Beyond the slots for a tree of its depth there is nothing. -/
theorem inSlot_eq_leaf (h : 2 ^ t.depth ≤ k + 1) : t.inSlot k = leaf := by
  apply eq_leaf_of_depth
  have hdepth := depth_inSlot_le (t := t) h
  omega

theorem lt_of_root?_inSlot (h : (t.inSlot k).root? = some m) : k < 2 ^ t.depth - 1 := by
  by_contra hge
  have hleaf : t.inSlot k = leaf := inSlot_eq_leaf (by omega)
  rw [hleaf] at h
  exact absurd h nofun

/-- From left to right a tree has what is on its left, what is at its root and what is on its
right. -/
theorem toList_eq_childOn (t : Tree) :
    t.toList = (t.childOn .left).toList ++ t.root?.toList ++ (t.childOn .right).toList := by
  cases t with
  | leaf => rfl
  | node h l m r =>
    show l.toList ++ m :: r.toList = l.toList ++ [m] ++ r.toList
    rw [List.append_assoc, List.singleton_append]

/-! ## Rows -/

theorem getElem?_cons_nextRow (u : Tree) (row : List Tree) (side : Side) (k : Nat) :
    (u :: nextRow row)[side.slotBelow k]? = row[k]?.map (childOn side) := by
  induction row generalizing u k with
  | nil =>
    have hslot := (side.slotBelow_bounds k).1
    rw [List.getElem?_eq_none (by simp [nextRow]; omega), List.getElem?_nil, Option.map_none]
  | cons t row ih =>
    have hrow : nextRow (t :: row) = t.left :: t.right :: nextRow row := rfl
    rw [hrow]
    cases k with
    | zero => cases side <;> rfl
    | succ k =>
      have hslot : side.slotBelow (k + 1) = side.slotBelow k + 2 := by
        cases side <;> rfl
      rw [hslot, List.getElem?_cons_succ, List.getElem?_cons_succ, ih, List.getElem?_cons_succ]

theorem length_rows (count : Nat) (row : List Tree) :
    (rows count row).length = (2 ^ count - 1) * row.length := by
  induction count generalizing row with
  | zero => simp [rows]
  | succ count ih =>
    have hpos : 0 < 2 ^ count := Nat.two_pow_pos count
    have hpow : 2 ^ (count + 1) - 1 = 1 + (2 ^ count - 1) * 2 := by
      rw [Nat.pow_succ]
      omega
    rw [rows, List.length_append, ih, length_nextRow, hpow, Nat.add_mul, Nat.one_mul,
      Nat.mul_assoc]

/-- The rows of a tree show each subtree at its slot. -/
theorem getElem?_rows (h : k < 2 ^ count - 1) : (rows count [t])[k]? = some (t.inSlot k) := by
  induction k using Side.slot_induction generalizing count with
  | hroot =>
    cases count with
    | zero => exact absurd h (Nat.not_lt_zero _)
    | succ count =>
      rw [inSlot]
      rfl
  | hbelow side k ih =>
    cases count with
    | zero => exact absurd h (Nat.not_lt_zero _)
    | succ count =>
      have hslot := (side.slotBelow_bounds k).1
      rw [Nat.pow_succ] at h
      have hparent : (rows count [t])[k]? = some (t.inSlot k) := ih (by omega)
      rw [rows, List.singleton_append, ← nextRow_rows, getElem?_cons_nextRow, hparent,
        Option.map_some, inSlot_slotBelow]

/-! ## Layouts -/

theorem length_places (t : Tree) : t.places.length = 2 ^ t.height - 1 := by
  rw [places, List.length_map, layout, length_rows, List.length_singleton, Nat.mul_one]

/-- Each place shows the mapping at the root of what has its slot. -/
theorem getElem?_places (h : k < 2 ^ t.height - 1) : t.places[k]? = some (t.inSlot k).root? := by
  rw [places, List.getElem?_map, layout, getElem?_rows h, Option.map_some]

/-- Beyond the layout there is nothing to be shown. -/
theorem join_getElem?_places (hheight : t.height = t.depth) (k : Nat) :
    t.places[k]?.join = (t.inSlot k).root? := by
  by_cases hk : k < 2 ^ t.height - 1
  · rw [getElem?_places hk]
    rfl
  · have hlength : t.places.length ≤ k := by
      rw [length_places]
      omega
    have hleaf : t.inSlot k = leaf := by
      apply inSlot_eq_leaf
      rw [← hheight]
      omega
    rw [List.getElem?_eq_none hlength, hleaf]
    rfl

theorem getElem?_places_eq_some_iff (hheight : t.height = t.depth) :
    t.places[k]? = some (some m) ↔ (t.inSlot k).root? = some m := by
  rw [← join_getElem?_places hheight, Option.join_eq_some_iff]

/-- In an ordered tree no mapping has two slots. -/
theorem slot_unique (ht : t.Ordered) (hheight : t.height = t.depth)
    (hj : (t.inSlot j).root? = some m) (hk : (t.inSlot k).root? = some m) : j = k := by
  have hnodup : t.toList.Nodup := by
    refine ht.imp ?_
    rintro a b hab rfl
    exact UInt32.lt_irrefl _ hab
  have hshown := (filterMap_root?_layout hheight).nodup_iff.mpr hnodup
  rw [List.Nodup, List.pairwise_filterMap, List.pairwise_iff_getElem] at hshown
  have hplace : ∀ {i : Nat}, (t.inSlot i).root? = some m →
      ∃ hi : i < t.layout.length, t.layout[i].root? = some m := by
    intro i hi
    have hlt := lt_of_root?_inSlot hi
    rw [← hheight] at hlt
    have hlayout : t.layout[i]? = some (t.inSlot i) := getElem?_rows hlt
    rcases List.getElem?_eq_some_iff.mp hlayout with ⟨hlength, heq⟩
    exact ⟨hlength, by rw [heq, hi]⟩
  rcases hplace hj with ⟨hjlt, hj⟩
  rcases hplace hk with ⟨hklt, hk⟩
  rcases Nat.lt_trichotomy j k with hlt | heq | hgt
  · exact absurd rfl (hshown j k hjlt hklt hlt m hj m hk)
  · exact heq
  · exact absurd rfl (hshown k j hklt hjlt hgt m hk m hj)

theorem exists_slot (hheight : t.height = t.depth) (hm : m ∈ t.toList) :
    ∃ k, (t.inSlot k).root? = some m := by
  have hshown := (filterMap_root?_layout hheight).mem_iff.mpr hm
  rcases List.mem_filterMap.mp hshown with ⟨u, hu, hroot⟩
  rcases List.mem_iff_getElem?.mp hu with ⟨k, hk⟩
  have hplace : t.places[k]? = some (some m) := by
    rw [places, List.getElem?_map, hk, Option.map_some, hroot]
  exact ⟨k, (getElem?_places_eq_some_iff hheight).mp hplace⟩

theorem mem_toList_of_inSlot (hheight : t.height = t.depth) (hk : (t.inSlot k).root? = some m) :
    m ∈ t.toList := by
  have hplace := (getElem?_places_eq_some_iff hheight).mpr hk
  rw [places, List.getElem?_map] at hplace
  rcases Option.map_eq_some_iff.mp hplace with ⟨u, hu, hroot⟩
  refine (filterMap_root?_layout hheight).mem_iff.mp ?_
  exact List.mem_filterMap.mpr ⟨u, List.mem_of_getElem? hu, hroot⟩

end Tree

namespace Store

open CaseFolding.Tree

variable {nodes : Array Node} {link : Option Nat} {t : Tree} {ids : List Nat} {m : Mapping}
  {slots slots' slots'' : Array (Option Mapping)} {levels i j k : Nat} {n : Node} {s : Store}

/-! ## Following the links -/

/-- A slot, or one of those below it. -/
inductive IsUnder (k : Nat) : Nat → Prop where
  | self : IsUnder k k
  | child {j : Nat} (side : Side) (h : IsUnder k j) : IsUnder k (side.slotBelow j)

theorem isUnder_zero (j : Nat) : IsUnder 0 j := by
  induction j using Side.slot_induction with
  | hroot => exact .self
  | hbelow side j ih => exact .child side ih

/-- What lies below a slot lies below the slot of one of its children. -/
theorem IsUnder.eq_or (h : IsUnder k j) : j = k ∨ ∃ side : Side, IsUnder (side.slotBelow k) j := by
  induction h with
  | self => exact .inl rfl
  | child side h ih =>
    rcases ih with rfl | ⟨side', h'⟩
    · exact .inr ⟨side, .self⟩
    · exact .inr ⟨side', .child side h'⟩

theorem IsUnder.inSlot_eq_leaf (h : IsUnder k j) (hk : t.inSlot k = leaf) : t.inSlot j = leaf := by
  induction h with
  | self => exact hk
  | child side h ih => rw [inSlot_slotBelow, ih, childOn_leaf]

/-- From one state of the slots to another, what a tree has in a slot and below it has been put
there, and nothing else has been put anywhere. -/
structure Fills (t : Tree) (k : Nat) (before after : Array (Option Mapping)) : Prop where
  size : after.size = before.size
  put : ∀ j m, IsUnder k j → (t.inSlot j).root? = some m → after[j]? = some (some m)
  kept : ∀ j, after[j]? = before[j]? ∨
    ∃ m, (t.inSlot j).root? = some m ∧ after[j]? = some (some m)

namespace Fills

theorem of_leaf (hk : t.inSlot k = leaf) : Fills t k slots slots where
  size := rfl
  put := by
    intro j m hj hroot
    rw [hj.inSlot_eq_leaf hk] at hroot
    exact absurd hroot nofun
  kept := by
    intro j
    exact .inl rfl

theorem keeps (h : Fills t k slots slots') (hroot : (t.inSlot j).root? = some m)
    (hj : slots[j]? = some (some m)) : slots'[j]? = some (some m) := by
  rcases h.kept j with hsame | ⟨m', hroot', hj'⟩
  · rw [hsame, hj]
  · rw [hj', ← hroot', hroot]

/-- A mapping is put into its slot, and then what is below on the left and what is below on the
right. -/
theorem of_node (hk : k < slots.size) (hroot : (t.inSlot k).root? = some m)
    (hleft : Fills t (Side.left.slotBelow k) (slots.set k (some m) hk) slots')
    (hright : Fills t (Side.right.slotBelow k) slots' slots'') : Fills t k slots slots'' where
  size := by
    rw [hright.size, hleft.size, Array.size_set]
  put := by
    intro j m' hj hroot'
    rcases hj.eq_or with rfl | ⟨side, hside⟩
    · have hset : (slots.set j (some m) hk)[j]? = some (some m') := by
        rw [Array.getElem?_set_self, ← hroot, hroot']
      exact hright.keeps hroot' (hleft.keeps hroot' hset)
    · cases side with
      | left => exact hright.keeps hroot' (hleft.put j m' hside hroot')
      | right => exact hright.put j m' hside hroot'
  kept := by
    intro j
    rcases hright.kept j with hsame | hput
    · rcases hleft.kept j with hsame' | ⟨m', hroot', hput⟩
      · rw [hsame, hsame']
        by_cases hkj : k = j
        · rw [← hkj, Array.getElem?_set_self]
          exact .inr ⟨m, hroot, rfl⟩
        · rw [Array.getElem?_set_ne hk hkj]
          exact .inl rfl
      · exact .inr ⟨m', hroot', hsame.trans hput⟩
    · exact .inr hput

end Fills

/-- The links lead to no slot that is not there, and everything is put where it belongs. -/
theorem exists_placeAt? (hspells : Spells nodes link (t.inSlot k) ids)
    (hlevels : (t.inSlot k).depth ≤ levels) (hsize : slots.size = 2 ^ t.depth - 1) :
    ∃ slots', placeAt? nodes levels link k slots = some slots' ∧ Fills t k slots slots' := by
  induction levels generalizing link k ids slots with
  | zero =>
    have hleaf : t.inSlot k = leaf := eq_leaf_of_depth hlevels
    rw [hleaf] at hspells
    cases hspells
    exact ⟨slots, rfl, .of_leaf hleaf⟩
  | succ levels ih =>
    cases link with
    | none => exact ⟨slots, rfl, .of_leaf hspells.eq_leaf.1⟩
    | some i =>
      rcases exists_nodeOn .left hspells.ne_leaf with ⟨h, l, m, r, hnode⟩
      rcases inSlot_children hnode with ⟨hl, hr⟩
      have hroot : (t.inSlot k).root? = some m := by
        rw [hnode]
        rfl
      have hk : k < slots.size := by
        rw [hsize]
        exact lt_of_root?_inSlot hroot
      rw [hnode] at hspells hlevels
      rw [depth_nodeOn] at hlevels
      obtain ⟨_, n, ls, rs, hi, hn, -, rfl, -, hleft, hright⟩ := hspells.exists_node
      rcases Option.some.inj hi with rfl
      have hleft : Spells nodes n.left l ls := hleft
      have hright : Spells nodes n.right r rs := hright
      have hsize₁ : (slots.set k (some n.mapping) hk).size = 2 ^ t.depth - 1 := by
        rw [Array.size_set, hsize]
      obtain ⟨slots₂, hplace₂, hfills₂⟩ := ih (hl ▸ hleft) (hl ▸ by omega) hsize₁
      obtain ⟨slots₃, hplace₃, hfills₃⟩ :=
        ih (hr ▸ hright) (hr ▸ by omega) (hfills₂.size.trans hsize₁)
      refine ⟨slots₃, ?_, .of_node hk hroot hfills₂ hfills₃⟩
      simp [placeAt?, hn, hk, hplace₂, hplace₃]

/-- The slots of a store show the layout of its tree. -/
theorem Holds.slots?_eq (hs : s.Holds t) (hheight : t.height = t.depth) :
    s.slots? = some t.places.toArray := by
  obtain ⟨ids, hspells, -⟩ := id hs
  have hsize : (Array.replicate (2 ^ t.height - 1) (none : Option Mapping)).size =
      2 ^ t.depth - 1 := by
    rw [Array.size_replicate, hheight]
  have hroot : t.inSlot 0 = t := by rw [inSlot]
  obtain ⟨slots, hplace, hfills⟩ :=
    exists_placeAt? (k := 0) (t := t) (hroot.symm ▸ hspells) (hroot.symm ▸ hs.depth_le) hsize
  have hslots : slots = t.places.toArray := by
    apply Array.ext_getElem?
    intro j
    have hget : t.places.toArray[j]? = t.places[j]? := List.getElem?_toArray
    rw [hget]
    by_cases hj : j < 2 ^ t.height - 1
    · rw [getElem?_places hj]
      cases hm : (t.inSlot j).root? with
      | some m => exact hfills.put j m (isUnder_zero j) hm
      | none =>
        rcases hfills.kept j with hsame | ⟨m, hroot', -⟩
        · rw [hsame, Array.getElem?_replicate, if_pos hj]
        · exact absurd (hm.symm.trans hroot') nofun
    · rw [Array.getElem?_eq_none (by rw [hfills.size, hsize, ← hheight]; omega),
        List.getElem?_eq_none (by rw [length_places]; omega)]
  rw [slots?, hs.height?_eq, ← hslots]
  show placeAt? s.nodes s.nodes.size s.root 0 (Array.replicate ((1 <<< t.height) - 1) none) = _
  rw [Nat.one_shiftLeft]
  exact hplace

/-! ## What the slots show -/

/-- What is in the slot of a link: the mapping of the node to which the link leads, or nothing if it
leads nowhere. -/
def Shows (s : Store) (slots : Array (Option Mapping)) (link : Option Nat) (k : Nat) : Prop :=
  match link with
  | none => slots[k]?.join = none
  | some i => ∃ n, s.nodes[i]? = some n ∧ slots[k]? = some (some n.mapping)

/-- The slots show the nodes of a store as their links have them. -/
structure LaysOut (s : Store) (slots : Array (Option Mapping)) : Prop where
  /-- The mapping of every node stands in one slot. -/
  once : ∀ n ∈ s.nodes, ∃! k : Nat, slots[k]? = some (some n.mapping)
  /-- No other mapping stands in a slot. -/
  stored : ∀ (k : Nat) m, slots[k]? = some (some m) → ∃ n ∈ s.nodes, n.mapping = m
  /-- A slot below an empty one is empty. -/
  parent : ∀ (k : Nat) m, 0 < k → slots[k]? = some (some m) → ∃ p, slots[(k - 1) / 2]? = some (some p)
  /-- The root has the first slot. -/
  root : s.Shows slots s.root 0
  /-- The children of the node in slot `k` have the slots behind `2 * k`. -/
  children : ∀ n ∈ s.nodes, ∀ k : Nat, slots[k]? = some (some n.mapping) →
    s.Shows slots n.left (2 * k + 1) ∧ s.Shows slots n.right (2 * k + 2)

/-- The mappings that are found when the slots below a slot are read from left to right. -/
def readInOrder (slots : Array (Option Mapping)) (k : Nat) : List Mapping :=
  if hk : k < slots.size then
    readInOrder slots (2 * k + 1) ++ slots[k].toList ++ readInOrder slots (2 * k + 2)
  else []
termination_by slots.size - k

/-- Read from left to right, the slots below a slot show the subtree that has it. -/
theorem readInOrder_places (hheight : t.height = t.depth) (k : Nat) :
    readInOrder t.places.toArray k = (t.inSlot k).toList := by
  fun_induction readInOrder t.places.toArray k with
  | case1 k hk ihl ihr =>
    have hlt : k < 2 ^ t.height - 1 := by
      rw [← length_places]
      exact hk
    have hplace : t.places.toArray[k] = (t.inSlot k).root? := by
      have hget := getElem?_places hlt
      rw [List.getElem?_eq_getElem hk] at hget
      exact Option.some.inj hget
    rw [ihl, ihr, hplace, toList_eq_childOn (t.inSlot k), ← inSlot_slotBelow, ← inSlot_slotBelow]
    rfl
  | case2 k hk =>
    have hleaf : t.inSlot k = leaf := by
      apply inSlot_eq_leaf
      rw [← hheight]
      have hlength : t.places.toArray.size = 2 ^ t.height - 1 := length_places t
      omega
    rw [hleaf, toList]

/-- The subtree that has a slot is spelled out by the links as well. -/
theorem Spells.exists_inSlot (hspells : Spells nodes link t ids) (k : Nat) :
    ∃ link' ids', Spells nodes link' (t.inSlot k) ids' := by
  induction k using Side.slot_induction with
  | hroot =>
    rw [inSlot]
    exact ⟨link, ids, hspells⟩
  | hbelow side k ih =>
    rcases ih with ⟨link', ids', hparent⟩
    rw [inSlot_slotBelow]
    generalize t.inSlot k = u at hparent
    cases hparent with
    | leaf =>
      rw [childOn_leaf]
      exact ⟨none, [], .leaf⟩
    | node hn hl hr =>
      cases side with
      | left => exact ⟨_, _, hl⟩
      | right => exact ⟨_, _, hr⟩

/-- The mappings from left to right are those at the indices from left to right. -/
theorem Spells.map_some_toList (hspells : Spells nodes link t ids) :
    t.toList.map some = ids.map fun i => nodes[i]?.map (·.mapping) := by
  induction hspells with
  | leaf => rfl
  | node hn hl hr ihl ihr =>
    rw [toList, List.map_append, List.map_cons, List.map_append, List.map_cons, ihl, ihr, hn]
    rfl

/-- In an ordered tree no two nodes have one mapping. -/
theorem Holds.node_unique (hs : s.Holds t) (ht : t.Ordered) {n' : Node} (hn : n ∈ s.nodes)
    (hn' : n' ∈ s.nodes) (h : n.mapping = n'.mapping) : n = n' := by
  rcases hs with ⟨ids, hspells, hperm⟩
  have hnodup : (t.toList.map some).Nodup := by
    refine List.pairwise_map.mpr (ht.imp ?_)
    rintro a b hab heq
    rw [Option.some.inj heq] at hab
    exact UInt32.lt_irrefl _ hab
  rw [hspells.map_some_toList] at hnodup
  have hids : ∀ {i : Nat} {n : Node}, s.nodes[i]? = some n → i ∈ ids := by
    intro i n hi
    refine hperm.mem_iff.mpr (List.mem_range.mpr ?_)
    exact (Array.getElem?_eq_some_iff.mp hi).choose
  rcases Array.mem_iff_getElem?.mp hn with ⟨i, hi⟩
  rcases Array.mem_iff_getElem?.mp hn' with ⟨j, hj⟩
  have hij : i = j := by
    apply List.inj_on_of_nodup_map hnodup (hids hi) (hids hj)
    simp only [hi, hj, Option.map_some, h]
  rw [hij, hj] at hi
  exact (Option.some.inj hi).symm

/-- The slot of a link shows what the link leads to. -/
theorem shows_of_spells (hheight : t.height = t.depth)
    (hspells : Spells s.nodes link (t.inSlot k) ids) : s.Shows t.places.toArray link k := by
  have hget : t.places.toArray[k]? = t.places[k]? := List.getElem?_toArray
  cases link with
  | none =>
    show t.places.toArray[k]?.join = none
    rw [hget, join_getElem?_places hheight, hspells.eq_leaf.1]
    rfl
  | some i =>
    rcases exists_nodeOn .left hspells.ne_leaf with ⟨h, l, m, r, hnode⟩
    have hroot : (t.inSlot k).root? = some m := by
      rw [hnode]
      rfl
    rw [hnode] at hspells
    obtain ⟨_, n, -, -, hi, hn, -, rfl, -⟩ := hspells.exists_node
    rcases Option.some.inj hi with rfl
    refine ⟨n, hn, ?_⟩
    rw [hget]
    exact (getElem?_places_eq_some_iff hheight).mpr hroot

/-- The layout of an ordered tree shows the nodes of a store that holds it. -/
theorem Holds.laysOut (hs : s.Holds t) (ht : t.Ordered) (hheight : t.height = t.depth) :
    s.LaysOut t.places.toArray := by
  have hshown : ∀ {k : Nat} {m : Mapping},
      t.places.toArray[k]? = some (some m) ↔ (t.inSlot k).root? = some m := by
    intro k m
    rw [List.getElem?_toArray]
    exact getElem?_places_eq_some_iff hheight
  obtain ⟨ids, hspells, -⟩ := id hs
  constructor
  case once =>
    intro n hn
    rcases exists_slot hheight (hs.mem_toList.mpr ⟨n, hn, rfl⟩) with ⟨k, hk⟩
    refine ⟨k, hshown.mpr hk, ?_⟩
    intro j hj
    exact slot_unique ht hheight (hshown.mp hj) hk
  case stored =>
    intro k m hk
    exact hs.mem_toList.mp (mem_toList_of_inSlot hheight (hshown.mp hk))
  case parent =>
    intro k m hpos hk
    induction k using Side.slot_induction with
    | hroot => exact absurd hpos (Nat.lt_irrefl 0)
    | hbelow side k ih =>
      have hchild := hshown.mp hk
      rw [inSlot_slotBelow] at hchild
      have hparent : (side.slotBelow k - 1) / 2 = k := by
        have hslot := side.slotBelow_bounds k
        omega
      rw [hparent]
      cases hnode : t.inSlot k with
      | leaf =>
        rw [hnode, childOn_leaf] at hchild
        exact absurd hchild nofun
      | node h l p r =>
        refine ⟨p, hshown.mpr ?_⟩
        rw [hnode]
        rfl
  case root =>
    apply shows_of_spells hheight
    rw [inSlot]
    exact hspells
  case children =>
    intro n hn k hk
    have hroot := hshown.mp hk
    rcases hspells.exists_inSlot k with ⟨link, ids', hslot⟩
    cases hnode : t.inSlot k with
    | leaf =>
      rw [hnode] at hroot
      exact absurd hroot nofun
    | node h l m r =>
      rcases inSlot_children hnode with ⟨hl, hr⟩
      rw [hnode] at hslot hroot
      cases hslot with
      | @node i n' _ _ _ _ hn' hleft hright =>
        -- the node in the slot is the one with this mapping
        have hsame : n = n' :=
          hs.node_unique ht hn (Array.mem_of_getElem? hn') (Option.some.inj hroot).symm
        rw [hsame]
        exact ⟨shows_of_spells hheight (hl ▸ hleft), shows_of_spells hheight (hr ▸ hright)⟩

/-- After every run of insertions the store can be laid out without leaving the slots that its
height provides, which 64 bits can count. Every node has one slot, the root the first one, and the
children of what has slot `k` have slots `2 * k + 1` and `2 * k + 2`, which are empty where there is
no child. Read from left to right, the slots show the mappings of the store. -/
theorem slots_show_the_tree (ms : List Mapping) :
    ∃ s h slots, ofList ms = some s ∧ s.height? = some h ∧ h < 64 ∧ s.slots? = some slots ∧
      slots.size = 2 ^ h - 1 ∧ s.LaysOut slots ∧ s.mappings? = some (readInOrder slots 0) := by
  obtain ⟨s, hs, hholds⟩ := exists_ofList ms
  have hordered := Tree.ordered_ofList ms
  have hheight := height_eq_depth (isHeighted_ofList ms)
  refine ⟨s, _, _, hs, hholds.height?_eq, ?_, hholds.slots?_eq hheight, ?_,
    hholds.laysOut hordered hheight, ?_⟩
  · have hlt := depth_lt_of_fib_le hordered.size_le (isBalanced_ofList ms).fib_le
    omega
  · exact length_places (Tree.ofList ms)
  · rw [hholds.mappings?_eq, readInOrder_places hheight, inSlot]

/-- Three mappings in ascending order fill two rows, and a fourth one starts another row. -/
example :
    let ms : List Mapping := [10, 20, 30, 40].map fun c => ⟨⟨c, c⟩, .set⟩
    let firsts := fun s : Store => s.slots?.map (·.toList.map (Option.map Mapping.first))
    (ofList (ms.take 3)).bind firsts = some [some 20, some 10, some 30] ∧
      (ofList ms).bind firsts = some [some 20, some 10, some 30, none, none, none, some 40] := by
  decide +kernel

end Store

end CaseFolding

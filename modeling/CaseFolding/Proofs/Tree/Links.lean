import CaseFolding.Proofs.Tree.Side
import Mathlib.Data.List.Perm.Basic

namespace CaseFolding

/-! # Trees spelled out by links

The links between stored nodes spell out a tree, and each step that is done to
the nodes is known by the tree that is spelled out afterwards and by the nodes
that it has changed. Trees among the other nodes stay as they are.
-/

/-! ## Orders by side -/

/-- What is in the subtrees and at the root, from left to right. -/
def Side.order {α : Type} (side : Side) (near : List α) (a : α) (far : List α) : List α :=
  match side with
  | .left => near ++ a :: far
  | .right => far ++ a :: near

namespace Side

variable {α : Type} {side : Side} {as bs cs : List α} {a b : α}

theorem order_order : side.order (side.order as a bs) b cs = side.order as a (side.order bs b cs) := by
  cases side <;> simp [order]

theorem perm_order : (side.order as a bs).Perm (a :: (as ++ bs)) := by
  cases side with
  | left => exact List.perm_middle
  | right => exact List.perm_middle.trans (List.perm_append_comm.cons a)

theorem mem_order : b ∈ side.order as a bs ↔ b = a ∨ b ∈ as ∨ b ∈ bs := by
  rw [perm_order.mem_iff, List.mem_cons, List.mem_append]

/-- In an order without repetition the root is in neither subtree, and the subtrees share nothing. -/
theorem nodup_order :
    (side.order as a bs).Nodup ↔
      (a ∉ as ∧ a ∉ bs) ∧ as.Nodup ∧ bs.Nodup ∧ ∀ c ∈ as, c ∉ bs := by
  rw [perm_order.nodup_iff, List.nodup_cons, List.mem_append, not_or, List.nodup_append]
  refine and_congr_right fun _ => and_congr_right fun _ => and_congr_right fun _ => ?_
  constructor
  · intro h c has hbs
    exact h c has c hbs rfl
  · rintro h c has d hbs rfl
    exact h c has hbs

end Side

namespace Store

/-! ## Links of a node -/

@[simp]
theorem Node.mapping_withChild (side : Side) (link : Option Nat) (n : Node) :
    (n.withChild side link).mapping = n.mapping := by
  cases side <;> rfl

@[simp]
theorem Node.child_withChild (side : Side) (link : Option Nat) (n : Node) :
    (n.withChild side link).child side = link := by
  cases side <;> rfl

@[simp]
theorem Node.child_other_withChild (side : Side) (link : Option Nat) (n : Node) :
    (n.withChild side link).child side.other = n.child side.other := by
  cases side <;> rfl

@[simp]
theorem Node.child_withChild_other (side : Side) (link : Option Nat) (n : Node) :
    (n.withChild side.other link).child side = n.child side := by
  cases side <;> rfl

@[simp]
theorem Node.height_withChild (side : Side) (link : Option Nat) (n : Node) :
    (n.withChild side link).height = n.height := by
  cases side <;> rfl

@[simp]
theorem Node.withChild_child (side : Side) (n : Node) : n.withChild side (n.child side) = n := by
  cases side <;> rfl

/-! ## Actions -/

/-- The action has an outcome, for which `Q` holds. -/
def Ends {α : Type} (act : Action α) (nodes : Array Node) (Q : α → Array Node → Prop) : Prop :=
  ∃ a nodes', act.run nodes = some (a, nodes') ∧ Q a nodes'

/-- The action gives `a` and leaves the nodes as they are. -/
def Reads {α : Type} (act : Action α) (nodes : Array Node) (a : α) : Prop :=
  act.run nodes = some (a, nodes)

section Actions

variable {α β : Type} {act : Action α} {next : α → Action β} {nodes : Array Node} {a : α}
  {P : α → Array Node → Prop} {Q : β → Array Node → Prop}

theorem Ends.bind (h : Ends act nodes P)
    (hnext : ∀ a nodes', P a nodes' → Ends (next a) nodes' Q) : Ends (act >>= next) nodes Q := by
  rcases h with ⟨a, nodes', hrun, hP⟩
  rcases hnext a nodes' hP with ⟨b, nodes'', hrun', hQ⟩
  exact ⟨b, nodes'', by simp [StateT.run_bind, hrun, hrun'], hQ⟩

theorem Reads.ends_bind (h : Reads act nodes a) (hnext : Ends (next a) nodes Q) :
    Ends (act >>= next) nodes Q := by
  rcases hnext with ⟨b, nodes', hrun, hQ⟩
  exact ⟨b, nodes', by simp [StateT.run_bind, show act.run nodes = some (a, nodes) from h, hrun], hQ⟩

theorem Reads.bind {b : β} (h : Reads act nodes a) (hnext : Reads (next a) nodes b) :
    Reads (act >>= next) nodes b := by
  have hrun : act.run nodes = some (a, nodes) := h
  rw [Reads, StateT.run_bind, hrun]
  exact hnext

theorem ends_pure (hP : P a nodes) : Ends (pure a) nodes P :=
  ⟨a, nodes, rfl, hP⟩

theorem reads_pure : Reads (pure a) nodes a := rfl

theorem Ends.imp {P' : α → Array Node → Prop} (h : Ends act nodes P)
    (himp : ∀ a nodes', P a nodes' → P' a nodes') : Ends act nodes P' := by
  rcases h with ⟨a, nodes', hrun, hP⟩
  exact ⟨a, nodes', hrun, himp a nodes' hP⟩

end Actions

/-! ## Changes -/

/-- Only the nodes at certain indices have been changed and none has another mapping than before,
but nodes for new mappings have been added. -/
structure Rewired (ids : List Nat) (new : List Mapping) (before after : Array Node) : Prop where
  mappings : after.toList.map (·.mapping) = before.toList.map (·.mapping) ++ new
  outside : ∀ j n, j ∉ ids → before[j]? = some n → after[j]? = some n

namespace Rewired

variable {ids ids' : List Nat} {new new' : List Mapping} {nodes nodes' nodes'' : Array Node}

theorem refl : Rewired ids [] nodes nodes :=
  ⟨(List.append_nil _).symm, fun _ _ _ h => h⟩

theorem mono (h : Rewired ids new nodes nodes') (hids : ∀ j ∈ ids, j ∈ ids') :
    Rewired ids' new nodes nodes' :=
  ⟨h.mappings, fun j n hj => h.outside j n fun hj' => hj (hids j hj')⟩

/-- One change after the other. Nodes that have been added may be changed as well. -/
theorem trans (h : Rewired ids new nodes nodes') (h' : Rewired ids' new' nodes' nodes'')
    (hids : ∀ j ∈ ids', j < nodes.size → j ∈ ids) : Rewired ids (new ++ new') nodes nodes'' := by
  refine ⟨?_, ?_⟩
  · rw [h'.mappings, h.mappings, List.append_assoc]
  · intro j n hj hn
    have hlt : j < nodes.size := (Array.getElem?_eq_some_iff.mp hn).choose
    exact h'.outside j n (fun hj' => hj (hids j hj' hlt)) (h.outside j n hj hn)

theorem size (h : Rewired ids new nodes nodes') : nodes'.size = nodes.size + new.length := by
  have hlength := congrArg List.length h.mappings
  simpa using hlength

end Rewired

/-! ## Trees in a store -/

/-- The links spell out a tree, whose nodes from left to right stand at the given indices. -/
inductive Spells (nodes : Array Node) : Option Nat → Tree → List Nat → Prop where
  | leaf : Spells nodes none .leaf []
  | node {i : Nat} {n : Node} {l r : Tree} {ls rs : List Nat} (hn : nodes[i]? = some n)
      (hl : Spells nodes n.left l ls) (hr : Spells nodes n.right r rs) :
      Spells nodes (some i) (.node n.height l n.mapping r) (ls ++ i :: rs)

namespace Spells

variable {nodes nodes' : Array Node} {link : Option Nat} {t near far : Tree} {ids ns fs : List Nat}
  {side : Side} {i h : Nat} {n : Node} {m : Mapping}

/-- A node spells out what its links spell out on either side. -/
theorem nodeOn (side : Side) (hn : nodes[i]? = some n)
    (hnear : Spells nodes (n.child side) near ns)
    (hfar : Spells nodes (n.child side.other) far fs) :
    Spells nodes (some i) (.nodeOn side n.height near n.mapping far) (side.order ns i fs) := by
  cases side with
  | left => exact .node hn hnear hfar
  | right => exact .node hn hfar hnear

/-- A tree with a root is spelled out by a node. -/
theorem exists_node (hspells : Spells nodes link (.nodeOn side h near m far) ids) :
    ∃ i n ns fs, link = some i ∧ nodes[i]? = some n ∧ n.height = h ∧ n.mapping = m ∧
      ids = side.order ns i fs ∧ Spells nodes (n.child side) near ns ∧
      Spells nodes (n.child side.other) far fs := by
  cases side with
  | left =>
    cases hspells with
    | node hn hl hr => exact ⟨_, _, _, _, rfl, hn, rfl, rfl, rfl, hl, hr⟩
  | right =>
    cases hspells with
    | node hn hl hr => exact ⟨_, _, _, _, rfl, hn, rfl, rfl, rfl, hr, hl⟩

theorem eq_leaf (hspells : Spells nodes none t ids) : t = .leaf ∧ ids = [] := by
  cases hspells
  exact ⟨rfl, rfl⟩

theorem ne_leaf (hspells : Spells nodes (some i) t ids) : t ≠ .leaf := by
  cases hspells
  exact Tree.noConfusion

/-- Each index is that of a node. -/
theorem lt_size (hspells : Spells nodes link t ids) {j : Nat} (hj : j ∈ ids) : j < nodes.size := by
  induction hspells with
  | leaf => exact absurd hj List.not_mem_nil
  | node hn hl hr ihl ihr =>
    rcases List.mem_append.mp hj with hj | hj
    · exact ihl hj
    · rcases List.mem_cons.mp hj with rfl | hj
      · exact (Array.getElem?_eq_some_iff.mp hn).choose
      · exact ihr hj

/-- Changes elsewhere make no difference. -/
theorem of_rewired {new : List Mapping} {changed : List Nat} (hspells : Spells nodes link t ids)
    (hrewired : Rewired changed new nodes nodes') (hapart : ∀ j ∈ ids, j ∉ changed) :
    Spells nodes' link t ids := by
  induction hspells with
  | leaf => exact .leaf
  | node hn hl hr ihl ihr =>
    refine .node (hrewired.outside _ _ (hapart _ (by simp)) hn) (ihl ?_) (ihr ?_)
    · intro j hj
      exact hapart j (by simp [hj])
    · intro j hj
      exact hapart j (by simp [hj])

/-- A change of a node that is not among those of the tree makes no difference. -/
theorem of_changed {new : List Mapping} {j : Nat} (hspells : Spells nodes link t ids)
    (hrewired : Rewired [j] new nodes nodes') (hj : j ∉ ids) : Spells nodes' link t ids := by
  refine hspells.of_rewired hrewired ?_
  rintro k hk hkj
  exact hj (List.mem_singleton.mp hkj ▸ hk)

theorem mem_toList {k : Mapping} (hspells : Spells nodes link t ids) :
    k ∈ t.toList ↔ ∃ j ∈ ids, ∃ n, nodes[j]? = some n ∧ n.mapping = k := by
  induction hspells with
  | leaf => simp [Tree.toList]
  | @node i n l r ls rs hn hl hr ihl ihr =>
    have hroot : k = n.mapping ↔ ∃ n', nodes[i]? = some n' ∧ n'.mapping = k := by
      simp [hn, eq_comm]
    simp only [Tree.toList, List.mem_append, List.mem_cons, ihl, ihr, hroot, or_and_right,
      exists_or, exists_eq_left]

theorem size_eq (hspells : Spells nodes link t ids) : t.size = ids.length := by
  induction hspells with
  | leaf => rfl
  | node hn hl hr ihl ihr =>
    rw [Tree.size, List.length_append, List.length_cons, ihl, ihr]
    omega

/-- The mappings are found by following the links. -/
theorem mappingsAt?_eq {levels : Nat} (hspells : Spells nodes link t ids)
    (hlevels : t.depth ≤ levels) : mappingsAt? nodes levels link = some t.toList := by
  induction hspells generalizing levels with
  | leaf => cases levels <;> rfl
  | node hn hl hr ihl ihr =>
    obtain ⟨levels, rfl⟩ := Nat.exists_eq_add_one.mpr (Nat.lt_of_lt_of_le (Nat.succ_pos _) hlevels)
    have hmax := Nat.max_le.mp (Nat.le_of_succ_le_succ hlevels)
    simp [mappingsAt?, hn, ihl hmax.1, ihr hmax.2, Tree.toList]

/-- The search along the links finds what the search of the tree finds. -/
theorem foldAt?_eq {steps : Nat} (hspells : Spells nodes link t ids) (hsteps : t.depth ≤ steps)
    (c : Codepoint) : foldAt? nodes c steps link = some (t.fold c) := by
  induction hspells generalizing steps with
  | leaf => cases steps <;> rfl
  | @node i n l r ls rs hn hl hr ihl ihr =>
    obtain ⟨steps, rfl⟩ := Nat.exists_eq_add_one.mpr (Nat.lt_of_lt_of_le (Nat.succ_pos _) hsteps)
    have hmax := Nat.max_le.mp (Nat.le_of_succ_le_succ hsteps)
    simp only [foldAt?, hn, Option.bind_eq_bind, Option.bind_some, Tree.fold]
    split
    next => exact ihl hmax.1
    next =>
      split
      next => exact ihr hmax.2
      next => rfl

end Spells

/-! ## Single steps -/

section Steps

variable {nodes : Array Node} {link : Option Nat} {t near far : Tree} {ids ns fs : List Nat}
  {side : Side} {i : Nat} {n : Node}

theorem reads_nodeAt (hn : nodes[i]? = some n) : Reads (nodeAt i) nodes n := by
  simp [Reads, nodeAt, hn]

theorem reads_heightAt (hspells : Spells nodes link t ids) :
    Reads (heightAt link) nodes t.height := by
  cases hspells with
  | leaf => exact reads_pure
  | node hn hl hr => exact (reads_nodeAt hn).bind reads_pure

theorem reads_excess (side : Side) (hn : nodes[i]? = some n)
    (hnear : Spells nodes (n.child side) near ns)
    (hfar : Spells nodes (n.child side.other) far fs) :
    Reads (excess side i) nodes (near.height - far.height : Int) :=
  (reads_nodeAt hn).bind ((reads_heightAt hnear).bind ((reads_heightAt hfar).bind reads_pure))

/-- A change that keeps the mapping leaves the mappings as they are. -/
theorem map_mapping_setIfInBounds {n' : Node} (hn : nodes[i]? = some n)
    (hmapping : n'.mapping = n.mapping) :
    (nodes.setIfInBounds i n').toList.map (·.mapping) = nodes.toList.map (·.mapping) := by
  have hget : nodes.toList[i]? = some n := by rw [Array.getElem?_toList, hn]
  rw [Array.toList_setIfInBounds, List.map_set, hmapping]
  apply List.ext_getElem?
  intro j
  rw [List.getElem?_set]
  split
  next heq =>
    have hlt : i < nodes.size := (Array.getElem?_eq_some_iff.mp hn).choose
    rw [← heq, if_pos (by simpa using hlt), List.getElem?_map, hget]
    rfl
  next => rfl

theorem ends_change {f : Node → Node} (hn : nodes[i]? = some n)
    (hmapping : (f n).mapping = n.mapping) :
    Ends (change i f) nodes fun _ nodes' =>
      nodes'[i]? = some (f n) ∧ Rewired [i] [] nodes nodes' := by
  have hlt : i < nodes.size := (Array.getElem?_eq_some_iff.mp hn).choose
  refine (reads_nodeAt hn).ends_bind ⟨(), nodes.setIfInBounds i (f n), rfl, ?_, ?_, ?_⟩
  · simp [hlt]
  · rw [map_mapping_setIfInBounds hn hmapping, List.append_nil]
  · intro j k hj hk
    have hne : i ≠ j := by
      rintro rfl
      exact hj List.mem_cons_self
    rw [Array.getElem?_setIfInBounds_ne hne, hk]

/-- A change that changes nothing. -/
theorem reads_change {f : Node → Node} (hn : nodes[i]? = some n) (hf : f n = n) :
    Reads (change i f) nodes () := by
  refine (reads_nodeAt hn).bind ?_
  have hsame : nodes.setIfInBounds i (f n) = nodes := by
    apply Array.ext_getElem?
    intro j
    rw [hf, Array.getElem?_setIfInBounds]
    split
    next heq => rw [← heq, hn]; split <;> simp_all
    next => rfl
  exact congrArg (fun nodes => some ((), nodes)) hsame

/-- The height of a node is worked out from its subtrees. -/
theorem ends_updateHeight (side : Side) (hn : nodes[i]? = some n)
    (hnear : Spells nodes (n.child side) near ns)
    (hfar : Spells nodes (n.child side.other) far fs) (hns : i ∉ ns) (hfs : i ∉ fs) :
    Ends (updateHeight i) nodes fun _ nodes' =>
      Spells nodes' (some i) (.branchOn side near n.mapping far) (side.order ns i fs) ∧
        Rewired [i] [] nodes nodes' := by
  have hheight : Ends (updateHeight i) nodes fun _ nodes' =>
      nodes'[i]? = some { n with height := max near.height far.height + 1 } ∧
        Rewired [i] [] nodes nodes' := by
    refine (reads_nodeAt hn).ends_bind ?_
    cases side with
    | left =>
      exact (reads_heightAt hnear).ends_bind ((reads_heightAt hfar).ends_bind (ends_change hn rfl))
    | right =>
      rw [Nat.max_comm]
      exact (reads_heightAt hfar).ends_bind ((reads_heightAt hnear).ends_bind (ends_change hn rfl))
  refine hheight.imp ?_
  rintro - nodes' ⟨hn', hrewired⟩
  refine ⟨?_, hrewired⟩
  rw [Tree.branchOn_eq_nodeOn]
  refine Spells.nodeOn side hn' ?_ ?_
  · cases side <;> exact hnear.of_changed hrewired hns
  · cases side <;> exact hfar.of_changed hrewired hfs

end Steps

end Store

end CaseFolding

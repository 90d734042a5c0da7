import CaseFolding.Proofs.Code.Form
import CaseFolding.Proofs.Code.Label
import CaseFolding.Proofs.Tree.Height
import CaseFolding.Proofs.Tree.Layout

namespace CaseFolding

/-! # Code for dispatch trees

The run of the code for a tree follows the search of the tree: from block to
block it jumps where the search goes down, and the last block delivers what the
search finds. Every label is found, because the layout shows each mapping once
and no two mappings share a label, and no more jumps are needed than there are
labels.
-/

/-! ## Labels of a tree -/

theorem Sink.labels_deliver (sink : Sink) (e : Value) : (sink.deliver e).labels = [] := by
  cases sink <;> rfl

/-- No form takes a label. -/
theorem Form.labels_code (sink : Sink) (form : Form) (span : Span) :
    (form.code sink span).labels = [] := by
  induction form generalizing span with
  | setException inner patch ih =>
    rw [code]
    split
    · exact ih inner
    · exact sink.labels_deliver _
  | _ => exact sink.labels_deliver _

namespace Tree

/-- The label of the block of a root. -/
def rootLabels (t : Tree) : List String :=
  t.root?.toList.map (·.span.label)

theorem labels_block (sink : Sink) (t : Tree) : (t.block sink).labels = [] := by
  cases t with
  | leaf => rfl
  | node h l m r => exact m.form.labels_code sink m.span

theorem labels_labelledBlock (sink : Sink) (t : Tree) :
    (t.labelledBlock sink).labels = t.rootLabels := by
  cases t with
  | leaf => rfl
  | node h l m r => exact congrArg (m.span.label :: ·) (labels_block sink (node h l m r))

theorem flatMap_rootLabels (ts : List Tree) :
    ts.flatMap rootLabels = (ts.filterMap root?).map (·.span.label) := by
  induction ts with
  | nil => rfl
  | cons t ts ih =>
    rw [List.flatMap_cons, ih]
    cases t <;> rfl

theorem labels_concat_labelledBlock (sink : Sink) (ts : List Tree) :
    (Code.concat (ts.map (labelledBlock sink))).labels = ts.flatMap rootLabels := by
  rw [Code.labels_concat, List.flatMap_map]
  exact congrArg (ts.flatMap ·) (funext (labels_labelledBlock sink))

/-- In an ordered tree no two mappings have the same label. -/
theorem nodup_labels {t : Tree} (ht : t.Ordered) : (t.toList.map (·.span.label)).Nodup := by
  rw [List.Nodup, List.pairwise_map]
  refine ht.imp ?_
  intro a b hab heq
  have hfirst : a.first = b.first := congrArg Span.first (Span.label_injective heq)
  rw [hfirst] at hab
  exact UInt32.lt_irrefl _ hab

/-! ## From block to block -/

section Blocks

open Code

variable {program : Code} {sink : Sink} {c v : Codepoint} {jumps made : Nat} {t u : Tree}

/-- In the program, the label of the root stands before its block. -/
def IsLinked (program : Code) (sink : Sink) (t : Tree) : Prop :=
  ∀ m ∈ t.root?, ∃ rest, program.after? m.span.label = some (t.block sink ++ rest)

/-- The most comparisons that are made on the way through a tree and in the form at its end. -/
def comparisons : Tree → Nat
  | leaf => 0
  | node _ l m r => max (max l.comparisons r.comparisons) (m.form.guards m.span) + 2

/-- Two comparisons are made at each level and, where no form takes more, two at the end. -/
theorem comparisons_le (h : ∀ m ∈ t.toList, m.form.guards m.span ≤ 2) :
    t.comparisons ≤ 2 * t.depth + 2 := by
  induction t with
  | leaf => exact Nat.zero_le _
  | node n l m r ihl ihr =>
    have hl := ihl fun k hk => h k (by simp [toList, hk])
    have hr := ihr fun k hk => h k (by simp [toList, hk])
    have hm := h m (by simp [toList])
    rw [comparisons, depth]
    omega

/-- Going on to a subtree delivers what its block delivers. -/
theorem yields_enter (hlinked : u.IsLinked program sink) (hjumps : u.depth ≤ jumps)
    (hv : u.fold c = .ok v)
    (hblock : ∀ j, u ≠ leaf → u.depth ≤ j + 1 → Yields program sink c j (u.block sink) v made) :
    Yields program sink c jumps (u.enter sink) v made := by
  cases u with
  | leaf =>
    rcases Except.ok.inj hv with rfl
    exact (yields_deliver fun _ => rfl).mono_made (Nat.zero_le made)
  | node h l m r =>
    rcases hlinked m rfl with ⟨rest, hrest⟩
    cases jumps with
    | zero => simp [depth] at hjumps
    | succ jumps => exact (hblock jumps Tree.noConfusion hjumps).goto hrest

variable {h : Nat} {l r : Tree} {m : Mapping}

/-- Below the bounds of its mapping a block goes on to the left, after one test. -/
theorem yields_block_of_lt (hc : c < m.first)
    (henter : Yields program sink c jumps (l.enter sink) v made) :
    Yields program sink c jumps ((node h l m r).block sink) v (1 + made) := by
  refine Yields.guarded_true ?_ henter
  simpa [Test.holds, Relation.holds] using hc

/-- Above the bounds it goes on to the right, after two tests. -/
theorem yields_block_of_gt (hfirst : ¬ c < m.first) (hlast : m.last < c)
    (henter : Yields program sink c jumps (r.enter sink) v made) :
    Yields program sink c jumps ((node h l m r).block sink) v (1 + (1 + made)) := by
  refine Yields.guarded_false ?_ (Yields.guarded_true ?_ henter)
  · simpa [Test.holds, Relation.holds] using hfirst
  · simpa [Test.holds, Relation.holds] using hlast

/-- Between the bounds the form of the mapping gives the result, after the same two tests. -/
theorem yields_block_of_contains (hfirst : ¬ c < m.first) (hlast : ¬ m.last < c)
    (hform : Yields program sink c jumps (m.form.code sink m.span) v made) :
    Yields program sink c jumps ((node h l m r).block sink) v (1 + (1 + made)) := by
  refine Yields.guarded_false ?_ (Yields.guarded_false ?_ hform)
  · simpa [Test.holds, Relation.holds] using hfirst
  · simpa [Test.holds, Relation.holds] using hlast

/-- The block of a tree delivers what the search of the tree finds, if the labels of the subtrees
below are found. -/
theorem yields_block {linked : List Tree}
    (hlinked : ∀ t ∈ linked, ∀ u, u = t.left ∨ u = t.right →
      u.IsLinked program sink ∧ (u ≠ leaf → u ∈ linked))
    (hfits : ∀ m ∈ t.toList, m.Fits) (hv : t.fold c = .ok v) (ht : t ∈ linked) (hne : t ≠ leaf)
    (hjumps : t.depth ≤ jumps + 1) :
    Yields program sink c jumps (t.block sink) v t.comparisons := by
  -- on the subtrees; each jump goes one level down, so as many are left as there are levels
  induction t generalizing jumps with
  | leaf => exact absurd rfl hne
  | node h l m r ihl ihr =>
    rcases hlinked _ ht l (.inl rfl) with ⟨hl, hlmem⟩
    rcases hlinked _ ht r (.inr rfl) with ⟨hr, hrmem⟩
    have hdepth : max l.depth r.depth ≤ jumps := Nat.le_of_succ_le_succ hjumps
    rw [fold] at hv
    rw [comparisons]
    split at hv
    next hlt =>
      -- the search goes left, and so does the jump
      have henter : Yields program sink c jumps (enter sink l) v l.comparisons := by
        refine yields_enter hl (Nat.le_trans (Nat.le_max_left _ _) hdepth) hv ?_
        intro j hlne hj
        exact ihl (fun k hk => hfits k (by simp [toList, hk])) hv (hlmem hlne) hlne hj
      exact (yields_block_of_lt hlt henter).mono_made (by omega)
    next hge =>
      split at hv
      next hgt =>
        -- the search goes right
        have henter : Yields program sink c jumps (enter sink r) v r.comparisons := by
          refine yields_enter hr (Nat.le_trans (Nat.le_max_right _ _) hdepth) hv ?_
          intro j hrne hj
          exact ihr (fun k hk => hfits k (by simp [toList, hk])) hv (hrmem hrne) hrne hj
        exact (yields_block_of_gt hge hgt henter).mono_made (by omega)
      next hle =>
        -- the search ends here
        have hc : m.span.contains c = true :=
          Span.contains_iff.mpr ⟨UInt32.not_lt.mp hge, UInt32.not_lt.mp hle⟩
        have hfit : m.Fits := hfits m (by simp [toList])
        exact (yields_block_of_contains hge hle (Form.yields_code hfit hc hv)).mono_made (by omega)

end Blocks

/-! ## The whole program -/

variable {t : Tree} {sink : Sink} {c v : Codepoint}

/-- A tree that fits its spans has a result for every codepoint. -/
theorem exists_fold_eq_ok (hfits : ∀ m ∈ t.toList, m.Fits) (c : Codepoint) :
    ∃ v, t.fold c = .ok v := by
  induction t with
  | leaf => exact ⟨c, rfl⟩
  | node h l m r ihl ihr =>
    rw [fold]
    split
    next => exact ihl fun k hk => hfits k (by simp [toList, hk])
    next hge =>
      split
      next => exact ihr fun k hk => hfits k (by simp [toList, hk])
      next hle =>
        exact Form.exists_apply_eq_ok (hfits m (by simp [toList]))
          (Span.contains_iff.mpr ⟨UInt32.not_lt.mp hge, UInt32.not_lt.mp hle⟩)

theorem nodup_rootLabels_descendants (ht : t.Ordered) (hheight : t.height = t.depth) :
    (t.descendants.flatMap rootLabels).Nodup := by
  -- each mapping is shown once
  have hperm := (filterMap_root?_descendants hheight).map (·.span.label)
  have hall := hperm.nodup_iff.mpr (nodup_labels ht)
  rw [flatMap_rootLabels]
  exact hall.sublist (((List.sublist_cons_self t t.descendants).filterMap root?).map _)

theorem code_eq_append (hheight : t.height = t.depth) (hne : t ≠ leaf) :
    t.code sink = t.block sink ++ Code.concat (t.descendants.map (labelledBlock sink)) := by
  rw [code, layout_eq_cons hheight hne]

/-- In the code for an ordered tree, the block of every subtree below the root stands behind its
label. -/
theorem isLinked_of_mem_descendants (ht : t.Ordered) (hheight : t.height = t.depth) (hne : t ≠ leaf)
    {u : Tree} (hu : u ∈ t.descendants) : u.IsLinked (t.code sink) sink := by
  intro m hm
  have hlabelled : .next (.label m.span.label) (u.block sink) = u.labelledBlock sink := by
    cases u with
    | leaf => exact absurd hm nofun
    | node h l k r =>
      rcases Option.some.inj hm with rfl
      rfl
  have hmem : .next (.label m.span.label) (u.block sink) ∈ t.descendants.map (labelledBlock sink) := by
    rw [hlabelled]
    exact List.mem_map_of_mem hu
  have hnodup : (Code.concat (t.descendants.map (labelledBlock sink))).labels.Nodup := by
    rw [labels_concat_labelledBlock]
    exact nodup_rootLabels_descendants ht hheight
  rcases Code.after?_concat hnodup hmem with ⟨rest, hrest⟩
  refine ⟨rest, ?_⟩
  rw [code_eq_append hheight hne, Code.after?_append, hrest]
  rw [labels_block]
  exact List.not_mem_nil

/-- The code for a tree has a label for each mapping but the one at the root. -/
theorem labelCount_code (sink : Sink) (hheight : t.height = t.depth) (hne : t ≠ leaf) :
    (t.code sink).labelCount + 1 = t.size := by
  have hperm := (filterMap_root?_descendants hheight).length_eq
  rw [length_toList] at hperm
  rw [← hperm, ← Code.length_labels, code_eq_append hheight hne, Code.labels_append, labels_block,
    labels_concat_labelledBlock, flatMap_rootLabels]
  cases t with
  | leaf => exact absurd rfl hne
  | node h l m r => simp [root?]

/-- The code for an ordered tree delivers what the search of the tree finds. -/
theorem delivers_code (ht : t.Ordered) (hheight : t.height = t.depth)
    (hfits : ∀ m ∈ t.toList, m.Fits) (hv : t.fold c = .ok v) :
    sink.Delivers v ((t.code sink).run c) ∧
      ((t.code sink).run c).2.comparisons ≤ t.comparisons := by
  by_cases hne : t = leaf
  · -- without mappings the code is a single delivery
    subst hne
    rcases Except.ok.inj hv with rfl
    have hyields : Code.Yields (sink.deliver .same) sink c (sink.deliver .same).labelCount
        (sink.deliver .same) c 0 := Code.yields_deliver fun _ => rfl
    rcases hyields .done {} with ⟨s, hrun, hassigned, hmade⟩
    rw [Code.append_done] at hrun
    have hcode : (leaf.code sink).run c = (sink.ending c, s) := hrun
    rw [hcode]
    exact ⟨⟨rfl, hassigned⟩, hmade⟩
  · -- whatever has a place is linked, and so is closed under going down
    have hlinked : ∀ p ∈ t.layout, ∀ u, u = p.left ∨ u = p.right →
        u.IsLinked (t.code sink) sink ∧ (u ≠ leaf → u ∈ t.layout) := by
      intro p hp u hu
      by_cases huleaf : u = leaf
      · rw [huleaf]
        exact ⟨nofun, fun h => absurd rfl h⟩
      · have hbelow := mem_descendants_of_child hheight hp hu huleaf
        refine ⟨isLinked_of_mem_descendants ht hheight hne hbelow, fun _ => ?_⟩
        rw [layout_eq_cons hheight hne]
        exact List.mem_cons_of_mem t hbelow
    have hroot : t ∈ t.layout := by
      rw [layout_eq_cons hheight hne]
      exact List.mem_cons_self
    -- a path down is no longer than there are mappings
    have hjumps : t.depth ≤ (t.code sink).labelCount + 1 := by
      rw [labelCount_code sink hheight hne]
      exact depth_le_size t
    obtain ⟨s, hrun, hassigned, hmade⟩ :=
      yields_block hlinked hfits hv hroot hne hjumps
        (Code.concat (t.descendants.map (labelledBlock sink))) {}
    rw [← code_eq_append hheight hne] at hrun
    rw [Code.run, hrun]
    refine ⟨⟨rfl, hassigned⟩, ?_⟩
    simpa using hmade

end Tree

end CaseFolding

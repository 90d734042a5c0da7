import CaseFolding.Listing
import CaseFolding.Proofs.Code.Measure
import CaseFolding.Proofs.Code.Readable
import CaseFolding.Proofs.Tree.Store

namespace CaseFolding

/-! # What the statistics say of a text

The statistics of a tree are worked out from its mappings. They come to the same
as taking account of one block after the other, and they say how many blocks,
comparisons and bytes of lookup tables are found in the text.
-/

/-! ## Counts of kinds -/

namespace KindCounts

theorem none_add (a : KindCounts) : none.add a = a := rfl

theorem add_none (a : KindCounts) : a.add none = a := by
  funext k
  unfold add
  cases a k <;> rfl

theorem add_assoc (a b c : KindCounts) : (a.add b).add c = a.add (b.add c) := by
  funext k
  unfold add
  cases a k <;> cases b k <;> cases c k <;> simp [Nat.add_assoc]

/-- The kinds of two lists are counted together. -/
theorem ofList_append (as bs : List Kind) : ofList (as ++ bs) = (ofList as).add (ofList bs) := by
  funext k
  unfold ofList add
  by_cases ha : k ∈ as <;> by_cases hb : k ∈ bs
  · simp [ha, hb, List.count_append]
  · simp [ha, hb, List.count_append, List.count_eq_zero_of_not_mem hb]
  · simp [ha, hb, List.count_append, List.count_eq_zero_of_not_mem ha]
  · simp [ha, hb]

theorem ofList_perm {as bs : List Kind} (h : as.Perm bs) : ofList as = ofList bs := by
  funext k
  simp only [ofList, h.mem_iff, h.count_eq]

/-- A kind of the list has its number of occurrences, and no other kind is listed. -/
theorem ofList_eq_some_iff {ks : List Kind} {k : Kind} {n : Nat} :
    ofList ks k = some n ↔ k ∈ ks ∧ ks.count k = n := by
  rw [ofList, Option.ite_none_right_eq_some, Option.some_inj]

/-- Each element of a list has one kind. -/
theorem sum_count_all (ks : List Kind) : (Kind.all.map ks.count).sum = ks.length := by
  induction ks with
  | nil => rfl
  | cons k ks ih =>
    simp only [Kind.all, List.map_cons, List.map_nil, List.sum_cons, List.sum_nil,
      List.length_cons, List.count_cons] at ih ⊢
    cases k <;> simp <;> omega

end KindCounts

/-! ## Block by block -/

namespace Stats

/-- Takes account of the block of one more mapping. -/
def record (s : Stats) (m : Mapping) : Stats where
  intervals := s.intervals + 1
  branches := s.branches + (m.form.guards m.span + 1)
  dataSize := s.dataSize + m.form.tableBytes
  height := s.height
  kinds := s.kinds.add (KindCounts.ofList [m.form.kind])

/-- What comes of recording several mappings. -/
theorem foldl_record (ms : List Mapping) (s : Stats) :
    ms.foldl record s =
      { intervals := s.intervals + ms.length
        branches := s.branches + (ms.map fun m => m.form.guards m.span + 1).sum
        dataSize := s.dataSize + (ms.map fun m => m.form.tableBytes).sum
        height := s.height
        kinds := s.kinds.add (KindCounts.ofList (ms.map (·.form.kind))) } := by
  induction ms generalizing s with
  | nil =>
    have hkinds : s.kinds.add (KindCounts.ofList []) = s.kinds := KindCounts.add_none s.kinds
    simp [hkinds]
  | cons m ms ih =>
    have hkinds : KindCounts.ofList ((m :: ms).map (·.form.kind)) =
        (KindCounts.ofList [m.form.kind]).add (KindCounts.ofList (ms.map (·.form.kind))) :=
      KindCounts.ofList_append [m.form.kind] _
    rw [List.foldl_cons, ih, hkinds, ← KindCounts.add_assoc]
    ext1
    · simp only [record, List.length_cons]
      omega
    · simp only [record, List.map_cons, List.sum_cons]
      omega
    · simp only [record, List.map_cons, List.sum_cons]
      omega
    · rfl
    · rfl

/-- The statistics of a tree are those of recording its blocks one after the other. -/
theorem ofTree_eq_foldl_record {t : Tree} (hheight : t.height = t.depth) :
    ofTree t = (t.layout.filterMap Tree.root?).foldl record { height := t.height } := by
  have hperm := Tree.filterMap_root?_layout hheight
  rw [foldl_record, ofTree, Tree.total_eq_sum, Tree.total_eq_sum, ← t.length_toList]
  ext1
  · simp [hperm.length_eq]
  · simp [(hperm.map fun m => m.form.guards m.span + 1).sum_eq]
  · simp [(hperm.map fun m => m.form.tableBytes).sum_eq]
  · rfl
  · rw [KindCounts.none_add]
    exact (KindCounts.ofList_perm (hperm.map _)).symm

/-! ## The text -/

/-- Statistics tell of a tree, of the store that has taken the same mappings, and of the code that
is printed for it. -/
structure Describes (s : Stats) (t : Tree) (store : Store) (program : Code) : Prop where
  /-- There is an interval for each mapping of the tree. -/
  intervals : s.intervals = t.size
  /-- There is one for each node that is stored. -/
  nodes : s.intervals = store.nodes.size
  /-- Unless there is none, there is one for each block of the code. -/
  blocks : t ≠ .leaf → s.intervals = program.blockCount
  /-- A kind that occurs at the top of a mapping is listed with the number of such mappings. -/
  kinds : ∀ k n, s.kinds k = some n ↔
    (∃ m ∈ t.toList, m.form.kind = k) ∧ t.toList.countP (·.form.kind == k) = n
  /-- All mappings are counted with some kind. -/
  counts : (Kind.all.map s.count).sum = s.intervals
  /-- The height is that of the tree. -/
  height : s.height = t.depth
  /-- It is the height that is stored. -/
  storedHeight : Store.Reads (Store.heightAt store.root) store.nodes s.height
  /-- With one comparison more for each interval, the branches are the comparisons in the conditions
  of the code. -/
  branches : s.branches + s.intervals = program.testCount
  /-- The lookup tables of the code take so many elements of so many bytes each. -/
  dataSize : s.dataSize = (program.tables.map fun c => c.values.length * c.element.bytes).sum
  /-- This is what comes of taking account of one block after the other. -/
  recorded : s = (t.layout.filterMap Tree.root?).foldl record { height := t.height }

theorem kinds_ofTree_eq_some_iff {t : Tree} {k : Kind} {n : Nat} :
    (ofTree t).kinds k = some n ↔
      (∃ m ∈ t.toList, m.form.kind = k) ∧ t.toList.countP (·.form.kind == k) = n := by
  rw [ofTree, KindCounts.ofList_eq_some_iff, List.mem_map, List.count, List.countP_map]
  rfl

/-- A kind that is not listed occurs as often as one that is listed with no occurrence. -/
theorem count_ofTree (t : Tree) (k : Kind) :
    (ofTree t).count k = (t.toList.map (·.form.kind)).count k := by
  change (KindCounts.ofList _ k).getD 0 = _
  unfold KindCounts.ofList
  split
  next => rfl
  next hmem => exact (List.count_eq_zero_of_not_mem hmem).symm

theorem sum_count_ofTree (t : Tree) : (Kind.all.map (ofTree t).count).sum = t.size := by
  rw [List.map_congr_left fun k _ => count_ofTree t k, KindCounts.sum_count_all, List.length_map,
    Tree.length_toList]

/-- The branches of a tree and one comparison more for each mapping. -/
theorem branches_add_intervals (t : Tree) :
    (ofTree t).branches + (ofTree t).intervals = t.total fun m => m.form.guards m.span + 2 := by
  change (t.total fun m => m.form.guards m.span + 1) + t.size = _
  induction t with
  | leaf => rfl
  | node h l m r ihl ihr =>
    simp only [Tree.total, Tree.size] at ihl ihr ⊢
    omega

/-- The statistics of a tree describe it and the code for it. -/
theorem describes_ofTree {t : Tree} {store : Store} (sink : Sink) (hheight : t.height = t.depth)
    (hstore : store.Holds t) : (ofTree t).Describes t store (t.code sink) := by
  rcases hstore with ⟨ids, hspells, hperm⟩
  rcases Tree.counts_code sink hheight with ⟨htests, hbytes⟩
  constructor
  case intervals => rfl
  case nodes =>
    change t.size = _
    rw [hspells.size_eq, hperm.length_eq, List.length_range]
  case blocks =>
    intro hne
    exact (Tree.labelCount_code sink hheight hne).symm
  case kinds =>
    intro k n
    exact kinds_ofTree_eq_some_iff
  case counts => exact sum_count_ofTree t
  case height => exact hheight
  case storedHeight => exact Store.reads_heightAt hspells
  case branches => rw [branches_add_intervals, htests]
  case dataSize => exact hbytes.symm
  case recorded => exact ofTree_eq_foldl_record hheight

end Stats

/-- Whatever mappings are inserted, wherever results go and whatever the variable is called, the
statistics describe the tree and its text, and they do not depend on the variable and the sink. -/
theorem Tree.stats_describe_text (ms : List Mapping) {var : String} (hvar : Code.IsIdentifier var)
    {sink : Sink} (hsink : sink.IsNamed) :
    ∃ store program, Store.ofList ms = some store ∧
      Code.read? var ((ofList ms).listing var sink).text = some program ∧
      ((ofList ms).listing var sink).stats.Describes (ofList ms) store program ∧
      ∀ var' sink', ((ofList ms).listing var' sink').stats = ((ofList ms).listing var sink).stats := by
  obtain ⟨store, hstore, hholds⟩ := Store.exists_ofList ms
  have hheight := height_eq_depth (isHeighted_ofList ms)
  have hread : Code.read? var ((ofList ms).listing var sink).text = some ((ofList ms).code sink) :=
    Code.read?_text hvar (isReadable_code hsink (ofList ms))
  refine ⟨store, _, hstore, hread, Stats.describes_ofTree sink hheight hholds, ?_⟩
  intro var' sink'
  rfl

/-- A patch for a whole span, in which a smaller patch has a lookup table, among mappings that come
out of order and one that is not taken. -/
theorem Tree.stats_describe_text_nested :
    let ms : List Mapping :=
      [⟨⟨0x200, 0x21A⟩, .delta (-32)⟩,
       ⟨⟨0x100, 0x103⟩, .setException ⟨0x100, 0x103⟩
         (.setException ⟨0x101, 0x102⟩ (.table [0x41, 0x1FFFFF]))⟩,
       ⟨⟨0x41, 0x46⟩, .deltaException 32 0x43 0x99⟩,
       ⟨⟨0x100, 0x100⟩, .single 0x101⟩]
    let listing := (ofList ms).listing "c" .toCaller
    Code.IsIdentifier "c" ∧ Sink.toCaller.IsNamed ∧ ofList ms ≠ leaf ∧
      ∃ store program, Store.ofList ms = some store ∧
        Code.read? "c" listing.text = some program ∧
        store.nodes.size = 3 ∧ program.blockCount = 3 ∧ program.testCount = 6 + 3 ∧
        (program.tables.map fun c => c.values.length * c.element.bytes).sum = 8 ∧
        listing.stats.kinds .setException = some 1 ∧
        ((ofList ms).listing "x" (.toVariable "r")).stats = listing.stats := by
  intro ms listing
  have hvar : Code.IsIdentifier "c" := by decide
  have hsink : Sink.toCaller.IsNamed := trivial
  have hne : ofList ms ≠ leaf := by decide
  obtain ⟨store, program, hstore, hread, hdescribes, hsame⟩ := stats_describe_text ms hvar hsink
  refine ⟨hvar, hsink, hne, store, program, hstore, hread, ?_, ?_, ?_, ?_, ?_, hsame "x" _⟩
  · exact hdescribes.nodes.symm
  · exact (hdescribes.blocks hne).symm
  · exact hdescribes.branches.symm
  · exact hdescribes.dataSize.symm
  · exact (hdescribes.kinds .setException 1).mpr (by decide)

end CaseFolding

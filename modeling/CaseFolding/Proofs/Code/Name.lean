import CaseFolding.Proofs.Code.Flow
import CaseFolding.Proofs.Table.Tree

namespace CaseFolding

/-! # Names of labels and lookup tables

The code for a tree makes its names of spans: a label of the span of a mapping,
the name of a lookup table of that span as well or of an inner one. Where the
spans of the mappings lie apart and the inner ones within them, all names are
different, and so are those in the codes for spans that lie apart.
-/

/-! ## Names of spans -/

namespace Span

variable {s t : Span} {name : String}

theorem tableName_injective : Function.Injective tableName := by
  intro s t h
  have hchars := congrArg String.toList h
  simp only [tableName, String.toList_append] at hchars
  exact suffix_injective (String.toList_inj.mp (List.append_cancel_left hchars))

theorem label_ne_tableName (s t : Span) : s.label ≠ t.tableName := by
  intro h
  have hhead := congrArg (·.toList.head?) h
  simp [label, tableName, String.toList_append] at hhead

/-- The name is made of the span. -/
def Names (s : Span) (name : String) : Prop :=
  name = s.label ∨ name = s.tableName

/-- A span is told by any of its names. -/
theorem Names.unique (hs : s.Names name) (ht : t.Names name) : s = t := by
  rcases hs with rfl | rfl <;> rcases ht with ht | ht
  · exact label_injective ht
  · exact absurd ht (label_ne_tableName s t)
  · exact absurd ht.symm (label_ne_tableName t s)
  · exact tableName_injective ht

end Span

/-! ## Names in code -/

/-- The name of the lookup table that a statement declares. -/
def Stmt.table? : Stmt → Option String
  | .declare t => some t.name
  | _ => none

/-- The names of all labels and lookup tables. -/
def Code.names (a : Code) : List String :=
  a.collect Stmt.label? ++ a.collect Stmt.table?

theorem Sink.collect_table?_deliver (sink : Sink) (e : Value) :
    (sink.deliver e).collect Stmt.table? = [] := by
  cases sink <;> rfl

theorem Sink.collect_table?_lookup (sink : Sink) (span : Span) (values : List Codepoint) :
    (sink.lookup span values).collect Stmt.table? = [span.tableName] :=
  congrArg (span.tableName :: ·) (sink.collect_table?_deliver _)

/-! ## Lookup tables -/

namespace Form

variable {form : Form} {span s : Span}

/-- The span of the lookup table that a form needs. No form needs more than one. -/
def tableSpan? : Form → (span : Span) → Option Span
  | reset _, span => some span
  | table _, span => some span
  | setException inner patch, _ => patch.tableSpan? inner
  | _, _ => none

/-- The code for a form declares the lookup table that the form needs. -/
theorem collect_table?_code (sink : Sink) (form : Form) (span : Span) :
    (form.code sink span).collect Stmt.table? =
      (form.tableSpan? span).toList.map Span.tableName := by
  induction form generalizing span with
  | deltaException d exception result =>
    rw [code, Code.collect_guarded, sink.collect_table?_deliver, sink.collect_table?_deliver]
    rfl
  | reset values => exact sink.collect_table?_lookup span values
  | table values => exact sink.collect_table?_lookup span values
  | setException inner patch ih =>
    rw [code, tableSpan?, ← ih inner]
    split
    · rfl
    · rw [Code.collect_guarded, sink.collect_table?_deliver, List.append_nil]
  | _ => exact sink.collect_table?_deliver _

/-- The lookup table of a shallow form is one for a span within that of the form. -/
theorem IsShallow.contains_tableSpan (h : form.IsShallow span) (hle : span.first ≤ span.last)
    (hs : form.tableSpan? span = some s) : span.contains s.first = true := by
  have hfirst : span.contains span.first = true :=
    Span.contains_iff.mpr ⟨UInt32.le_refl _, hle⟩
  cases form with
  | reset values => exact Option.some.inj hs ▸ hfirst
  | table values => exact Option.some.inj hs ▸ hfirst
  | setException inner patch =>
    rcases h with ⟨hinner, -, hlisted⟩
    cases patch with
    | single result => exact absurd hs nofun
    | table values => exact Option.some.inj hs ▸ hinner
    | _ => exact hlisted.elim
  | _ => exact absurd hs nofun

end Form

/-- The span of the lookup table of a mapping. -/
def Mapping.tableSpan? (m : Mapping) : Option Span :=
  m.form.tableSpan? m.span

/-! ## Trees -/

namespace Tree

variable {sink : Sink} {t : Tree} {name : String}

theorem collect_table?_enter (sink : Sink) (t : Tree) :
    (t.enter sink).collect Stmt.table? = [] := by
  cases t with
  | leaf => exact sink.collect_table?_deliver .same
  | node h l m r => rfl

/-- A block declares the lookup table of its mapping. -/
theorem collect_table?_block (sink : Sink) (t : Tree) :
    (t.block sink).collect Stmt.table? =
      (t.root?.bind Mapping.tableSpan?).toList.map Span.tableName := by
  cases t with
  | leaf => rfl
  | node h l m r =>
    rw [block, Code.collect_guarded, Code.collect_guarded, collect_table?_enter,
      collect_table?_enter]
    exact m.form.collect_table?_code sink m.span

/-- So does the code that comes first. -/
theorem collect_table?_opening (sink : Sink) (t : Tree) :
    (t.opening sink).collect Stmt.table? =
      (t.root?.bind Mapping.tableSpan?).toList.map Span.tableName := by
  unfold opening
  split
  next hleaf =>
    rw [hleaf]
    exact sink.collect_table?_deliver .same
  next => exact collect_table?_block sink t

theorem collect_table?_labelledBlock (sink : Sink) (t : Tree) :
    (t.labelledBlock sink).collect Stmt.table? =
      (t.root?.bind Mapping.tableSpan?).toList.map Span.tableName := by
  rw [← collect_table?_block sink t]
  cases t <;> rfl

/-- Labelled blocks declare the lookup tables of their mappings. -/
theorem collect_table?_concat (sink : Sink) (ts : List Tree) :
    (Code.concat (ts.map (labelledBlock sink))).collect Stmt.table? =
      (ts.filterMap fun t => t.root?.bind Mapping.tableSpan?).map Span.tableName := by
  induction ts with
  | nil => rfl
  | cons t ts ih =>
    have hcons : Code.concat ((t :: ts).map (labelledBlock sink)) =
        t.labelledBlock sink ++ Code.concat (ts.map (labelledBlock sink)) := rfl
    rw [hcons, Code.collect_append, ih, collect_table?_labelledBlock, List.filterMap_cons]
    cases t.root?.bind Mapping.tableSpan? <;> rfl

theorem collect_label?_code (sink : Sink) (hheight : t.height = t.depth) :
    (t.code sink).collect Stmt.label? = t.descendants.flatMap rootLabels := by
  rw [code_eq_opening_append sink hheight, Code.collect_append, collect_label?_opening,
    collect_label?_concat]
  rfl

/-- The code for a tree declares the lookup tables of its mappings. -/
theorem collect_table?_code (sink : Sink) (hheight : t.height = t.depth) :
    ((t.code sink).collect Stmt.table?).Perm
      ((t.toList.filterMap Mapping.tableSpan?).map Span.tableName) := by
  have hperm := (filterMap_root?_descendants hheight).filterMap Mapping.tableSpan?
  rw [List.filterMap_filterMap] at hperm
  refine .trans (.of_eq ?_) (hperm.map Span.tableName)
  rw [code_eq_opening_append sink hheight, Code.collect_append, collect_table?_opening,
    collect_table?_concat, List.filterMap_cons]
  cases t.root?.bind Mapping.tableSpan? <;> rfl

/-- Mappings whose spans lie apart, with all inner spans within them. -/
structure IsTidy (ms : List Mapping) : Prop where
  separated : Separated ms
  shallow : ∀ m ∈ ms, m.form.IsShallow m.span

/-- Each name in the code for such mappings is made of a span within one of theirs. -/
theorem IsTidy.exists_span_of_mem_names (h : IsTidy t.toList) (hheight : t.height = t.depth)
    (hname : name ∈ (t.code sink).names) :
    ∃ m ∈ t.toList, ∃ s : Span, m.contains s.first = true ∧ s.Names name := by
  rcases List.mem_append.mp hname with hname | hname
  · rw [collect_label?_code sink hheight, flatMap_rootLabels] at hname
    rcases List.mem_map.mp hname with ⟨m, hm, rfl⟩
    have hmem : m ∈ t.toList :=
      (filterMap_root?_descendants hheight).mem_iff.mp
        ((List.sublist_cons_self t t.descendants).filterMap root? |>.mem hm)
    exact ⟨m, hmem, m.span, contains_iff.mpr ⟨UInt32.le_refl _, h.separated.1 m hmem⟩, .inl rfl⟩
  · rcases List.mem_map.mp ((collect_table?_code sink hheight).mem_iff.mp hname) with ⟨s, hs, rfl⟩
    rcases List.mem_filterMap.mp hs with ⟨m, hmem, hs⟩
    have hcontains := (h.shallow m hmem).contains_tableSpan (h.separated.1 m hmem) hs
    exact ⟨m, hmem, s, hcontains, .inr rfl⟩

/-- The lookup tables of such mappings have spans of their own. -/
theorem IsTidy.nodup_tableSpans {ms : List Mapping} (h : IsTidy ms) :
    (ms.filterMap Mapping.tableSpan?).Nodup := by
  rw [List.Nodup, List.pairwise_filterMap]
  refine h.separated.2.imp_of_mem ?_
  rintro a b ha hb hab s hs s' hs' rfl
  -- the span would start in both
  have hsa := (h.shallow a ha).contains_tableSpan (h.separated.1 a ha) hs
  have hsb := (h.shallow b hb).contains_tableSpan (h.separated.1 b hb) hs'
  have hle := UInt32.le_trans (Span.contains_iff.mp hsb).1 (Span.contains_iff.mp hsa).2
  exact UInt32.not_lt.mpr hle hab

/-- No name occurs twice in the code for such mappings. -/
theorem IsTidy.nodup_names (h : IsTidy t.toList) (hheight : t.height = t.depth) :
    (t.code sink).names.Nodup := by
  refine List.nodup_append.mpr ⟨?_, ?_, ?_⟩
  · rw [collect_label?_code sink hheight]
    exact nodup_rootLabels_descendants h.separated.ascending hheight
  · rw [(collect_table?_code sink hheight).nodup_iff]
    exact h.nodup_tableSpans.map Span.tableName_injective
  · intro l hl name hname
    rw [collect_label?_code sink hheight, flatMap_rootLabels] at hl
    rcases List.mem_map.mp hl with ⟨m, -, rfl⟩
    rcases List.mem_map.mp ((collect_table?_code sink hheight).mem_iff.mp hname) with ⟨s, -, rfl⟩
    exact m.span.label_ne_tableName s

end Tree

/-! ## Tables -/

namespace Table

variable {t : Table} {span : Span} {gap : UInt32} {s : Switches} {sink : Sink} {name : String}

theorem isTidy_tree (t : Table) (span : Span) (gap : UInt32) (s : Switches) :
    Tree.IsTidy (t.tree span gap s).toList := by
  rw [toList_tree]
  exact ⟨t.separated_mappings span gap s, fun _ hm => isShallow_mappings hm⟩

/-- No name occurs twice in the code for a table. -/
theorem nodup_names_tree (t : Table) (span : Span) (gap : UInt32) (s : Switches) (sink : Sink) :
    ((t.tree span gap s).code sink).names.Nodup :=
  (t.isTidy_tree span gap s).nodup_names (t.height_tree span gap s)

/-- All names in the code for a span of a table are made of spans within it. -/
theorem exists_span_of_mem_names (hname : name ∈ ((t.tree span gap s).code sink).names) :
    ∃ inner : Span, span.contains inner.first = true ∧ inner.Names name := by
  obtain ⟨m, hm, inner, hinner, hnames⟩ :=
    (t.isTidy_tree span gap s).exists_span_of_mem_names (t.height_tree span gap s) hname
  rw [toList_tree] at hm
  exact ⟨inner, (apply_of_mem_mappings hm hinner).2, hnames⟩

end Table

end CaseFolding

import CaseFolding.Proofs.Code.Flow
import Mathlib.Algebra.BigOperators.Group.List.Basic

namespace CaseFolding

/-! # What the text of code holds

The comparisons in the conditions of a text and the lookup tables in it can be
counted without running it. Such counts add up from piece to piece, so those
for a tree are made of those for its blocks, in whatever order the blocks stand.
-/

/-! ## Counts -/

/-- The lookup table that a statement declares. -/
def Stmt.constTable? : Stmt → Option ConstTable
  | .declare t => some t
  | _ => none

/-- The bytes taken by the elements of a lookup table. -/
def ConstTable.bytes (t : ConstTable) : Nat :=
  t.values.length * t.element.bytes

namespace Code

/-- The number of comparisons that are written in the conditions of blocks. -/
def testCount : Code → Nat
  | done => 0
  | next _ rest => rest.testCount
  | guarded tests body rest => tests.length + body.testCount + rest.testCount

/-- The lookup tables, in the order of the text. -/
def tables (a : Code) : List ConstTable :=
  a.collect Stmt.constTable?

/-- The bytes taken by all lookup tables. -/
def tableBytes (a : Code) : Nat :=
  (a.tables.map ConstTable.bytes).sum

/-- The number of pieces into which the labels cut the code. -/
def blockCount (a : Code) : Nat :=
  a.labelCount + 1

/-- A count that adds up from piece to piece and takes no notice of labels. -/
structure IsMeasure (count : Code → Nat) : Prop where
  done : count done = 0
  label : ∀ l a, count (next (.label l) a) = count a
  append : ∀ a b : Code, count (a ++ b) = count a + count b

/-- Comparisons are counted piece by piece. -/
theorem isMeasure_testCount : IsMeasure testCount where
  done := rfl
  label _ _ := rfl
  append a b := by
    induction a with
    | done => exact (Nat.zero_add _).symm
    | next s rest ih => exact ih
    | guarded tests body rest _ ih =>
      have happend : (guarded tests body rest ++ b).testCount =
          tests.length + body.testCount + (rest ++ b).testCount := rfl
      rw [happend, ih, testCount, Nat.add_assoc _ rest.testCount]

theorem isMeasure_tableBytes : IsMeasure tableBytes where
  done := rfl
  label _ _ := rfl
  append a b := by
    rw [tableBytes, tables, collect_append, List.map_append, List.sum_append]
    rfl

theorem tableBytes_guarded (tests : List Test) (body rest : Code) :
    (guarded tests body rest).tableBytes = body.tableBytes + rest.tableBytes := by
  rw [tableBytes, tables, collect_guarded, List.map_append, List.sum_append]
  rfl

theorem IsMeasure.concat {count : Code → Nat} (h : IsMeasure count) (pieces : List Code) :
    count (Code.concat pieces) = (pieces.map count).sum := by
  induction pieces with
  | nil => exact h.done
  | cons a pieces ih =>
    have hcons : Code.concat (a :: pieces) = a ++ Code.concat pieces := rfl
    rw [hcons, h.append, ih, List.map_cons, List.sum_cons]

end Code

/-! ## Forms -/

theorem Sink.counts_deliver (sink : Sink) (e : Value) :
    (sink.deliver e).testCount = 0 ∧ (sink.deliver e).tableBytes = 0 := by
  cases sink <;> exact ⟨rfl, rfl⟩

theorem Sink.counts_lookup (sink : Sink) (span : Span) (values : List Codepoint) :
    (sink.lookup span values).testCount = 0 ∧
      (sink.lookup span values).tableBytes = Form.listBytes values := by
  rcases sink.counts_deliver (.entry span.tableName span.first) with ⟨htests, hbytes⟩
  refine ⟨htests, ?_⟩
  change (span.table values).bytes + (sink.deliver _).tableBytes = _
  rw [hbytes]
  rfl

/-- The code for a form takes the comparisons and the bytes that the form is said to take. -/
theorem Form.counts_code (sink : Sink) (form : Form) (span : Span) :
    (form.code sink span).testCount = form.guards span ∧
      (form.code sink span).tableBytes = form.tableBytes := by
  induction form generalizing span with
  | deltaException d exception result =>
    rcases sink.counts_deliver (.constant result) with ⟨htests, hbytes⟩
    rcases sink.counts_deliver (.offset d) with ⟨htests', hbytes'⟩
    constructor
    · rw [code, Code.testCount, htests, htests']
      rfl
    · rw [code, Code.tableBytes_guarded, hbytes, hbytes']
      rfl
  | reset values => exact sink.counts_lookup span values
  | table values => exact sink.counts_lookup span values
  | setException inner patch ih =>
    rcases ih inner with ⟨hguards, hbytes⟩
    rcases sink.counts_deliver .setBit with ⟨htests', hbytes'⟩
    rw [code, guards, tableBytes, ← hguards, ← hbytes]
    split
    next htests =>
      -- without tests the inner form stands alone
      rw [htests]
      exact ⟨(Nat.zero_add _).symm, rfl⟩
    next => exact ⟨by rw [Code.testCount, htests', Nat.add_zero], by
        rw [Code.tableBytes_guarded, hbytes', Nat.add_zero]⟩
  | _ => exact sink.counts_deliver _

/-! ## Trees -/

namespace Tree

variable {t : Tree} {sink : Sink}

/-- What is added up over a tree is the sum over its mappings. -/
theorem total_eq_sum (f : Mapping → Nat) (t : Tree) : t.total f = (t.toList.map f).sum := by
  induction t with
  | leaf => rfl
  | node h l m r ihl ihr =>
    rw [total, toList, List.map_append, List.sum_append, List.map_cons, List.sum_cons, ihl, ihr,
      Nat.add_assoc]

theorem counts_enter (sink : Sink) (t : Tree) :
    (t.enter sink).testCount = 0 ∧ (t.enter sink).tableBytes = 0 := by
  cases t with
  | leaf => exact sink.counts_deliver .same
  | node h l m r => exact ⟨rfl, rfl⟩

/-- A block takes two comparisons for the bounds of its mapping, and what the form takes. -/
theorem counts_block (sink : Sink) (h : Nat) (l : Tree) (m : Mapping) (r : Tree) :
    ((node h l m r).block sink).testCount = m.form.guards m.span + 2 ∧
      ((node h l m r).block sink).tableBytes = m.form.tableBytes := by
  rcases counts_enter sink l with ⟨hltests, hlbytes⟩
  rcases counts_enter sink r with ⟨hrtests, hrbytes⟩
  rcases m.form.counts_code sink m.span with ⟨htests, hbytes⟩
  constructor
  · rw [block, Code.testCount, Code.testCount, hltests, hrtests, htests, List.length_singleton,
      List.length_singleton]
    omega
  · rw [block, Code.tableBytes_guarded, Code.tableBytes_guarded, hlbytes, hrbytes, hbytes]
    omega

section Measure

variable {count : Code → Nat} {weight : Mapping → Nat}

/-- A count of labelled blocks is the sum over the mappings at the roots. -/
theorem measure_concat_labelledBlock (hcount : Code.IsMeasure count)
    (hblock : ∀ h l m r, count ((node h l m r).block sink) = weight m) (ts : List Tree) :
    count (Code.concat (ts.map (labelledBlock sink))) =
      ((ts.filterMap root?).map weight).sum := by
  rw [hcount.concat, List.map_map]
  induction ts with
  | nil => rfl
  | cons t ts ih =>
    rw [List.map_cons, List.sum_cons, ih]
    cases t with
    | leaf => exact (congrArg (· + _) hcount.done).trans (Nat.zero_add _)
    | node h l m r =>
      have hroot : (node h l m r).root? = some m := rfl
      rw [List.filterMap_cons_some hroot, List.map_cons, List.sum_cons, ← hblock h l m r]
      exact congrArg (· + _) (hcount.label _ _)

/-- A count of the code for a tree is the total over its mappings. -/
theorem measure_code (hcount : Code.IsMeasure count)
    (hblock : ∀ h l m r, count ((node h l m r).block sink) = weight m)
    (hheight : t.height = t.depth) (hne : t ≠ leaf) : count (t.code sink) = t.total weight := by
  -- the label that the first block lacks makes no difference
  have hroot : count (t.block sink) = count (t.labelledBlock sink) := by
    cases t with
    | leaf => exact absurd rfl hne
    | node h l m r => exact (hcount.label _ _).symm
  have hall := measure_concat_labelledBlock hcount hblock (t :: t.descendants)
  rw [List.map_cons] at hall
  have hcons : Code.concat (t.labelledBlock sink :: t.descendants.map (labelledBlock sink)) =
      t.labelledBlock sink ++ Code.concat (t.descendants.map (labelledBlock sink)) := rfl
  rw [hcons, hcount.append] at hall
  calc
    count (t.code sink) =
        count (t.block sink) + count (Code.concat (t.descendants.map (labelledBlock sink))) := by
      rw [code_eq_append hheight hne, hcount.append]
    _ = (((t :: t.descendants).filterMap root?).map weight).sum := by rw [hroot, hall]
    _ = (t.toList.map weight).sum := ((filterMap_root?_descendants hheight).map weight).sum_eq
    _ = t.total weight := (total_eq_sum weight t).symm

end Measure

theorem counts_code_leaf (sink : Sink) :
    (leaf.code sink).testCount = 0 ∧ (leaf.code sink).tableBytes = 0 :=
  sink.counts_deliver .same

/-- The comparisons and the bytes in the code for a tree. -/
theorem counts_code (sink : Sink) (hheight : t.height = t.depth) :
    (t.code sink).testCount = t.total (fun m => m.form.guards m.span + 2) ∧
      (t.code sink).tableBytes = t.total (fun m => m.form.tableBytes) := by
  by_cases hne : t = leaf
  · rw [hne]
    exact counts_code_leaf sink
  · constructor
    · exact measure_code Code.isMeasure_testCount (fun h l m r => (counts_block sink h l m r).1)
        hheight hne
    · exact measure_code Code.isMeasure_tableBytes (fun h l m r => (counts_block sink h l m r).2)
        hheight hne

end Tree

end CaseFolding

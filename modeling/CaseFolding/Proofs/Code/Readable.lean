import CaseFolding.Proofs.Code.Label
import CaseFolding.Proofs.Code.ReadBack
import CaseFolding.Tree.Layout

namespace CaseFolding

/-! # Code for trees can be read

All names in the code for a tree are made of the bounds of spans, and the code
guards no block by nothing. So its text is read back as the code, whatever the
variable is called and wherever the results go.
-/

/-- Results go to the caller or to a variable whose name is an identifier. -/
def Sink.IsNamed : Sink → Prop
  | .toCaller => True
  | .toVariable target => Code.IsIdentifier target

instance : (sink : Sink) → Decidable sink.IsNamed
  | .toCaller => inferInstanceAs (Decidable True)
  | .toVariable target => inferInstanceAs (Decidable (Code.IsIdentifier target))

variable {sink : Sink}

theorem Sink.isReadable_deliver (hsink : sink.IsNamed) {e : Value} (he : e.IsReadable) :
    (sink.deliver e).IsReadable := by
  cases sink with
  | toCaller => exact ⟨he, trivial⟩
  | toVariable target => exact ⟨⟨hsink, he⟩, trivial, trivial⟩

theorem Value.isReadable_offset (delta : Int) : (Value.offset delta).IsReadable := by
  unfold Value.offset
  split
  · trivial
  · split <;> trivial

theorem Sink.isReadable_lookup (hsink : sink.IsNamed) (span : Span) (values : List Codepoint) :
    (sink.lookup span values).IsReadable :=
  ⟨span.isName_tableName, sink.isReadable_deliver hsink span.isName_tableName⟩

/-- The code for a form can be read. -/
theorem Form.isReadable_code (hsink : sink.IsNamed) (form : Form) (span : Span) :
    (form.code sink span).IsReadable := by
  induction form generalizing span with
  | single result => exact sink.isReadable_deliver hsink trivial
  | delta d => exact sink.isReadable_deliver hsink (Value.isReadable_offset d)
  | deltaException d exception result =>
    refine ⟨List.cons_ne_nil _ _, ?_, ?_⟩
    · exact sink.isReadable_deliver hsink trivial
    · exact sink.isReadable_deliver hsink (Value.isReadable_offset d)
  | set => exact sink.isReadable_deliver hsink trivial
  | reset values => exact sink.isReadable_lookup hsink span values
  | table values => exact sink.isReadable_lookup hsink span values
  | setException inner patch ih =>
    rw [code]
    split
    next => exact ih inner
    next htests => exact ⟨htests, ih inner, sink.isReadable_deliver hsink trivial⟩

namespace Tree

theorem isReadable_enter (hsink : sink.IsNamed) (t : Tree) : (t.enter sink).IsReadable := by
  cases t with
  | leaf => exact sink.isReadable_deliver hsink trivial
  | node h l m r => exact ⟨m.span.isName_label, trivial⟩

theorem isReadable_block (hsink : sink.IsNamed) (t : Tree) : (t.block sink).IsReadable := by
  cases t with
  | leaf => trivial
  | node h l m r =>
    refine ⟨List.cons_ne_nil _ _, isReadable_enter hsink l, ?_⟩
    exact ⟨List.cons_ne_nil _ _, isReadable_enter hsink r, m.form.isReadable_code hsink m.span⟩

theorem isReadable_labelledBlock (hsink : sink.IsNamed) (t : Tree) :
    (t.labelledBlock sink).IsReadable := by
  cases t with
  | leaf => trivial
  | node h l m r => exact ⟨m.span.isName_label, isReadable_block hsink (node h l m r)⟩

/-- The code for a tree can be read. -/
theorem isReadable_code (hsink : sink.IsNamed) (t : Tree) : (t.code sink).IsReadable := by
  unfold code
  split
  next => exact sink.isReadable_deliver hsink trivial
  next top others _ =>
    refine (isReadable_block hsink top).append (Code.isReadable_concat ?_)
    intro a ha
    rcases List.mem_map.mp ha with ⟨u, -, rfl⟩
    exact isReadable_labelledBlock hsink u

end Tree

end CaseFolding

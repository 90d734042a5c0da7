import CaseFolding.Code.Sink
import CaseFolding.Tree.Layout

namespace CaseFolding

/-! # Code for a dispatch tree

Each node of the tree becomes a block:

    range_0100_012F:
        if (c < 0x0100) {
            goto range_00C0_00DE;
        }
        if (c > 0x012F) {
            return c;
        }
        return c | 1;

The two tests of its bounds lead to the blocks of its children, or pass the
codepoint through where there is no child; between the bounds the closed form
gives the result. Every block ends by delivering a result, so control never
runs from one block into the next. Blocks stand in the order of the layout,
the root first, whose block needs no label.
-/

/-! ## Names -/

/-- The bounds of a span as they occur in names. -/
def Span.suffix (s : Span) : String :=
  s.first.hex ++ "_" ++ s.last.hex

/-- The label of the block for a span. -/
def Span.label (s : Span) : String := "range_" ++ s.suffix

/-- The name of the lookup table for a span. -/
def Span.tableName (s : Span) : String := "ucase_" ++ s.suffix

/-! ## Closed forms -/

/-- The tests that tell whether a codepoint of the outer span lies in the inner one. A bound that
both share needs no test. -/
def Span.innerTests (outer inner : Span) : List Test :=
  if inner.first = inner.last then [⟨.eq, inner.first⟩]
  else
    (if outer.first < inner.first then [⟨.ge, inner.first⟩] else []) ++
      (if inner.last < outer.last then [⟨.le, inner.last⟩] else [])

/-- The lookup table for the values of a span. -/
def Span.table (s : Span) (values : List Codepoint) : ConstTable :=
  ⟨s.tableName, Element.holding values, values⟩

/-- Declares the values of a span and delivers the one looked for. -/
def Sink.lookup (sink : Sink) (s : Span) (values : List Codepoint) : Code :=
  .next (.declare (s.table values)) (sink.deliver (.entry s.tableName s.first))

/-- Delivers what a form computes for a codepoint of a span. -/
def Form.code (sink : Sink) : Form → (span : Span) → Code
  | .single result, _ => sink.deliver (.constant result)
  | .delta d, _ => sink.deliver (.offset d)
  | .deltaException d exception result, _ =>
    .guarded [⟨.eq, exception⟩] (sink.deliver (.constant result)) (sink.deliver (.offset d))
  | .set, _ => sink.deliver .setBit
  | .reset values, span => sink.lookup span values
  | .table values, span => sink.lookup span values
  | .setException inner patch, span =>
    match span.innerTests inner with
    | [] => patch.code sink inner
    | tests => .guarded tests (patch.code sink inner) (sink.deliver .setBit)

/-! ## Blocks -/

namespace Tree

/-- Goes on to the block of a subtree, or delivers the codepoint itself where there is none. -/
def enter (sink : Sink) : Tree → Code
  | leaf => sink.deliver .same
  | node _ _ m _ => .next (.goto m.span.label) .done

/-- The block of a root, without its label. -/
def block (sink : Sink) : Tree → Code
  | leaf => .done
  | node _ l m r =>
    .guarded [⟨.lt, m.first⟩] (enter sink l)
      (.guarded [⟨.gt, m.last⟩] (enter sink r) (m.form.code sink m.span))

/-- The block of a root, with its label. -/
def labelledBlock (sink : Sink) : Tree → Code
  | leaf => .done
  | t@(node _ _ m _) => .next (.label m.span.label) (t.block sink)

/-- The code for a tree. A tree without nodes passes every codepoint through. -/
def code (sink : Sink) (t : Tree) : Code :=
  match t.layout with
  | [] => sink.deliver .same
  | top :: others => top.block sink ++ Code.concat (others.map (labelledBlock sink))

end Tree

end CaseFolding

import CaseFolding.Proofs.Code.Label
import CaseFolding.Proofs.Tree.Map
import Mathlib.Data.List.Basic

namespace CaseFolding

/-! # Landmarks

Labels, jumps and the tests against the bounds of a block show how the blocks of
a text hang together. A closed form adds none of them, so the landmarks of the
code for a tree are told by the spans of its mappings and their places.
-/

/-! ## Landmarks of code -/

/-- What shows how blocks hang together. -/
inductive Landmark where
  /-- A label that is set. -/
  | label (name : String)
  /-- A jump to a label. -/
  | goto (name : String)
  /-- A test of a bound of a block. -/
  | bound (test : Test)
deriving DecidableEq

/-- Whether a test finds codepoints outside of a bound. The tests of forms find codepoints inside of
their bounds instead. -/
def Test.isBounding (t : Test) : Bool :=
  t.relation = .lt || t.relation = .gt

/-- The landmark that a statement is. -/
def Stmt.landmark? : Stmt → Option Landmark
  | .label l => some (.label l)
  | .goto l => some (.goto l)
  | _ => none

namespace Code

/-- The landmarks of code in the order of its text. -/
def landmarks : Code → List Landmark
  | done => []
  | next s rest => s.landmark?.toList ++ rest.landmarks
  | guarded tests body rest =>
    (tests.filter Test.isBounding).map .bound ++ body.landmarks ++ rest.landmarks

/-- The landmarks of a piece of code come before those of what follows it. -/
theorem landmarks_append (a b : Code) : (a ++ b).landmarks = a.landmarks ++ b.landmarks := by
  induction a with
  | done => rfl
  | next s rest ih =>
    have happend : (next s rest ++ b).landmarks = s.landmark?.toList ++ (rest ++ b).landmarks := rfl
    rw [happend, ih, landmarks, List.append_assoc]
  | guarded tests body rest _ ih =>
    have happend : (guarded tests body rest ++ b).landmarks =
        (tests.filter Test.isBounding).map .bound ++ body.landmarks ++ (rest ++ b).landmarks := rfl
    rw [happend, ih, landmarks, List.append_assoc _ rest.landmarks]

theorem landmarks_concat (pieces : List Code) :
    (concat pieces).landmarks = pieces.flatMap landmarks :=
  concat_eq_flatMap rfl landmarks_append pieces

end Code

/-! ## Forms -/

theorem Sink.landmarks_deliver (sink : Sink) (e : Value) : (sink.deliver e).landmarks = [] := by
  cases sink <;> rfl

/-- The tests for an inner span find the codepoints inside of it. -/
theorem Span.filter_innerTests (outer inner : Span) :
    (outer.innerTests inner).filter Test.isBounding = [] := by
  unfold innerTests
  split
  next => rfl
  next => split <;> split <;> rfl

/-- The code for a form has no landmarks. -/
theorem Form.landmarks_code (sink : Sink) (form : Form) (span : Span) :
    (form.code sink span).landmarks = [] := by
  induction form generalizing span with
  | deltaException d exception result =>
    rw [code, Code.landmarks, sink.landmarks_deliver, sink.landmarks_deliver]
    rfl
  | setException inner patch ih =>
    rw [code]
    split
    next => exact ih inner
    next =>
      rw [Code.landmarks, span.filter_innerTests, ih inner, sink.landmarks_deliver]
      rfl
  | _ => exact sink.landmarks_deliver _

/-! ## Trees -/

namespace Tree

variable {f : Mapping → Mapping} {sink : Sink}

theorem enter_map (hf : ∀ m, (f m).span = m.span) (t : Tree) :
    (t.map f).enter sink = t.enter sink := by
  cases t with
  | leaf => rfl
  | node h l m r => rw [map, enter, enter, hf]

/-- The landmarks of a block are told by its span and those of its children. -/
theorem landmarks_block_map (hf : ∀ m, (f m).span = m.span) (t : Tree) :
    ((t.map f).block sink).landmarks = (t.block sink).landmarks := by
  cases t with
  | leaf => rfl
  | node h l m r =>
    have hfirst : (f m).first = m.first := congrArg Span.first (hf m)
    have hlast : (f m).last = m.last := congrArg Span.last (hf m)
    simp only [map, block, Code.landmarks, Form.landmarks_code, enter_map hf, hfirst, hlast]

theorem landmarks_labelledBlock_map (hf : ∀ m, (f m).span = m.span) (t : Tree) :
    ((t.map f).labelledBlock sink).landmarks = (t.labelledBlock sink).landmarks := by
  have hblock : ((t.map f).block sink).landmarks = (t.block sink).landmarks :=
    landmarks_block_map hf t
  cases t with
  | leaf => rfl
  | node h l m r =>
    rw [map] at hblock
    rw [map, labelledBlock, labelledBlock, hf, Code.landmarks, Code.landmarks, hblock]

/-- The landmarks of the code for a tree do not depend on the forms. -/
theorem landmarks_code_map (hf : ∀ m, (f m).span = m.span) (t : Tree) :
    ((t.map f).code sink).landmarks = (t.code sink).landmarks := by
  unfold code
  rw [layout_map]
  cases t.layout with
  | nil => rfl
  | cons top others =>
    rw [List.map_cons]
    dsimp only
    rw [Code.landmarks_append, Code.landmarks_append, Code.landmarks_concat, Code.landmarks_concat,
      landmarks_block_map hf, List.flatMap_map, List.flatMap_map, List.flatMap_map]
    refine congrArg (_ ++ ·) (List.flatMap_congr ?_)
    intro t _
    exact landmarks_labelledBlock_map hf t

end Tree

end CaseFolding

import CaseFolding.Code.Block
import CaseFolding.Code.Run
import CaseFolding.Proofs.Code.Token
import Mathlib.Data.List.Basic

namespace CaseFolding

/-! # Labels

A jump goes on behind the first statement that carries its label, so blocks can
be told apart if their labels can. A label is made of the bounds of a span in
hexadecimal, and these determine the span.
-/

/-! ## Labels of code -/

namespace Code

/-- The labels of code, in order. Labels stand outside of all blocks. -/
def labels : Code → List String
  | done => []
  | next (.label l) rest => l :: rest.labels
  | next _ rest => rest.labels
  | guarded _ _ rest => rest.labels

/-- The labels are counted. -/
theorem length_labels (a : Code) : a.labels.length = a.labelCount := by
  induction a with
  | done => rfl
  | next s rest ih =>
    cases s with
    | label l => exact congrArg (· + 1) ih
    | _ => exact ih
  | guarded tests body rest _ ih => exact ih

/-- The labels of a piece of code come before those of what follows it. -/
theorem labels_append (a b : Code) : (a ++ b).labels = a.labels ++ b.labels := by
  induction a with
  | done => rfl
  | next s rest ih =>
    cases s with
    | label l => exact congrArg (l :: ·) ih
    | _ => exact ih
  | guarded tests body rest _ ih => exact ih

/-- What a view shows of code piece by piece, it shows of several pieces one after the other. -/
theorem concat_eq_flatMap {α : Type} {view : Code → List α} (hdone : view done = [])
    (happend : ∀ a b : Code, view (a ++ b) = view a ++ view b) (pieces : List Code) :
    view (concat pieces) = pieces.flatMap view := by
  induction pieces with
  | nil => exact hdone
  | cons a pieces ih =>
    have hcons : concat (a :: pieces) = a ++ concat pieces := rfl
    rw [hcons, happend, ih, List.flatMap_cons]

theorem labels_concat (pieces : List Code) : (concat pieces).labels = pieces.flatMap labels :=
  concat_eq_flatMap rfl labels_append pieces

variable {l : String} {a : Code}

/-- A label is looked for behind a piece of code that does not have it. -/
theorem after?_append (h : l ∉ a.labels) (b : Code) : (a ++ b).after? l = b.after? l := by
  induction a with
  | done => rfl
  | next s rest ih =>
    cases s with
    | label l' =>
      rw [labels, List.mem_cons, not_or] at h
      change (if l' = l then _ else _) = _
      rw [if_neg (Ne.symm h.1)]
      exact ih h.2
    | _ => exact ih h
  | guarded tests body rest _ ih => exact ih h

/-- Among pieces of code with different labels, a jump finds the one that starts with its label. -/
theorem after?_concat {pieces : List Code} (hnodup : (concat pieces).labels.Nodup)
    (h : next (.label l) a ∈ pieces) :
    ∃ rest, (concat pieces).after? l = some (a ++ rest) := by
  -- the pieces before it do not have the label, for it has it
  rcases List.append_of_mem h with ⟨before, after, rfl⟩
  rw [labels_concat, List.flatMap_append, List.flatMap_cons] at hnodup
  have hbefore : ∀ ps : List Code, l ∉ ps.flatMap labels →
      ∀ b, (ps.foldr append b).after? l = b.after? l := by
    intro ps hps b
    induction ps with
    | nil => rfl
    | cons p ps ih =>
      rw [List.flatMap_cons, List.mem_append, not_or] at hps
      exact (after?_append hps.1 _).trans (ih hps.2)
  refine ⟨concat after, ?_⟩
  rw [concat, List.foldr_append, hbefore before]
  · change (if l = l then _ else _) = _
    rw [if_pos rfl]
    rfl
  · intro hl
    rcases List.nodup_append.mp hnodup with ⟨-, -, hdisjoint⟩
    exact hdisjoint l hl l (by simp [labels]) rfl

end Code

/-! ## Labels of spans -/

namespace Span

theorem not_mem_hex (c : Codepoint) : '_' ∉ (Codepoint.hex c).toList := by
  intro h
  rw [Codepoint.toList_hex] at h
  rcases Text.Hex.exists_digit_of_mem_padded h with ⟨d, hd, heq⟩
  revert heq
  interval_cases d <;> decide

/-- A span is told by the bounds in its names. -/
theorem suffix_injective : Function.Injective Span.suffix := by
  intro s t h
  have hseparator : "_".toList = ['_'] := rfl
  have hchars := congrArg String.toList h
  simp only [suffix, String.toList_append, hseparator, List.append_assoc,
    List.singleton_append] at hchars
  obtain ⟨hfirst, -, hlast⟩ :=
    (List.append_cons_inj_of_notMem (not_mem_hex s.first) (not_mem_hex s.last)).mp hchars
  have hfirst := Codepoint.hex_injective (String.toList_inj.mp hfirst)
  have hlast := Codepoint.hex_injective (String.toList_inj.mp hlast)
  cases s
  cases t
  exact congrArg₂ Span.mk hfirst hlast

theorem label_injective : Function.Injective Span.label := by
  intro s t h
  have hchars := congrArg String.toList h
  simp only [label, String.toList_append] at hchars
  exact suffix_injective (String.toList_inj.mp (List.append_cancel_left hchars))

theorem isName_suffix (s : Span) : Code.IsName s.suffix :=
  ((Code.isName_hex s.first).append (by decide)).append (Code.isName_hex s.last)

theorem isName_label (s : Span) : Code.IsName s.label :=
  Code.IsName.append (by decide) s.isName_suffix

theorem isName_tableName (s : Span) : Code.IsName s.tableName :=
  Code.IsName.append (by decide) s.isName_suffix

end Span

end CaseFolding

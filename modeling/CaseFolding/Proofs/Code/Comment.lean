import CaseFolding.Code.Function
import CaseFolding.Proofs.Code.ReadBack

namespace CaseFolding

/-! # Code between comments

Printed code is read back if comments stand above and below it, whatever they say,
and also if it stands in a function between them.
-/

open Token Text

/-! ## Comments -/

theorem Token.ofChars_comment (cs : List Char) :
    ofChars ('/' :: '/' :: cs) = .mark '/' :: .mark '/' :: ofChars cs := by
  rw [ofChars, push_mark (by decide) (by decide), ofChars, push_mark (by decide) (by decide)]

namespace Code.Reader

variable {var : String} {code : Code} {comments : List (List Char)}

theorem isComment_ofChars {cs : List Char} (h : ['/', '/'] <+: cs) :
    isComment (ofChars cs) = true := by
  rcases h with ⟨rest, rfl⟩
  exact congrArg isComment (ofChars_comment rest)

theorem piece?_of_isComment {ts : List Token} (h : isComment ts = true) (v : Token) :
    piece? v ts = some .comment := by
  unfold isComment at h
  split at h
  next => rfl
  next => exact absurd h nofun

theorem mapM_comments (h : ∀ c ∈ comments, ['/', '/'] <+: c) (v : Token) :
    comments.mapM (fun line => piece? v (ofChars line)) =
      some (comments.map fun _ => .comment) :=
  mapM_eq_some fun c hc => piece?_of_isComment (isComment_ofChars (h c hc)) v

/-- Comments add nothing to what stands below them. -/
theorem foldrM_comments (cs : List (List Char)) (b : Below) :
    (cs.map fun _ => Piece.comment).foldrM above b = some b := by
  induction cs with
  | nil => rfl
  | cons c cs ih =>
    rw [List.map_cons, List.foldrM_cons, ih]
    rfl

/-- Comments around lines do not change what the lines are put together to. -/
theorem assemble_between (front back : List (List Char)) (ps : List Piece) :
    assemble (front.map (fun _ => .comment) ++ ps ++ back.map fun _ => .comment) = assemble ps := by
  have hfold : ((front.map fun _ => Piece.comment) ++ ps ++
      back.map fun _ => Piece.comment).foldrM above {} = ps.foldrM above {} := by
    rw [List.foldrM_append, foldrM_comments]
    change List.foldrM above {} _ = _
    rw [List.foldrM_append]
    change (ps.foldrM above {}).bind _ = _
    cases ps.foldrM above {} with
    | none => rfl
    | some b => exact foldrM_comments front b
  rw [assemble, assemble, hfold]

theorem mapM_toList_lines (hvar : IsIdentifier var) (hcode : code.IsReadable) (depth : Nat) :
    ((code.lines var depth).map String.toList).mapM
      (fun line => piece? (ofWord var) (ofChars line)) = some code.pieces := by
  rw [List.mapM_map]
  exact mapM_lines hvar hcode depth

end Code.Reader

/-! ## Code between comments -/

open Code.Reader

variable {var : String} {code : Code} {before after : List String}

/-- Source lines between comments are put together as if these were not there. -/
theorem Code.read?_of_sourceLines {text : String} {front lines back : List (List Char)}
    {ps : List Piece} (htext : sourceLines text.toList = front ++ lines ++ back)
    (hfront : ∀ c ∈ front, ['/', '/'] <+: c) (hback : ∀ c ∈ back, ['/', '/'] <+: c)
    (hlines : lines.mapM (fun line => piece? (ofWord var) (ofChars line)) = some ps) :
    Code.read? var text = assemble ps := by
  have hpieces : (front ++ lines ++ back).mapM
      (fun line => piece? (ofWord var) (ofChars line)) =
        some (front.map (fun _ => .comment) ++ ps ++ back.map fun _ => .comment) := by
    rw [List.mapM_append, List.mapM_append, mapM_comments hfront, mapM_comments hback, hlines]
    rfl
  rw [Code.read?, htext, hpieces]
  exact assemble_between front back ps

/-- Comments above and below printed code make no difference. -/
theorem Code.read?_between (hvar : Code.IsIdentifier var) (hcode : code.IsReadable)
    (hbefore : AreComments before) (hafter : AreComments after) :
    Code.read? var (Text.ofLines before ++ code.text var ++ Text.ofLines after) = some code := by
  have hplain : ∀ l ∈ code.lines var 1, IsPlain l :=
    fun l hl => isPlain_of_mem_lines hvar.isName hcode hl
  rcases exists_sourceLines_between hbefore hplain hafter with
    ⟨front, back, hfront, hback, hsource⟩
  rw [Code.text, ← Text.ofLines_append, ← Text.ofLines_append,
    Code.read?_of_sourceLines hsource hfront hback (mapM_toList_lines hvar hcode 1)]
  exact assemble_pieces code

/-! ## A comment that goes on -/

/-- What is read of lines below the first one is what is read of all but for that one. -/
theorem Code.Reader.mapM_eq_some_tail {α β : Type} {f : α → Option β} {a : α} {as : List α}
    {bs : List β} (h : (a :: as).mapM f = some bs) : as.mapM f = some bs.tail := by
  rw [List.mapM_cons] at h
  rcases Option.bind_eq_some_iff.mp h with ⟨b, -, h⟩
  rcases Option.bind_eq_some_iff.mp h with ⟨bs', hbs', h⟩
  rcases Option.some.inj h with rfl
  exact hbs'

/-- A comment that goes on takes in the first line of the code below it. -/
theorem Code.read?_of_continued {header first : String} {others : List String}
    (hheader : IsComment header) (hgoes : (continued? header.toList).isSome)
    (hvar : Code.IsIdentifier var) (hcode : code.IsReadable)
    (hlines : code.lines var 1 = first :: others) (hafter : AreComments after) :
    Code.read? var (Text.ofLines [header] ++ code.text var ++ Text.ofLines after) =
      assemble code.pieces.tail := by
  have hplain : ∀ l ∈ first :: others, IsPlain l :=
    fun l hl => isPlain_of_mem_lines hvar.isName hcode (hlines ▸ hl)
  rcases Option.isSome_iff_exists.mp hgoes with ⟨front, hfront⟩
  rcases exists_sourceLines_of_continued hheader hfront hplain hafter with
    ⟨back, hback, hsource⟩
  have htaken : ∀ c ∈ [front ++ first.toList], ['/', '/'] <+: c := by
    rw [List.forall_mem_singleton]
    exact (hheader.slashes_of_continued? hfront).trans (List.prefix_append _ _)
  have hothers := mapM_toList_lines hvar hcode 1
  rw [hlines, List.map_cons] at hothers
  rw [Code.text, hlines, ← Text.ofLines_append, ← Text.ofLines_append]
  exact Code.read?_of_sourceLines hsource htaken hback (mapM_eq_some_tail hothers)

/-- Without the line that opens it a block cannot be closed. -/
theorem Code.Reader.assemble_tail_guarded (tests : List Test) (body rest : Code) :
    assemble (Code.guarded tests body rest).pieces.tail = none := by
  have hfold : (body.pieces ++ .closeBlock :: rest.pieces).foldrM above {} =
      some ⟨none, [body, rest]⟩ := by
    rw [List.foldrM_append, List.foldrM_cons]
    rw [foldrM_pieces rest .done [], append_done]
    change body.pieces.foldrM above ⟨none, [.done, rest]⟩ = _
    rw [foldrM_pieces body .done [rest], append_done]
  rw [assemble]
  change (body.pieces ++ .closeBlock :: rest.pieces).foldrM above {} >>= _ = _
  rw [hfold]
  rfl

/-! ## Functions -/

theorem Token.ofString_head {name : String} (hname : Code.IsName name) (hvar : Code.IsName var) :
    ofString s!"unsigned {name}(unsigned {var})" =
      [.ofWord "unsigned", .ofWord name, .mark '(', .ofWord "unsigned", .ofWord var,
        .mark ')'] := by
  change ofString ("unsigned " ++ name ++ "(unsigned " ++ var ++ ")") = _
  rw [ofString_append_right (by decide), ofString_seam (by decide),
    ofString_append_left (by decide), hname.ofString, hvar.ofString]
  rfl

theorem Text.isPlain_head {name : String} (hname : Code.IsName name) (hvar : Code.IsName var) :
    IsPlain s!"unsigned {name}(unsigned {var})" := by
  change IsPlain ("unsigned " ++ name ++ "(unsigned " ++ var ++ ")")
  exact ((((by decide : IsPlain "unsigned ").append hname.isPlain).append (by decide)).append
    hvar.isPlain).append (by decide)

/-- The lines above the body of a function. -/
def Text.functionHead (name var : String) : List String :=
  ["#include <stdint.h>", "", s!"unsigned {name}(unsigned {var})", "\x7b"]

theorem Code.Reader.map_ofChars_head {name : String} (hname : Code.IsName name)
    (hvar : Code.IsName var) :
    ((Text.functionHead name var).map String.toList).map ofChars =
      functionHead (ofWord name) (ofWord var) := by
  rw [List.map_map]
  change (Text.functionHead name var).map ofString = _
  rw [Text.functionHead, functionHead, List.map_cons, List.map_cons, List.map_cons,
    List.map_singleton, ofString_head hname hvar]
  rfl

/-- Comments above lines are passed over. -/
theorem Code.Reader.dropWhile_isComment {front : List (List Char)}
    (hfront : ∀ c ∈ front, ['/', '/'] <+: c) (lines : List (List Char)) :
    ((front ++ lines).map ofChars).dropWhile isComment =
      (lines.map ofChars).dropWhile isComment := by
  rw [List.map_append, List.dropWhile_append_of_pos]
  intro ts hts
  rcases List.mem_map.mp hts with ⟨c, hc, rfl⟩
  exact isComment_ofChars (hfront c hc)

/-- The brace that closes the body ends the code, whatever comments follow. -/
theorem Code.Reader.assembleBody_pieces (code : Code) (back : List (List Char)) :
    assembleBody (code.pieces ++ (.closeBlock :: back.map fun _ => Piece.comment)) =
      some code := by
  have hfold : (code.pieces ++ (.closeBlock :: back.map fun _ => Piece.comment)).foldrM above {} =
      some ⟨none, [code, .done]⟩ := by
    rw [List.foldrM_append, List.foldrM_cons, foldrM_comments]
    change List.foldrM above ⟨none, [.done, .done]⟩ _ = _
    rw [foldrM_pieces code .done [.done], append_done]
  rw [assembleBody, hfold]
  rfl

/-- Printed code is read back from a function between comments. -/
theorem Code.readFunction?_between {name : String} (hname : Code.IsName name)
    (hvar : Code.IsIdentifier var) (hcode : code.IsReadable)
    (hbefore : AreComments before) (hafter : AreComments after) :
    Code.readFunction? name var (Text.ofLines before ++
      (Text.ofLines (Text.functionHead name var) ++ code.text var ++ Text.ofLines ["\x7d"]) ++
        Text.ofLines after) = some code := by
  let body := code.lines var 1 ++ ["\x7d"]
  have hplain : ∀ l ∈ Text.functionHead name var ++ body, IsPlain l := by
    simp only [body, Text.functionHead, List.forall_mem_append, List.forall_mem_cons]
    exact ⟨⟨by decide, by decide, isPlain_head hname hvar.isName, by decide, nofun⟩,
      fun l hl => isPlain_of_mem_lines hvar.isName hcode hl, by decide, nofun⟩
  rcases exists_sourceLines_between hbefore hplain hafter with
    ⟨front, back, hfront, hback, hlines⟩
  have htext : Text.ofLines before ++
      (Text.ofLines (Text.functionHead name var) ++ code.text var ++ Text.ofLines ["\x7d"]) ++
        Text.ofLines after =
          Text.ofLines (before ++ (Text.functionHead name var ++ body) ++ after) := by
    simp only [body, Text.ofLines_append, Code.text, String.append_assoc]
  let below := body.map String.toList ++ back
  have hdrop : ((sourceLines (Text.ofLines
      (before ++ (Text.functionHead name var ++ body) ++ after)).toList).map ofChars).dropWhile
        isComment = functionHead (ofWord name) (ofWord var) ++ below.map ofChars := by
    rw [hlines, List.append_assoc, dropWhile_isComment hfront, List.map_append, List.map_append,
      List.map_append, map_ofChars_head hname hvar.isName, List.append_assoc, ← List.map_append]
    rfl
  have hpieces : (below.map ofChars).mapM (piece? (ofWord var)) =
      some (code.pieces ++ (.closeBlock :: back.map fun _ => Piece.comment)) := by
    rw [List.mapM_map]
    change below.mapM (fun line => piece? (ofWord var) (ofChars line)) = _
    simp only [below, body]
    rw [List.map_append, List.append_assoc, List.mapM_append, List.mapM_append,
      mapM_comments hback, mapM_toList_lines hvar hcode]
    rfl
  rw [htext, Code.readFunction?, hdrop]
  change (if functionHead (ofWord name) (ofWord var) = functionHead (ofWord name) (ofWord var) then
    (below.map ofChars).mapM (piece? (ofWord var)) >>= assembleBody else none) = some code
  rw [if_pos rfl, hpieces]
  exact assembleBody_pieces code back

end CaseFolding

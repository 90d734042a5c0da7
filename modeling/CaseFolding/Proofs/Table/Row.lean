import CaseFolding.Proofs.Text.Numeral
import CaseFolding.Table.Row
import Mathlib.Data.List.TakeWhile

namespace CaseFolding

/-! # Rows

A row is said here by how it is written: a codepoint, a status and a target, each
with blanks around it, then the end of the line or what may follow. A line gives
an entry if it is written like that and its numbers are codepoints, and not
otherwise.
-/

/-! ## Blanks around a text -/

namespace Text

/-- Blanks, a text, and blanks again. -/
def IsPadded (text cs : List Char) : Prop :=
  ∃ before after, cs = before ++ text ++ after ∧
    (∀ ch ∈ before, isBlank ch = true) ∧ ∀ ch ∈ after, isBlank ch = true

variable {text cs before after : List Char}

theorem trim_append_left (h : ∀ ch ∈ before, isBlank ch = true) : trim (before ++ cs) = trim cs := by
  rw [trim, trim, List.dropWhile_append_of_pos h]

theorem trimEnd_append (h : ∀ ch ∈ after, isBlank ch = true) : trimEnd (cs ++ after) = trimEnd cs := by
  have hreverse : ∀ ch ∈ after.reverse, isBlank ch = true :=
    fun ch hch => h ch (List.mem_reverse.mp hch)
  rw [trimEnd, trimEnd, List.reverse_append, List.dropWhile_append_of_pos hreverse]

/-- Blanks at the end make no difference. -/
theorem trim_append_right (h : ∀ ch ∈ after, isBlank ch = true) : trim (cs ++ after) = trim cs := by
  rw [trim, trim, List.dropWhile_append]
  split
  next hempty =>
    -- there are blanks only
    have hafter : after.dropWhile isBlank = [] := List.dropWhile_eq_nil_iff.mpr h
    rw [hafter, List.isEmpty_iff.mp hempty]
  next => exact trimEnd_append h

/-- What is left has blanks around it. -/
theorem isPadded_trim (cs : List Char) : IsPadded (trim cs) cs := by
  let front := cs.takeWhile isBlank
  let middle := cs.dropWhile isBlank
  let back := (middle.reverse.takeWhile isBlank).reverse
  have hmiddle : middle = trimEnd middle ++ back := by
    rw [trimEnd, ← List.reverse_append, List.takeWhile_append_dropWhile, List.reverse_reverse]
  refine ⟨front, back, ?_, ?_, ?_⟩
  · calc
      cs = front ++ middle := List.takeWhile_append_dropWhile.symm
      _ = front ++ (trimEnd middle ++ back) := congrArg (front ++ ·) hmiddle
      _ = front ++ trim cs ++ back := (List.append_assoc _ _ _).symm
  · intro ch hch
    exact List.mem_takeWhile_imp hch
  · intro ch hch
    exact List.mem_takeWhile_imp (List.mem_reverse.mp hch)

/-- A text without blanks is left when the blanks around it are dropped. -/
theorem IsPadded.trim_eq (h : IsPadded text cs) (htext : ∀ ch ∈ text, isBlank ch = false) :
    trim cs = text := by
  have hkeep : ∀ ds : List Char, (∀ ch ∈ ds, isBlank ch = false) → ds.dropWhile isBlank = ds := by
    intro ds hds
    rw [List.dropWhile_eq_self_iff]
    intro hpos
    rw [hds _ (List.getElem_mem hpos)]
    exact Bool.false_ne_true
  rcases h with ⟨before, after, rfl, hbefore, hafter⟩
  rw [trim_append_right hafter, trim_append_left hbefore, trim, hkeep text htext, trimEnd,
    hkeep text.reverse fun ch hch => htext ch (List.mem_reverse.mp hch), List.reverse_reverse]

end Text

/-! ## How rows are written -/

namespace Row

open Text Text.Numeral

/-- Characters none of which ends a field. -/
def IsField (cs : List Char) : Prop :=
  ';' ∉ cs ∧ '#' ∉ cs

instance (cs : List Char) : Decidable (IsField cs) :=
  inferInstanceAs (Decidable (';' ∉ cs ∧ '#' ∉ cs))

/-- What may follow a field. -/
inductive IsEnd : List Char → Prop where
  | line : IsEnd []
  | field (more : List Char) : IsEnd (';' :: more)
  | comment (more : List Char) : IsEnd ('#' :: more)

/-- A field that holds a number. -/
def HoldsNumber (field : List Char) (n : Nat) : Prop :=
  ∃ numeral, IsNumeral numeral n ∧ IsPadded numeral field

/-- A field that holds the status of a common or a simple folding. -/
def HoldsSimple (field : List Char) : Prop :=
  IsPadded ['C'] field ∨ IsPadded ['S'] field

/-- A row that maps the number `n` to the number `m`. -/
def IsRow (line : List Char) (n m : Nat) : Prop :=
  ∃ code status target rest, line = code ++ ';' :: (status ++ ';' :: (target ++ rest)) ∧
    HoldsNumber code n ∧ HoldsSimple status ∧ HoldsNumber target m ∧ IsEnd rest

/-- A line whose status, which is its second field ahead of any comment, is one of these. -/
def HasSimple (line : List Char) : Prop :=
  ∃ code status rest, line = code ++ ';' :: (status ++ rest) ∧
    IsField code ∧ HoldsSimple status ∧ IsEnd rest

variable {line cs rest field : List Char} {ps : List (List Char)} {n m n' m' : Nat} {ch : Char}

/-! ## Fields -/

theorem isField_of_blank (h : ∀ ch ∈ cs, isBlank ch = true) : IsField cs := by
  constructor
  · intro hmem
    exact absurd (h ';' hmem) (by decide)
  · intro hmem
    exact absurd (h '#' hmem) (by decide)

theorem IsField.append (h : IsField cs) (hrest : IsField rest) : IsField (cs ++ rest) := by
  constructor
  · intro hmem
    exact (List.mem_append.mp hmem).elim h.1 hrest.1
  · intro hmem
    exact (List.mem_append.mp hmem).elim h.2 hrest.2

/-- The pieces between semicolons ahead of a comment. -/
def pieces (line : List Char) : List (List Char) :=
  (line.takeWhile (· ≠ '#')).splitOn ';'

theorem takeWhile_append (h : '#' ∉ cs) (more : List Char) :
    (cs ++ more).takeWhile (· ≠ '#') = cs ++ more.takeWhile (· ≠ '#') := by
  apply List.takeWhile_append_of_pos
  intro ch hch
  have hne : ch ≠ '#' := fun heq => h (heq ▸ hch)
  simpa using hne

/-- A field is one piece, whether it ends at a comment or with the line. -/
theorem pieces_of_isField (h : IsField cs) : pieces cs = [cs] := by
  have htake := takeWhile_append h.2 []
  rw [List.append_nil, List.takeWhile_nil, List.append_nil] at htake
  rw [pieces, htake, List.splitOn_eq_singleton h.1]

theorem pieces_comment (h : IsField cs) (more : List Char) : pieces (cs ++ '#' :: more) = [cs] := by
  have hstop : ('#' :: more).takeWhile (· ≠ '#') = [] := List.takeWhile_cons_of_neg (by simp)
  rw [pieces, takeWhile_append h.2, hstop, List.append_nil, List.splitOn_eq_singleton h.1]

/-- A semicolon ends a field, and more pieces follow. -/
theorem pieces_cons (h : IsField cs) (rest : List Char) :
    pieces (cs ++ ';' :: rest) = cs :: pieces rest := by
  have hgo : (';' :: rest).takeWhile (· ≠ '#') = ';' :: rest.takeWhile (· ≠ '#') :=
    List.takeWhile_cons_of_pos (by decide)
  rw [pieces, takeWhile_append h.2, hgo, List.splitOn_append_cons_self_of_not_mem h.1, ← pieces]

/-- A line is a field that ends with the line, at a comment or at a semicolon. -/
@[elab_as_elim]
theorem field_induction {P : List Char → Prop} (line : List Char)
    (last : ∀ cs, IsField cs → P cs)
    (comment : ∀ cs more, IsField cs → P (cs ++ '#' :: more))
    (next : ∀ cs rest, IsField cs → P rest → P (cs ++ ';' :: rest)) : P line := by
  induction hlength : line.length using Nat.strongRecOn generalizing line with
  | ind k ih =>
    -- what follows a semicolon is shorter
    have hnext : ∀ cs rest, IsField cs → line = cs ++ ';' :: rest → P line := by
      rintro cs rest hcs rfl
      refine next cs rest hcs (ih rest.length ?_ rest rfl)
      rw [← hlength, List.length_append, List.length_cons]
      omega
    by_cases hcomment : '#' ∈ line
    · rcases List.eq_append_cons_of_mem hcomment with ⟨front, more, hline, hfront⟩
      by_cases hsemicolon : ';' ∈ front
      · rcases List.eq_append_cons_of_mem hsemicolon with ⟨cs, rest, rfl, hcs⟩
        rw [List.mem_append, not_or] at hfront
        refine hnext cs (rest ++ '#' :: more) ⟨hcs, hfront.1⟩ ?_
        rw [hline, List.append_assoc, List.cons_append]
      · rw [hline]
        exact comment front more ⟨hsemicolon, hfront⟩
    · by_cases hsemicolon : ';' ∈ line
      · rcases List.eq_append_cons_of_mem hsemicolon with ⟨cs, rest, hline, hcs⟩
        refine hnext cs rest ⟨hcs, ?_⟩ hline
        rw [hline, List.mem_append, not_or] at hcomment
        exact hcomment.1
      · exact last line ⟨hsemicolon, hcomment⟩

/-- A field and what may follow it. -/
theorem exists_pieces_append (h : IsField cs) (hrest : IsEnd rest) :
    ∃ ps, pieces (cs ++ rest) = cs :: ps := by
  cases hrest with
  | line =>
    rw [List.append_nil]
    exact ⟨[], pieces_of_isField h⟩
  | field more => exact ⟨_, pieces_cons h more⟩
  | comment more => exact ⟨[], pieces_comment h more⟩

/-- The first piece stands at the front and is a field. -/
theorem eq_append_of_pieces (h : pieces line = cs :: ps) :
    IsField cs ∧ ∃ rest, line = cs ++ rest ∧ IsEnd rest := by
  induction line using field_induction with
  | last field hfield =>
    rw [pieces_of_isField hfield] at h
    rcases List.cons.inj h with ⟨rfl, -⟩
    exact ⟨hfield, [], (List.append_nil _).symm, .line⟩
  | comment field more hfield =>
    rw [pieces_comment hfield] at h
    rcases List.cons.inj h with ⟨rfl, -⟩
    exact ⟨hfield, _, rfl, .comment more⟩
  | next field rest hfield _ =>
    rw [pieces_cons hfield] at h
    rcases List.cons.inj h with ⟨rfl, -⟩
    exact ⟨hfield, _, rfl, .field rest⟩

/-- If there are more pieces, they follow a semicolon. -/
theorem eq_append_cons_of_pieces {p : List Char} (h : pieces line = cs :: p :: ps) :
    IsField cs ∧ ∃ rest, line = cs ++ ';' :: rest ∧ pieces rest = p :: ps := by
  induction line using field_induction with
  | last field hfield =>
    rw [pieces_of_isField hfield] at h
    exact absurd (List.cons.inj h).2 nofun
  | comment field more hfield =>
    rw [pieces_comment hfield] at h
    exact absurd (List.cons.inj h).2 nofun
  | next field rest hfield _ =>
    rw [pieces_cons hfield] at h
    rcases List.cons.inj h with ⟨rfl, hrest⟩
    exact ⟨hfield, rest, rfl, hrest⟩

/-- A blank at the end of a line makes no difference. -/
theorem fields_append_blank (line : List Char) (hch : isBlank ch = true) :
    fields (line ++ [ch]) = fields line := by
  have hblank : ∀ c ∈ [ch], isBlank c = true := by
    intro c hc
    rw [List.mem_singleton.mp hc]
    exact hch
  change (pieces _).map trim = (pieces _).map trim
  induction line using field_induction with
  | last cs hcs =>
    have hcs' : IsField (cs ++ [ch]) := hcs.append (isField_of_blank hblank)
    rw [pieces_of_isField hcs, pieces_of_isField hcs', List.map_singleton, List.map_singleton,
      trim_append_right hblank]
  | comment cs more hcs =>
    rw [List.append_assoc, List.cons_append, pieces_comment hcs, pieces_comment hcs]
  | next cs rest hcs ih =>
    rw [List.append_assoc, List.cons_append, pieces_cons hcs, pieces_cons hcs, List.map_cons, ih,
      List.map_cons]

/-! ## What fields hold -/

/-- A field with blanks around it is a field. -/
theorem isField_of_isPadded {text : List Char} (h : IsPadded text field) (htext : IsField text) :
    IsField field := by
  rcases h with ⟨before, after, rfl, hbefore, hafter⟩
  exact ((isField_of_blank hbefore).append htext).append (isField_of_blank hafter)

/-- What is left of a field without its blanks tells what number it holds. -/
theorem holdsNumber_iff : HoldsNumber field n ↔ IsNumeral (trim field) n := by
  constructor
  · rintro ⟨numeral, hnumeral, hpadded⟩
    have hblank : ∀ ch ∈ numeral, isBlank ch = false := hnumeral.forall_mem (by decide) (by decide)
    rw [hpadded.trim_eq hblank]
    exact hnumeral
  · intro h
    exact ⟨trim field, h, isPadded_trim field⟩

theorem HoldsNumber.isField (h : HoldsNumber field n) : IsField field := by
  rcases h with ⟨numeral, hnumeral, hpadded⟩
  refine isField_of_isPadded hpadded ⟨?_, ?_⟩
  · intro hmem
    exact hnumeral.forall_mem (P := (· ≠ ';')) (by decide) (by decide) ';' hmem rfl
  · intro hmem
    exact hnumeral.forall_mem (P := (· ≠ '#')) (by decide) (by decide) '#' hmem rfl

/-- What is left of a field without its blanks tells whether it has one of the two statuses. -/
theorem holdsSimple_iff : HoldsSimple field ↔ isSimple (trim field) = true := by
  have hsimple : isSimple (trim field) = true ↔ trim field = ['C'] ∨ trim field = ['S'] := by
    rw [isSimple, Bool.or_eq_true, decide_eq_true_eq, decide_eq_true_eq]
  rw [hsimple]
  constructor
  · rintro (hpadded | hpadded)
    · exact .inl (hpadded.trim_eq (List.forall_mem_singleton.mpr rfl))
    · exact .inr (hpadded.trim_eq (List.forall_mem_singleton.mpr rfl))
  · rintro (htrim | htrim)
    · exact .inl (htrim ▸ isPadded_trim field)
    · exact .inr (htrim ▸ isPadded_trim field)

theorem HoldsSimple.isField (h : HoldsSimple field) : IsField field := by
  rcases h with hpadded | hpadded
  · exact isField_of_isPadded hpadded (by decide)
  · exact isField_of_isPadded hpadded (by decide)

/-! ## Reading rows -/

/-- A row is told by its first three fields. -/
theorem isRow_iff : IsRow line n m ↔
    ∃ code status target more, fields line = code :: status :: target :: more ∧
      IsNumeral code n ∧ isSimple status = true ∧ IsNumeral target m := by
  constructor
  · rintro ⟨code, status, target, rest, rfl, hcode, hstatus, htarget, hrest⟩
    rcases exists_pieces_append htarget.isField hrest with ⟨ps, hps⟩
    refine ⟨trim code, trim status, trim target, ps.map trim, ?_, holdsNumber_iff.mp hcode,
      holdsSimple_iff.mp hstatus, holdsNumber_iff.mp htarget⟩
    have hpieces : pieces (code ++ ';' :: (status ++ ';' :: (target ++ rest))) =
        code :: status :: target :: ps := by
      rw [pieces_cons hcode.isField, pieces_cons hstatus.isField, hps]
    exact congrArg (List.map trim) hpieces
  · rintro ⟨code, status, target, more, hfields, hcode, hstatus, htarget⟩
    obtain ⟨c, cs, hpieces, rfl, hcs⟩ := List.map_eq_cons_iff.mp hfields
    obtain ⟨s, ss, rfl, rfl, hss⟩ := List.map_eq_cons_iff.mp hcs
    obtain ⟨t, ts, rfl, rfl, -⟩ := List.map_eq_cons_iff.mp hss
    obtain ⟨-, rest, rfl, hrest⟩ := eq_append_cons_of_pieces hpieces
    obtain ⟨-, rest', rfl, hrest'⟩ := eq_append_cons_of_pieces hrest
    obtain ⟨-, rest'', rfl, hend⟩ := eq_append_of_pieces hrest'
    exact ⟨c, s, t, rest'', rfl, holdsNumber_iff.mpr hcode, holdsSimple_iff.mpr hstatus,
      holdsNumber_iff.mpr htarget, hend⟩

theorem IsRow.hasSimple (h : IsRow line n m) : HasSimple line := by
  rcases h with ⟨code, status, target, rest, rfl, hcode, hstatus, -, -⟩
  exact ⟨code, status, ';' :: (target ++ rest), rfl, hcode.isField, hstatus, .field _⟩

/-- Whether there is such a status is told by the second field. -/
theorem hasSimple_iff : HasSimple line ↔ (fields line)[1]?.any isSimple = true := by
  constructor
  · rintro ⟨code, status, rest, rfl, hcode, hstatus, hrest⟩
    rcases exists_pieces_append hstatus.isField hrest with ⟨ps, hps⟩
    have hpieces : pieces (code ++ ';' :: (status ++ rest)) = code :: status :: ps := by
      rw [pieces_cons hcode, hps]
    have hfields : fields (code ++ ';' :: (status ++ rest)) =
        trim code :: trim status :: ps.map trim := congrArg (List.map trim) hpieces
    rw [hfields]
    exact holdsSimple_iff.mp hstatus
  · intro h
    have hfields : fields line = (pieces line).map trim := rfl
    rw [hfields] at h
    match hpieces : pieces line with
    | [] =>
      rw [hpieces] at h
      exact absurd h Bool.false_ne_true
    | [code] =>
      rw [hpieces] at h
      exact absurd h Bool.false_ne_true
    | code :: status :: ps =>
      rw [hpieces] at h
      obtain ⟨hcode, rest, rfl, hrest⟩ := eq_append_cons_of_pieces hpieces
      obtain ⟨-, rest', rfl, hend⟩ := eq_append_of_pieces hrest
      exact ⟨code, status, rest', rfl, hcode, holdsSimple_iff.mpr h, hend⟩

instance (line : List Char) : Decidable (HasSimple line) :=
  decidable_of_iff _ hasSimple_iff.symm

/-- A row has one pair of numbers. -/
theorem IsRow.unique (h : IsRow line n m) (h' : IsRow line n' m') : n = n' ∧ m = m' := by
  obtain ⟨code, status, target, more, hfields, hcode, -, htarget⟩ := isRow_iff.mp h
  obtain ⟨code', status', target', more', hfields', hcode', -, htarget'⟩ := isRow_iff.mp h'
  rw [hfields] at hfields'
  obtain ⟨rfl, hrest⟩ := List.cons.inj hfields'
  obtain ⟨-, hrest⟩ := List.cons.inj hrest
  obtain ⟨rfl, -⟩ := List.cons.inj hrest
  exact ⟨hcode.unique hcode', htarget.unique htarget'⟩

/-- A field is read as the codepoint for which it is a numeral. -/
theorem codepoint?_eq_some_iff {c : Codepoint} :
    codepoint? field = some c ↔ IsNumeral field c.toNat := by
  rw [← read_eq_ok_iff, codepoint?]
  cases read 16 field with
  | error e => exact ⟨nofun, nofun⟩
  | ok v =>
    change some v = some c ↔ _
    rw [Option.some_inj, Except.ok.injEq]

/-- A line gives an entry if it is a row for it, and not otherwise. -/
theorem read?_eq_some_iff {e : Entry} :
    read? line = some e ↔ IsRow line e.1.toNat e.2.toNat := by
  rw [isRow_iff]
  constructor
  · intro h
    unfold read? at h
    split at h
    next code status target more hfields =>
      split at h
      next hsimple =>
        split at h
        next c v hc hv =>
          rcases Option.some.inj h with rfl
          exact ⟨code, status, target, more, hfields, codepoint?_eq_some_iff.mp hc, hsimple,
            codepoint?_eq_some_iff.mp hv⟩
        next => exact absurd h nofun
      next => exact absurd h nofun
    next => exact absurd h nofun
  · rintro ⟨code, status, target, more, hfields, hcode, hsimple, htarget⟩
    rw [← codepoint?_eq_some_iff] at hcode htarget
    rw [read?, hfields]
    dsimp only
    rw [if_pos hsimple, hcode, htarget]

/-- A carriage return at the end of a line makes no difference. -/
theorem read?_append_return (line : List Char) : read? (line ++ ['\r']) = read? line := by
  have hreturn : isBlank '\r' = true := by decide
  rw [read?, read?, fields_append_blank line hreturn]

end Row

end CaseFolding

import CaseFolding.Proofs.Text.Line
import CaseFolding.Text.Source

namespace CaseFolding.Text

/-! # Source lines read back

Written lines are the source lines of their text if none of them goes on in the next
one. A comment may go on, but only into what stands below it. So comments above other
lines leave these alone if the lowest of them ends where its line does.
-/

/-- A line that a compiler reads as it is: its end does not come early, and it does not go on. -/
structure IsPlain (line : String) : Prop extends IsUnbroken line where
  noBackslash : '\\' ∉ line.toList

instance (line : String) : Decidable (IsPlain line) :=
  decidable_of_iff ('\n' ∉ line.toList ∧ '\r' ∉ line.toList ∧ '\\' ∉ line.toList)
    ⟨fun h => ⟨⟨h.1, h.2.1⟩, h.2.2⟩, fun h => ⟨h.feedless, h.returnless, h.noBackslash⟩⟩

theorem IsUnbroken.append {s t : String} (hs : IsUnbroken s) (ht : IsUnbroken t) :
    IsUnbroken (s ++ t) := by
  constructor <;> rw [String.toList_append, List.mem_append, not_or]
  · exact ⟨hs.feedless, ht.feedless⟩
  · exact ⟨hs.returnless, ht.returnless⟩

theorem IsPlain.append {s t : String} (hs : IsPlain s) (ht : IsPlain t) : IsPlain (s ++ t) := by
  refine ⟨hs.toIsUnbroken.append ht.toIsUnbroken, ?_⟩
  rw [String.toList_append, List.mem_append, not_or]
  exact ⟨hs.noBackslash, ht.noBackslash⟩

theorem isPlain_intercalate {m : String} (hm : IsPlain m) {ls : List String}
    (h : ∀ l ∈ ls, IsPlain l) : IsPlain (m.intercalate ls) := by
  induction ls with
  | nil => exact (by decide : IsPlain "")
  | cons l ls ih =>
    have hl := h l (by simp)
    cases ls with
    | nil => simpa using hl
    | cons l' ls =>
      rw [String.intercalate_cons_cons]
      exact (hl.append hm).append (ih fun l'' hl'' => h l'' (by simp [hl'']))

/-! ## Ends of lines -/

theorem unifyEnds_of_not_mem {cs : List Char} (h : '\r' ∉ cs) : unifyEnds cs = cs := by
  induction cs with
  | nil => rfl
  | cons ch cs ih =>
    rw [List.mem_cons, not_or] at h
    rcases h with ⟨hch, hcs⟩
    rw [unifyEnds, ih hcs]
    · exact fun _ hreturn => absurd hreturn.symm hch
    · exact fun hreturn => absurd hreturn.symm hch

theorem return_not_mem_ofLines {ls : List String} (h : ∀ l ∈ ls, IsUnbroken l) :
    '\r' ∉ (ofLines ls).toList := by
  induction ls with
  | nil => exact List.not_mem_nil
  | cons l ls ih =>
    rcases List.forall_mem_cons.mp h with ⟨hl, hls⟩
    rw [toList_ofLines_cons, List.mem_append, List.mem_cons]
    rintro (hfront | hfeed | hrest)
    · exact hl.returnless hfront
    · exact absurd hfeed (by decide)
    · exact ih hls hrest

/-- Of unbroken lines only those are joined that go on. -/
theorem sourceLines_ofLines {ls : List String} (h : ∀ l ∈ ls, IsUnbroken l) :
    sourceLines (ofLines ls).toList = splice (ls.map String.toList) := by
  rw [sourceLines, unifyEnds_of_not_mem (return_not_mem_ofLines h), lines_ofLines h]

/-! ## Lines that go on -/

/-- What stands before the backslash is the front of the line. -/
theorem continued?_eq_some_iff {line front : List Char} :
    continued? line = some front ↔
      ∃ padding, (∀ ch ∈ padding, isPadding ch = true) ∧ line = front ++ '\\' :: padding := by
  constructor
  · intro h
    unfold continued? at h
    split at h
    next back hback =>
      rcases Option.some.inj h with rfl
      have hpadding := List.all_eq_true.mp (List.all_takeWhile (p := isPadding) (l := line.reverse))
      have hline := List.takeWhile_append_dropWhile (p := isPadding) (l := line.reverse)
      rw [hback] at hline
      refine ⟨(line.reverse.takeWhile isPadding).reverse, ?_, ?_⟩
      · exact fun ch hch => hpadding ch (List.mem_reverse.mp hch)
      · rw [← List.reverse_inj, List.reverse_append, List.reverse_cons, List.reverse_reverse,
          List.reverse_reverse, List.append_assoc]
        exact hline.symm
    next => exact absurd h nofun
  · rintro ⟨padding, hpadding, rfl⟩
    rw [continued?, List.reverse_append, List.reverse_cons, List.append_assoc,
      List.dropWhile_append_of_pos fun ch hch => hpadding ch (List.mem_reverse.mp hch),
      List.singleton_append, List.dropWhile_cons_of_neg (by decide)]
    exact congrArg some (List.reverse_reverse front)

theorem IsPlain.continued?_eq_none {line : String} (h : IsPlain line) :
    continued? line.toList = none := by
  rw [Option.eq_none_iff_forall_ne_some]
  intro front hfront
  rcases continued?_eq_some_iff.mp hfront with ⟨padding, -, hline⟩
  exact h.noBackslash (hline ▸ List.mem_append_right front List.mem_cons_self)

/-- Whether a line goes on does not depend on what stands in front without backslash. -/
theorem continued?_append_of_not_mem {lead : List Char} (hlead : '\\' ∉ lead) (line : List Char) :
    continued? (lead ++ line) = (continued? line).map (lead ++ ·) := by
  cases hgoes : continued? line with
  | some front =>
    rcases continued?_eq_some_iff.mp hgoes with ⟨padding, hpadding, rfl⟩
    exact continued?_eq_some_iff.mpr ⟨padding, hpadding, (List.append_assoc ..).symm⟩
  | none =>
    have hstays : ∀ front, continued? line ≠ some front := by
      intro front hsome
      exact absurd (hgoes.symm.trans hsome) nofun
    rw [Option.map_none, Option.eq_none_iff_forall_ne_some]
    intro front hfront
    rcases continued?_eq_some_iff.mp hfront with ⟨padding, hpadding, hline⟩
    -- the backslash is in the line, as it is not in what stands in front
    rcases List.append_eq_append_iff.mp hline with ⟨more, -, hrest⟩ | ⟨more, hlead', hrest⟩
    · exact hstays more (continued?_eq_some_iff.mpr ⟨padding, hpadding, hrest⟩)
    · cases more with
      | nil => exact hstays [] (continued?_eq_some_iff.mpr ⟨padding, hpadding, hrest.symm⟩)
      | cons ch more =>
        rcases List.cons.inj hrest with ⟨rfl, -⟩
        exact hlead (hlead' ▸ List.mem_append_right front List.mem_cons_self)

/-- Lines that do not go on stay as they are. -/
theorem splice_append_of_isPlain {ls : List String} (h : ∀ l ∈ ls, IsPlain l)
    (below : List (List Char)) :
    splice (ls.map String.toList ++ below) = ls.map String.toList ++ splice below := by
  induction ls with
  | nil => rfl
  | cons l ls ih =>
    rcases List.forall_mem_cons.mp h with ⟨hl, hls⟩
    rw [List.map_cons, List.cons_append, splice, hl.continued?_eq_none, List.cons_append, ← ih hls]

/-- Plain lines are read as they have been written. -/
theorem sourceLines_ofLines_of_isPlain {ls : List String} (h : ∀ l ∈ ls, IsPlain l) :
    sourceLines (ofLines ls).toList = ls.map String.toList := by
  rw [sourceLines_ofLines fun l hl => (h l hl).toIsUnbroken,
    ← List.append_nil (ls.map String.toList), splice_append_of_isPlain h]
  rfl

/-! ## Comments -/

/-- A line that starts with two slashes. -/
structure IsComment (line : String) : Prop extends IsUnbroken line where
  slashes : ['/', '/'] <+: line.toList

/-- Comments, of which the lowest one does not go on. -/
inductive AreComments : List String → Prop where
  | nil : AreComments []
  | cons {line : String} {below : List String} (hline : IsComment line)
      (hends : below = [] → continued? line.toList = none) (hbelow : AreComments below) :
      AreComments (line :: below)

theorem AreComments.isUnbroken {ls : List String} (h : AreComments ls) :
    ∀ l ∈ ls, IsUnbroken l := by
  induction h with
  | nil => exact nofun
  | cons hline _ _ ih => exact List.forall_mem_cons.mpr ⟨hline.toIsUnbroken, ih⟩

/-- What stands before the backslash of a comment still starts with two slashes. -/
theorem IsComment.slashes_of_continued? {line : String} (h : IsComment line) {front : List Char}
    (hfront : continued? line.toList = some front) : ['/', '/'] <+: front := by
  rcases continued?_eq_some_iff.mp hfront with ⟨padding, -, hline⟩
  have hslashes := h.slashes
  rw [hline] at hslashes
  match front, hslashes with
  | [], h => exact absurd (List.cons_prefix_cons.mp h).1 (by decide)
  | [ch], h =>
    have hsecond := (List.cons_prefix_cons.mp h).2
    exact absurd (List.cons_prefix_cons.mp hsecond).1 (by decide)
  | first :: second :: front, h =>
    rcases List.cons_prefix_cons.mp h with ⟨rfl, hsecond⟩
    rcases List.cons_prefix_cons.mp hsecond with ⟨rfl, -⟩
    exact ⟨front, rfl⟩

theorem areComments_of_isPlain {ls : List String} (h : ∀ l ∈ ls, IsComment l ∧ IsPlain l) :
    AreComments ls := by
  induction ls with
  | nil => exact .nil
  | cons l ls ih =>
    rcases List.forall_mem_cons.mp h with ⟨⟨hcomment, hplain⟩, hls⟩
    exact .cons hcomment (fun _ => hplain.continued?_eq_none) (ih hls)

/-- Comments may go on above other ones. -/
theorem AreComments.append {ls ms : List String} (hls : ∀ l ∈ ls, IsComment l) (hne : ms ≠ [])
    (hms : AreComments ms) : AreComments (ls ++ ms) := by
  induction ls with
  | nil => exact hms
  | cons l ls ih =>
    rcases List.forall_mem_cons.mp hls with ⟨hl, hls⟩
    exact .cons hl (fun hnil => absurd (List.append_eq_nil_iff.mp hnil).2 hne) (ih hls)

/-- Comments are source lines apart from those below them, whether they are joined or not. -/
theorem AreComments.exists_splice {ls : List String} (h : AreComments ls)
    (below : List (List Char)) :
    ∃ comments, (∀ c ∈ comments, ['/', '/'] <+: c) ∧ (ls ≠ [] → comments ≠ []) ∧
      splice (ls.map String.toList ++ below) = comments ++ splice below := by
  induction h with
  | nil => exact ⟨[], nofun, fun hne => absurd rfl hne, rfl⟩
  | @cons line ls hline hends _ ih =>
    rcases ih with ⟨comments, hcomments, hne, hsplice⟩
    rw [List.map_cons, List.cons_append, splice, hsplice]
    cases hgoes : continued? line.toList with
    | none =>
      exact ⟨line.toList :: comments, List.forall_mem_cons.mpr ⟨hline.slashes, hcomments⟩, nofun,
        rfl⟩
    | some front =>
      -- a line that goes on is not the lowest one, so it takes in a comment
      have hls : ls ≠ [] := fun hnil => absurd ((hends hnil).symm.trans hgoes) nofun
      rcases List.exists_cons_of_ne_nil (hne hls) with ⟨c, more, rfl⟩
      have hfront : ['/', '/'] <+: front ++ c :=
        (hline.slashes_of_continued? hgoes).trans (List.prefix_append front c)
      exact ⟨(front ++ c) :: more,
        List.forall_mem_cons.mpr ⟨hfront, (List.forall_mem_cons.mp hcomments).2⟩, nofun, rfl⟩

/-- Plain lines between comments are source lines between comments. -/
theorem exists_sourceLines_between {before ls after : List String} (hbefore : AreComments before)
    (hls : ∀ l ∈ ls, IsPlain l) (hafter : AreComments after) :
    ∃ front back, (∀ c ∈ front, ['/', '/'] <+: c) ∧ (∀ c ∈ back, ['/', '/'] <+: c) ∧
      sourceLines (ofLines (before ++ ls ++ after)).toList =
        front ++ ls.map String.toList ++ back := by
  have hunbroken : ∀ l ∈ before ++ ls ++ after, IsUnbroken l := by
    simp only [List.forall_mem_append]
    exact ⟨⟨hbefore.isUnbroken, fun l hl => (hls l hl).toIsUnbroken⟩, hafter.isUnbroken⟩
  rcases hafter.exists_splice [] with ⟨back, hback, -, hbelow⟩
  rcases hbefore.exists_splice (ls.map String.toList ++ after.map String.toList) with
    ⟨front, hfront, -, habove⟩
  rw [List.append_nil, splice, List.append_nil] at hbelow
  refine ⟨front, back, hfront, hback, ?_⟩
  rw [sourceLines_ofLines hunbroken, List.map_append, List.map_append, List.append_assoc, habove,
    splice_append_of_isPlain hls, hbelow, List.append_assoc]

/-- A comment that goes on takes in the line below it. -/
theorem exists_sourceLines_of_continued {header first : String} {others after : List String}
    {front : List Char} (hheader : IsComment header)
    (hgoes : continued? header.toList = some front) (hls : ∀ l ∈ first :: others, IsPlain l)
    (hafter : AreComments after) :
    ∃ back, (∀ c ∈ back, ['/', '/'] <+: c) ∧
      sourceLines (ofLines (header :: (first :: others ++ after))).toList =
        [front ++ first.toList] ++ others.map String.toList ++ back := by
  rcases List.forall_mem_cons.mp hls with ⟨hfirst, hothers⟩
  have hunbroken : ∀ l ∈ header :: (first :: others ++ after), IsUnbroken l := by
    rw [List.forall_mem_cons, List.forall_mem_append]
    exact ⟨hheader.toIsUnbroken, fun l hl => (hls l hl).toIsUnbroken, hafter.isUnbroken⟩
  rcases hafter.exists_splice [] with ⟨back, hback, -, hbelow⟩
  rw [List.append_nil, splice, List.append_nil] at hbelow
  refine ⟨back, hback, ?_⟩
  rw [sourceLines_ofLines hunbroken, List.map_cons, List.map_append, List.map_cons,
    List.cons_append, splice, hgoes, splice, hfirst.continued?_eq_none,
    splice_append_of_isPlain hothers, hbelow]
  rfl

end CaseFolding.Text

import CaseFolding.Text.Line

namespace CaseFolding.Text

/-! # Lines read back

Lines that are written one after the other are found again, as long as no line
holds a character of a line end. Any text can be taken apart into lines, and where
a carriage return is blank it does not matter to which line it is counted.
-/

/-- A line without line feed and carriage return. -/
structure IsUnbroken (line : String) : Prop where
  feedless : '\n' ∉ line.toList
  returnless : '\r' ∉ line.toList

theorem chompReturn_of_not_mem {cs : List Char} (h : '\r' ∉ cs) : chompReturn cs = cs := by
  unfold chompReturn
  split
  next hlast =>
    exact absurd (List.mem_of_getLast? hlast) h
  next => rfl

/-- Up to the first line feed there is one line. -/
theorem lines_append_feed {cs : List Char} (hfeed : '\n' ∉ cs) (rest : List Char) :
    lines (cs ++ '\n' :: rest) = chompReturn cs :: lines rest := by
  have hne : rest.splitOn '\n' ≠ [] := List.splitOn_ne_nil _ _
  rw [lines, List.splitOn_append_cons_self_of_not_mem hfeed]
  cases hsplit : rest.splitOn '\n' with
  | nil => exact absurd hsplit hne
  | cons piece pieces =>
    rw [linesOfPieces, lines, hsplit]
    intro h
    exact nomatch h

theorem toList_ofLines_cons (l : String) (ls : List String) :
    (ofLines (l :: ls)).toList = l.toList ++ '\n' :: (ofLines ls).toList := by
  simp [ofLines]

/-- Lines above others. -/
theorem ofLines_append (ls ms : List String) : ofLines (ls ++ ms) = ofLines ls ++ ofLines ms := by
  induction ls with
  | nil => simp [ofLines]
  | cons l ls ih =>
    apply String.toList_inj.mp
    rw [List.cons_append, toList_ofLines_cons, ih, String.toList_append, String.toList_append,
      toList_ofLines_cons, List.append_assoc, List.cons_append]

/-- The lines of written lines are these lines. -/
theorem lines_ofLines {ls : List String} (h : ∀ l ∈ ls, IsUnbroken l) :
    lines (ofLines ls).toList = ls.map String.toList := by
  induction ls with
  | nil => rfl
  | cons l ls ih =>
    rcases List.forall_mem_cons.mp h with ⟨hl, hls⟩
    rw [toList_ofLines_cons, lines_append_feed hl.feedless, chompReturn_of_not_mem hl.returnless,
      ih hls]
    rfl

/-! ## Lines of any text -/

/-- A text is made of lines. Each is ended by a line feed or by a carriage return and a line feed,
but the last one may lack its end. -/
inductive IsLines : List (List Char) → List Char → Prop where
  | nil : IsLines [] []
  | last {line : List Char} (hfeed : '\n' ∉ line) : IsLines [line] line
  | feed {line rest : List Char} {ls : List (List Char)} (hfeed : '\n' ∉ line)
      (hrest : IsLines ls rest) : IsLines (line :: ls) (line ++ '\n' :: rest)
  | returnFeed {line rest : List Char} {ls : List (List Char)} (hfeed : '\n' ∉ line)
      (hrest : IsLines ls rest) : IsLines (line :: ls) (line ++ '\r' :: '\n' :: rest)

/-- A text has no line feed, or a line stands above its first one and a shorter text below. -/
@[elab_as_elim]
theorem feed_induction {P : List Char → Prop} (cs : List Char)
    (last : ∀ line, '\n' ∉ line → P line)
    (feed : ∀ line rest, '\n' ∉ line → P rest → P (line ++ '\n' :: rest)) : P cs := by
  induction hn : cs.length using Nat.strongRecOn generalizing cs with
  | ind n ih =>
    by_cases hfeed : '\n' ∈ cs
    · rcases List.eq_append_cons_of_mem hfeed with ⟨line, rest, rfl, hline⟩
      have hlt : rest.length < n := by
        rw [← hn, List.length_append, List.length_cons]
        omega
      exact feed line rest hline (ih rest.length hlt rest rfl)
    · exact last cs hfeed

/-- The pieces that line feeds separate are lines of a text, the last one without an end. -/
theorem isLines_splitOn (cs : List Char) : IsLines (cs.splitOn '\n') cs := by
  induction cs using feed_induction with
  | last line hfeed =>
    rw [List.splitOn_eq_singleton hfeed]
    exact .last hfeed
  | feed line rest hfeed ih =>
    rw [List.splitOn_append_cons_self_of_not_mem hfeed]
    exact .feed hfeed ih

/-- Whatever stands above a line feed, the lines below it are those of the rest. -/
theorem lines_append_feed_of_splitOn (cs rest : List Char) :
    lines (cs ++ '\n' :: rest) = (cs.splitOn '\n').map chompReturn ++ lines rest := by
  induction cs using feed_induction with
  | last line hfeed =>
    rw [lines_append_feed hfeed, List.splitOn_eq_singleton hfeed]
    rfl
  | feed line below hfeed ih =>
    rw [List.append_assoc, List.cons_append, lines_append_feed hfeed, ih,
      List.splitOn_append_cons_self_of_not_mem hfeed]
    rfl

/-- What is written line by line stands above whatever follows. -/
theorem exists_lines_ofLines_append (ls : List String) (rest : List Char) :
    ∃ above, lines ((ofLines ls).toList ++ rest) = above ++ lines rest := by
  induction ls with
  | nil => exact ⟨[], rfl⟩
  | cons l ls ih =>
    rcases ih with ⟨above, habove⟩
    refine ⟨(l.toList.splitOn '\n').map chompReturn ++ above, ?_⟩
    rw [toList_ofLines_cons, List.append_assoc, List.cons_append, lines_append_feed_of_splitOn,
      habove, List.append_assoc]

theorem exists_isLines (cs : List Char) : ∃ ls, IsLines ls cs :=
  ⟨_, isLines_splitOn cs⟩

/-! ## Ends of lines exchanged -/

/-- A text with a carriage return and a line feed wherever there was a line feed. -/
def withReturns (cs : List Char) : List Char :=
  cs.flatMap fun ch => if ch = '\n' then ['\r', '\n'] else [ch]

theorem withReturns_of_not_mem {line : List Char} (h : '\n' ∉ line) : withReturns line = line := by
  induction line with
  | nil => rfl
  | cons ch line ih =>
    rcases List.ne_and_not_mem_of_not_mem_cons h with ⟨hch, hline⟩
    have hone : withReturns (ch :: line) = [ch] ++ withReturns line := by
      rw [withReturns, List.flatMap_cons, if_neg (Ne.symm hch)]
      rfl
    rw [hone, ih hline]
    rfl

/-- The first line gets its new end, and the text below it all others. -/
theorem withReturns_append_feed {line : List Char} (h : '\n' ∉ line) (rest : List Char) :
    withReturns (line ++ '\n' :: rest) = line ++ '\r' :: '\n' :: withReturns rest := by
  have happend : withReturns (line ++ '\n' :: rest) =
      withReturns line ++ withReturns ('\n' :: rest) := List.flatMap_append
  rw [happend, withReturns_of_not_mem h]
  rfl

/-- A text whose ends of lines are exchanged is made of the same lines. -/
theorem isLines_withReturns (cs : List Char) : IsLines (cs.splitOn '\n') (withReturns cs) := by
  induction cs using feed_induction with
  | last line hfeed =>
    rw [List.splitOn_eq_singleton hfeed, withReturns_of_not_mem hfeed]
    exact .last hfeed
  | feed line rest hfeed ih =>
    rw [List.splitOn_append_cons_self_of_not_mem hfeed, withReturns_append_feed hfeed]
    exact .returnFeed hfeed ih

/-! ## What the reader of lines makes of a text -/

theorem chompReturn_append_return (cs : List Char) : chompReturn (cs ++ ['\r']) = cs := by
  rw [chompReturn, List.getLast?_concat, if_pos rfl, List.dropLast_concat]

theorem mem_of_mem_chompReturn {ch : Char} {cs : List Char} (h : ch ∈ chompReturn cs) :
    ch ∈ cs := by
  unfold chompReturn at h
  split at h
  next => exact List.dropLast_subset cs h
  next => exact h

theorem feed_not_mem_of_mem_lines {line cs : List Char} (h : line ∈ lines cs) : '\n' ∉ line := by
  have hstep : ∀ {front rest : List Char}, '\n' ∉ front → line ∈ lines (front ++ '\n' :: rest) →
      (line ∈ lines rest → '\n' ∉ line) → '\n' ∉ line := by
    intro front rest hfront hmem ih
    rw [lines_append_feed hfront] at hmem
    rcases List.mem_cons.mp hmem with rfl | hmem
    · exact fun hfeed => hfront (mem_of_mem_chompReturn hfeed)
    · exact ih hmem
  rcases exists_isLines cs with ⟨ls, hls⟩
  induction hls with
  | nil => exact absurd h List.not_mem_nil
  | @last only hfeed =>
    rw [lines, List.splitOn_eq_singleton hfeed, linesOfPieces] at h
    split at h
    next => exact absurd h List.not_mem_nil
    next =>
      rcases List.mem_singleton.mp h with rfl
      exact hfeed
  | feed hfeed _ ih => exact hstep hfeed h ih
  | @returnFeed front rest _ hfeed _ ih =>
    have hend : '\n' ∉ front ++ ['\r'] := by simp [hfeed]
    have htext : front ++ '\r' :: '\n' :: rest = (front ++ ['\r']) ++ '\n' :: rest := by simp
    exact hstep hend (htext ▸ h) ih

/-- A view of lines that shows nothing of an empty line and takes no notice of a carriage return at
the end shows the same of the lines of a text, however the text is taken apart. -/
theorem filterMap_lines {α : Type} {f : List Char → Option α} (hempty : f [] = none)
    (hreturn : ∀ line, f (line ++ ['\r']) = f line) {ls : List (List Char)} {cs : List Char}
    (h : IsLines ls cs) : (lines cs).filterMap f = ls.filterMap f := by
  have hchomp : ∀ line, f (chompReturn line) = f line := by
    intro line
    unfold chompReturn
    split
    next hlast =>
      rcases List.getLast?_eq_some_iff.mp hlast with ⟨front, rfl⟩
      rw [List.dropLast_concat, hreturn]
    next => rfl
  induction h with
  | nil => rfl
  | @last line hfeed =>
    rw [lines, List.splitOn_eq_singleton hfeed, linesOfPieces]
    split
    next hnil => rw [hnil, List.filterMap_cons_none hempty]
    next => rfl
  | feed hfeed _ ih =>
    rw [lines_append_feed hfeed, List.filterMap_cons, List.filterMap_cons, hchomp, ih]
  | @returnFeed line rest _ hfeed _ ih =>
    have hend : '\n' ∉ line ++ ['\r'] := by simp [hfeed]
    have htext : line ++ '\r' :: '\n' :: rest = (line ++ ['\r']) ++ '\n' :: rest := by simp
    rw [htext, lines_append_feed hend, chompReturn_append_return, List.filterMap_cons,
      List.filterMap_cons, ih]

end CaseFolding.Text

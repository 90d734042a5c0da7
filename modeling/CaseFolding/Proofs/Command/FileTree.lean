import CaseFolding.Command.FileTree

namespace CaseFolding.FileTree

/-! # What stays in a file tree

A directory is never taken away. So a path that leads somewhere goes on leading
there, whatever is written and made, and a file keeps its text until another one is
written where the path leads.
-/

variable {t t' t'' : FileTree} {p q : Place} {path text : String}

/-- A way that ends well has ended well in its first part, and from there on. -/
theorem bind_eq_ok {α β : Type} {x : Except FileError α} {g : α → Except FileError β} {b : β} :
    x >>= g = .ok b ↔ ∃ a, x = .ok a ∧ g a = .ok b := by
  cases x with
  | error e =>
    constructor
    · intro h
      cases h
    · rintro ⟨a, ha, -⟩
      cases ha
  | ok a =>
    constructor
    · intro h
      exact ⟨a, rfl, h⟩
    · rintro ⟨a', ha, h⟩
      rcases Except.ok.inj ha with rfl
      exact h

/-! ## Directories -/

/-- What is a directory in `t` is one in `t'`. -/
def KeepsDirectories (t t' : FileTree) : Prop :=
  ∀ p, t.item? p = some .directory → t'.item? p = some .directory

theorem KeepsDirectories.refl (t : FileTree) : KeepsDirectories t t :=
  fun _ h => h

theorem KeepsDirectories.trans (h : KeepsDirectories t t') (h' : KeepsDirectories t' t'') :
    KeepsDirectories t t'' :=
  fun p hp => h' p (h p hp)

/-- Names that lead somewhere go on leading there. -/
theorem KeepsDirectories.walk_eq_ok (h : KeepsDirectories t t') {names : List String}
    (hwalk : t.walk p names = .ok q) : t'.walk p names = .ok q := by
  induction names generalizing p with
  | nil => exact hwalk
  | cons name more ih =>
    rw [walk] at hwalk ⊢
    split at hwalk
    next hp =>
      rw [h p hp]
      exact ih hwalk
    next => exact absurd hwalk nofun
    next => exact absurd hwalk nofun

/-- A path that leads somewhere goes on leading there. -/
theorem KeepsDirectories.locate_eq_ok (h : KeepsDirectories t t') (hp : t.locate path = .ok p) :
    t'.locate path = .ok p := by
  rw [locate] at hp ⊢
  split at hp
  next => exact absurd hp nofun
  next hne =>
    rw [if_neg hne]
    exact h.walk_eq_ok hp

theorem ne_root (h : t.item? p ≠ some .directory) : p ≠ [] := by
  rintro rfl
  exact h rfl

theorem keepsDirectories_put (h : t.item? p ≠ some .directory) (i : Item) :
    KeepsDirectories t (t.put p i) := by
  intro q hq
  rw [item?_put t (ne_root h), if_neg]
  · exact hq
  · rintro rfl
    exact h hq

/-- Names lead to a directory. -/
theorem isDirectory_iff {names : List String} :
    t.isDirectory names = true ↔ ∃ p, t.walk [] names = .ok p ∧ t.item? p = some .directory := by
  rw [isDirectory]
  cases t.walk [] names with
  | error e => exact ⟨nofun, nofun⟩
  | ok p =>
    constructor
    · intro h
      rcases (Option.any_eq_true _ _).mp h with ⟨i, hi, hdirectory⟩
      cases i with
      | directory => exact ⟨p, rfl, hi⟩
      | file content => exact absurd hdirectory nofun
    · rintro ⟨q, hq, hdirectory⟩
      rcases Except.ok.inj hq with rfl
      exact (Option.any_eq_true _ _).mpr ⟨_, hdirectory, rfl⟩

theorem KeepsDirectories.isDirectory (h : KeepsDirectories t t') {names : List String}
    (hnames : t.isDirectory names = true) : t'.isDirectory names = true := by
  rcases isDirectory_iff.mp hnames with ⟨p, hwalk, hp⟩
  exact isDirectory_iff.mpr ⟨p, h.walk_eq_ok hwalk, h p hp⟩

/-! ## Making directories -/

/-- A place in `t'` has the text that was written there last. If there is none, it is as it was in
`t`, or has become a directory. -/
def AsWritten (t t' : FileTree) (p : Place) : (last : Option String) → Prop
  | some text => t'.item? p = some (.file text.toUTF8)
  | none => t'.item? p = t.item? p ∨ t.item? p = none ∧ t'.item? p = some .directory

/-- A later text takes the place of an earlier one. -/
theorem AsWritten.trans {last last' : Option String} (h : AsWritten t t' p last)
    (h' : AsWritten t' t'' p last') : AsWritten t t'' p (last'.or last) := by
  cases last' with
  | some text => exact h'
  | none =>
    rw [Option.none_or]
    rcases h' with hsame | ⟨hnone, hnew⟩
    · cases last with
      | some text => exact hsame.trans h
      | none =>
        rcases h with hsame' | ⟨hnone', hnew'⟩
        · exact .inl (hsame.trans hsame')
        · exact .inr ⟨hnone', hsame.trans hnew'⟩
    · cases last with
      | some text => exact absurd (hnone.symm.trans h) nofun
      | none =>
        rcases h with hsame' | ⟨-, hnew'⟩
        · exact .inr ⟨hsame'.symm.trans hnone, hnew⟩
        · exact absurd (hnone.symm.trans hnew') nofun

/-- A file is never made a directory. -/
theorem AsWritten.ne_directory {last : Option String} (h : AsWritten t t' p last)
    {content : ByteArray} (hfile : t.item? p = some (.file content)) :
    t'.item? p ≠ some .directory := by
  intro hnew
  cases last with
  | some text => exact absurd (h.symm.trans hnew) nofun
  | none =>
    rcases h with hsame | ⟨hnone, -⟩
    · exact absurd (hfile.symm.trans (hsame.symm.trans hnew)) nofun
    · exact absurd (hfile.symm.trans hnone) nofun

/-- Everything in `t'` is as it was in `t`, but for directories that are new. -/
def GainsDirectories (t t' : FileTree) : Prop :=
  ∀ p, AsWritten t t' p none

theorem GainsDirectories.refl (t : FileTree) : GainsDirectories t t :=
  fun _ => .inl rfl

theorem GainsDirectories.trans (h : GainsDirectories t t') (h' : GainsDirectories t' t'') :
    GainsDirectories t t'' :=
  fun p => (h p).trans (h' p)

theorem GainsDirectories.keepsDirectories (h : GainsDirectories t t') : KeepsDirectories t t' := by
  intro p hp
  rcases h p with hsame | ⟨-, hnew⟩
  · exact hsame.trans hp
  · exact hnew

/-- Where there is nothing, there may be a directory. -/
theorem gainsDirectories_put (h : t.item? p = none) :
    GainsDirectories t (t.put p .directory) := by
  intro q
  have hp : p ≠ [] := by
    rintro rfl
    exact absurd h nofun
  have hput := item?_put t hp .directory q
  split at hput
  next hq => exact .inr ⟨hq ▸ h, hput⟩
  next => exact .inl hput

theorem exists_of_makeDirectory {names : List String} (h : t.makeDirectory names = .ok t') :
    ∃ p, t.walk [] names = .ok p ∧ t.item? p = none ∧ t' = t.put p .directory := by
  rw [makeDirectory] at h
  rcases bind_eq_ok.mp h with ⟨p, hwalk, hput⟩
  split at hput
  next => exact absurd hput nofun
  next hnone => exact ⟨p, hwalk, hnone, (Except.ok.inj hput).symm⟩

theorem gainsDirectories_of_makeDirectory {names : List String}
    (h : t.makeDirectory names = .ok t') : GainsDirectories t t' := by
  rcases exists_of_makeDirectory h with ⟨p, -, hnone, rfl⟩
  exact gainsDirectories_put hnone

/-! ## Files -/

/-- The bytes of a text hold that text and no other. -/
theorem fromUTF8?_eq_some_iff {bytes : ByteArray} :
    String.fromUTF8? bytes = some text ↔ bytes = text.toUTF8 := by
  unfold String.fromUTF8?
  constructor
  · intro h
    split at h
    next =>
      rcases Option.some.inj h with rfl
      rfl
    next => exact absurd h nofun
  · rintro rfl
    exact dif_pos text.isValidUTF8

/-- A path leads to a file with a text. -/
structure HasText (t : FileTree) (path : String) (p : Place) (text : String) : Prop where
  locate : t.locate path = .ok p
  noSlash : endsInSlash path = false
  item : t.item? p = some (.file text.toUTF8)

/-- Such a file is read. -/
theorem HasText.readText_eq_ok (h : t.HasText path p text) : t.readText path = .ok text := by
  have hbytes : t.readBytes path = .ok text.toUTF8 := by
    rw [readBytes]
    refine bind_eq_ok.mpr ⟨p, h.locate, ?_⟩
    rw [h.item]
    exact if_neg (Bool.eq_false_iff.mp h.noSlash)
  rw [readText]
  refine bind_eq_ok.mpr ⟨text.toUTF8, hbytes, ?_⟩
  rw [fromUTF8?_eq_some_iff.mpr rfl]

/-- A path leads to where a file can be written. -/
structure IsFree (t : FileTree) (path : String) (p : Place) : Prop where
  locate : t.locate path = .ok p
  noSlash : endsInSlash path = false
  item : t.item? p ≠ some .directory

/-- What is written where there may be a file. -/
theorem IsFree.writeText_eq (h : t.IsFree path p) (text : String) :
    t.writeText path text = .ok (t.put p (.file text.toUTF8)) := by
  rw [writeText]
  refine bind_eq_ok.mpr ⟨p, h.locate, ?_⟩
  rw [if_neg (Bool.eq_false_iff.mp h.noSlash)]
  split
  next hitem => exact absurd hitem h.item
  next => rfl

/-- A text is written only where there may be a file. -/
theorem exists_isFree_of_writeText (h : t.writeText path text = .ok t') :
    ∃ p, t.IsFree path p ∧ t' = t.put p (.file text.toUTF8) := by
  rw [writeText] at h
  rcases bind_eq_ok.mp h with ⟨p, hlocate, hput⟩
  split at hput
  next => exact absurd hput nofun
  next hslash =>
    split at hput
    next => exact absurd hput nofun
    next hitem =>
      exact ⟨p, ⟨hlocate, Bool.eq_false_iff.mpr hslash, hitem⟩, (Except.ok.inj hput).symm⟩

theorem keepsDirectories_of_writeText (h : t.writeText path text = .ok t') :
    KeepsDirectories t t' := by
  rcases exists_isFree_of_writeText h with ⟨p, hfree, rfl⟩
  exact keepsDirectories_put hfree.item _

/-- Writing a text takes no other file its place. -/
theorem IsFree.of_writeText {path' text' : String} (h : t.IsFree path p)
    (hwrite : t.writeText path' text' = .ok t') : t'.IsFree path p := by
  have hkeeps := keepsDirectories_of_writeText hwrite
  rcases exists_isFree_of_writeText hwrite with ⟨q, hfree, rfl⟩
  refine ⟨hkeeps.locate_eq_ok h.locate, h.noSlash, ?_⟩
  rw [item?_put t (ne_root hfree.item)]
  split
  next => exact nofun
  next => exact h.item

/-- Whether a path leads to a place. -/
def leadsTo (t : FileTree) (path : String) (p : Place) : Bool :=
  match t.locate path with
  | .ok q => q = p
  | .error _ => false

/-- A path that leads somewhere leads nowhere else. -/
theorem leadsTo_iff (h : t.locate path = .ok q) : t.leadsTo path p = true ↔ q = p := by
  rw [leadsTo, h]
  exact decide_eq_true_iff

/-- What has been written is there, and all else is as before. -/
theorem asWritten_of_writeText (h : t.writeText path text = .ok t') (p : Place) :
    AsWritten t t' p (if t.leadsTo path p then some text else none) := by
  rcases exists_isFree_of_writeText h with ⟨q, hfree, rfl⟩
  have hput := item?_put t (ne_root hfree.item) (.file text.toUTF8) p
  split
  next hp =>
    rcases (leadsTo_iff hfree.locate).mp hp with rfl
    rwa [if_pos rfl] at hput
  next hp =>
    rw [if_neg] at hput
    · exact .inl hput
    · rintro rfl
      exact hp ((leadsTo_iff hfree.locate).mpr rfl)

/-! ## Paths in a directory -/

/-- A name that can be a file of a directory. -/
structure IsFileName (name : String) : Prop where
  ne_empty : name.toList ≠ []
  noSlash : '/' ∉ name.toList
  ne_here : name ≠ "."
  ne_back : name ≠ ".."

theorem filter_splitOn_append (xs ys : List Char) :
    ((xs ++ '/' :: ys).splitOn '/').filter (· ≠ []) =
      (xs.splitOn '/').filter (· ≠ []) ++ (ys.splitOn '/').filter (· ≠ []) := by
  rw [List.splitOn_append_cons_self, List.filter_append]

theorem names_inDirectory (dir : String) {name : String} (h : IsFileName name) :
    names (inDirectory dir name) = names dir ++ [name] := by
  have hname : (name.toList.splitOn '/').filter (· ≠ []) = [name.toList] := by
    rw [List.splitOn_eq_singleton h.noSlash]
    simp [h.ne_empty]
  have hsplit : (((inDirectory dir name).toList).splitOn '/').filter (· ≠ []) =
      (dir.toList.splitOn '/').filter (· ≠ []) ++ [name.toList] := by
    rw [inDirectory]
    split
    next hdir =>
      rcases hdir with rfl | hslash
      · rw [String.empty_append, hname]
        rfl
      · -- the slash at the end has no name behind it
        rw [endsInSlash, decide_eq_true_eq] at hslash
        rcases List.getLast?_eq_some_iff.mp hslash with ⟨front, hfront⟩
        have htext : front ++ ['/'] ++ name.toList = front ++ '/' :: name.toList := by simp
        rw [String.toList_append, hfront, htext, filter_splitOn_append, filter_splitOn_append,
          hname]
        simp
    next =>
      have htext : (dir ++ "/" ++ name).toList = dir.toList ++ '/' :: name.toList := by simp
      rw [htext, filter_splitOn_append, hname]
  rw [names, hsplit, List.map_append, List.map_singleton, String.ofList_toList]
  rfl

/-- Names may be followed in two goes. -/
theorem walk_append (t : FileTree) (p : Place) (as bs : List String) :
    t.walk p (as ++ bs) = (t.walk p as).bind fun q => t.walk q bs := by
  induction as generalizing p with
  | nil => rfl
  | cons a as ih =>
    rw [List.cons_append, walk, walk]
    split
    next => exact ih _
    next => rfl
    next => rfl

/-- The path of a file in a directory leads from the directory to the file. -/
theorem exists_of_locate_inDirectory {dir name : String} (h : IsFileName name)
    (hp : t.locate (inDirectory dir name) = .ok p) :
    ∃ q, t.walk [] (names dir) = .ok q ∧ p = q ++ [name] := by
  have hwalk : t.walk [] (names dir ++ [name]) = .ok p := by
    rw [locate] at hp
    split at hp
    next => exact absurd hp nofun
    next => rw [← names_inDirectory dir h, hp]
  rw [walk_append] at hwalk
  cases hq : t.walk [] (names dir) with
  | error e => exact absurd (hq ▸ hwalk) nofun
  | ok q =>
    rw [hq] at hwalk
    change t.walk q [name] = .ok p at hwalk
    rw [walk] at hwalk
    split at hwalk
    next =>
      refine ⟨q, rfl, ?_⟩
      have hfollow : follow q name = q ++ [name] := by
        rw [follow, if_neg h.ne_here, if_neg h.ne_back]
      rw [← hfollow]
      exact (Except.ok.inj hwalk).symm
    next => exact absurd hwalk nofun
    next => exact absurd hwalk nofun

/-- Different names in a directory lead to different places. -/
theorem locate_inDirectory_ne {dir name name' : String} (h : IsFileName name)
    (h' : IsFileName name') (hne : name ≠ name') (hp : t.locate (inDirectory dir name) = .ok p) :
    t.locate (inDirectory dir name') ≠ .ok p := by
  intro hp'
  rcases exists_of_locate_inDirectory h hp with ⟨q, hq, rfl⟩
  rcases exists_of_locate_inDirectory h' hp' with ⟨q', hq', heq⟩
  rcases Except.ok.inj (hq.symm.trans hq') with rfl
  rw [List.append_cancel_left_eq, List.singleton_inj] at heq
  exact hne heq

end CaseFolding.FileTree

import CaseFolding.Command.System
import CaseFolding.Proofs.Command.FileTree

namespace CaseFolding

/-! # Directories that a system makes

A system that says to have made a directory has made it, and on the way there only what
was missing. It can say so whenever it refuses nothing and there is no file on the way.
-/

theorem unlessRefused_eq_ok_iff {α : Type} {reason : Option String} {attempt : Except FileError α}
    {a : α} : unlessRefused reason attempt = .ok a ↔ reason = none ∧ attempt = .ok a := by
  cases reason with
  | none => exact ⟨fun h => ⟨rfl, h⟩, And.right⟩
  | some reason => exact ⟨nofun, nofun⟩

theorem unlessRefused_ok_eq_error_iff {α : Type} {reason : Option String} {a : α} {e : FileError} :
    unlessRefused reason (.ok a) = .error e ↔ ∃ r, reason = some r ∧ e = .refused r := by
  cases reason with
  | none => exact ⟨nofun, nofun⟩
  | some r =>
    constructor
    · intro h
      exact ⟨r, rfl, (Except.error.inj h).symm⟩
    · rintro ⟨r', hr, rfl⟩
      rw [Option.some.inj hr]
      rfl

theorem unlessRefused_none {α : Type} (attempt : Except FileError α) :
    unlessRefused none attempt = attempt := rfl

namespace System

open FileTree (GainsDirectories KeepsDirectories)

variable {s : System} {t t' : FileTree} {d : List String} {p : Place} {path : String}
  {cause : Option FileError}

/-! ## What is made -/

/-- A directory that is to be there has been made, was there, or is not there for a reason. -/
theorem ensureDirectory_cases (s : System) (t : FileTree) (d : List String) :
    (∃ t', s.ensureDirectory t d = (t', none) ∧ t.makeDirectory d = .ok t') ∨
      (s.ensureDirectory t d = (t, none) ∧ t.isDirectory d = true) ∨
      ∃ e, s.ensureDirectory t d = (t, some e) := by
  rw [ensureDirectory]
  split
  next t' hmake => exact .inl ⟨t', rfl, (unlessRefused_eq_ok_iff.mp hmake).2⟩
  next => exact .inr (.inr ⟨_, rfl⟩)
  next e _ _ =>
    by_cases hthere : t.isDirectory d = true
    · exact .inr (.inl ⟨by rw [if_pos hthere], hthere⟩)
    · exact .inr (.inr ⟨e, by rw [if_neg hthere]⟩)

theorem gainsDirectories_ensureDirectory (s : System) (t : FileTree) (d : List String) :
    GainsDirectories t (s.ensureDirectory t d).1 := by
  rcases s.ensureDirectory_cases t d with ⟨t', hd, hmake⟩ | ⟨hd, -⟩ | ⟨e, hd⟩
  · rw [hd]
    exact FileTree.gainsDirectories_of_makeDirectory hmake
  · rw [hd]
    exact .refl t
  · rw [hd]
    exact .refl t

theorem gainsDirectories_ensureFirst (s : System) (t : FileTree) (ds : List (List String)) :
    GainsDirectories t (s.ensureFirst t ds).1 := by
  induction ds with
  | nil => exact .refl t
  | cons d outer ih =>
    rw [ensureFirst]
    split
    next =>
      split
      next houter =>
        rw [houter] at ih
        exact ih.trans (s.gainsDirectories_ensureDirectory _ d)
      next => exact ih
    next => exact s.gainsDirectories_ensureDirectory t d

/-- Making directories changes nothing else, whether it succeeds or not. -/
theorem gainsDirectories_of_makeDirectories (h : s.makeDirectories t path = (t', cause)) :
    GainsDirectories t t' := by
  rw [makeDirectories] at h
  split at h
  next =>
    rcases (Prod.mk.inj h).1 with rfl
    exact .refl t
  next =>
    have hgains := s.gainsDirectories_ensureFirst t (FileTree.names path :: FileTree.around path)
    rw [h] at hgains
    exact hgains

theorem isDirectory_of_ensureDirectory (h : s.ensureDirectory t d = (t', none)) :
    t'.isDirectory d = true := by
  rcases s.ensureDirectory_cases t d with ⟨u, hd, hmake⟩ | ⟨hd, hthere⟩ | ⟨e, hd⟩
  · rcases (Prod.mk.inj (hd.symm.trans h)).1 with rfl
    have hkeeps := (FileTree.gainsDirectories_of_makeDirectory hmake).keepsDirectories
    rcases FileTree.exists_of_makeDirectory hmake with ⟨p, hwalk, hnone, rfl⟩
    have hroot : p ≠ [] := FileTree.ne_root fun h => absurd (hnone.symm.trans h) nofun
    refine FileTree.isDirectory_iff.mpr ⟨p, hkeeps.walk_eq_ok hwalk, ?_⟩
    rw [FileTree.item?_put t hroot, if_pos rfl]
  · rcases (Prod.mk.inj (hd.symm.trans h)).1 with rfl
    exact hthere
  · exact absurd (Prod.mk.inj (hd.symm.trans h)).2 nofun

theorem isDirectory_of_ensureFirst {outer : List (List String)}
    (h : s.ensureFirst t (d :: outer) = (t', none)) : t'.isDirectory d = true := by
  rw [ensureFirst] at h
  split at h
  next =>
    split at h
    next => exact isDirectory_of_ensureDirectory h
    next hfailed => exact absurd h (hfailed t')
  next => exact isDirectory_of_ensureDirectory h

/-- A directory that has been made is there. -/
theorem isDirectory_of_makeDirectories (h : s.makeDirectories t path = (t', none)) :
    t'.isDirectory (FileTree.names path) = true := by
  rw [makeDirectories] at h
  split at h
  next hempty =>
    subst hempty
    rfl
  next => exact isDirectory_of_ensureFirst h

/-! ## What is made on the way -/

theorem walk_of_new_ensureDirectory (hnone : t.item? p = none)
    (hnew : (s.ensureDirectory t d).1.item? p = some .directory) :
    (s.ensureDirectory t d).1.walk [] d = .ok p := by
  rcases s.ensureDirectory_cases t d with ⟨u, hd, hmake⟩ | ⟨hd, -⟩ | ⟨e, hd⟩
  · rw [hd] at hnew ⊢
    have hkeeps := (FileTree.gainsDirectories_of_makeDirectory hmake).keepsDirectories
    rcases FileTree.exists_of_makeDirectory hmake with ⟨q, hwalk, hfree, rfl⟩
    have hroot : q ≠ [] := FileTree.ne_root fun h => absurd (hfree.symm.trans h) nofun
    rw [FileTree.item?_put t hroot] at hnew
    split at hnew
    next hp => exact hp ▸ hkeeps.walk_eq_ok hwalk
    next => exact absurd (hnone.symm.trans hnew) nofun
  · rw [hd] at hnew
    exact absurd (hnone.symm.trans hnew) nofun
  · rw [hd] at hnew
    exact absurd (hnone.symm.trans hnew) nofun

/-- What is new is one of the directories of the list. -/
theorem exists_walk_of_new_ensureFirst (ds : List (List String)) (hnone : t.item? p = none)
    (hnew : (s.ensureFirst t ds).1.item? p = some .directory) :
    ∃ d ∈ ds, (s.ensureFirst t ds).1.walk [] d = .ok p := by
  induction ds with
  | nil => exact absurd (hnone.symm.trans hnew) nofun
  | cons d outer ih =>
    rw [ensureFirst] at hnew ⊢
    split at hnew
    next =>
      split at hnew
      next t₁ houter =>
        have hgains := s.gainsDirectories_ensureFirst t outer
        rw [houter] at hgains ih
        -- it is new among those further out, or new after them
        rcases hgains p with hsame | ⟨-, hdirectory⟩
        · exact ⟨d, List.mem_cons_self, walk_of_new_ensureDirectory (hsame.trans hnone) hnew⟩
        · rcases ih hdirectory with ⟨d', hd', hwalk⟩
          have hkeeps := (s.gainsDirectories_ensureDirectory t₁ d).keepsDirectories
          exact ⟨d', List.mem_cons_of_mem d hd', hkeeps.walk_eq_ok hwalk⟩
      next =>
        rcases ih hnew with ⟨d', hd', hwalk⟩
        exact ⟨d', List.mem_cons_of_mem d hd', hwalk⟩
    next => exact ⟨d, List.mem_cons_self, walk_of_new_ensureDirectory hnone hnew⟩

/-- What is new is the directory of a path, or one of those around it. -/
theorem exists_walk_of_new (h : s.makeDirectories t path = (t', cause)) (hnone : t.item? p = none)
    (hnew : t'.item? p = some .directory) :
    ∃ d ∈ FileTree.names path :: FileTree.around path, t'.walk [] d = .ok p := by
  rw [makeDirectories] at h
  split at h
  next =>
    rcases (Prod.mk.inj h).1 with rfl
    exact absurd (hnone.symm.trans hnew) nofun
  next =>
    rcases (Prod.mk.inj h).1 with rfl
    exact exists_walk_of_new_ensureFirst _ hnone hnew

/-- A directory that is there will do on any system. -/
theorem ensureDirectory_of_isDirectory (s : System) (h : t.isDirectory d = true) :
    s.ensureDirectory t d = (t, none) := by
  rcases FileTree.isDirectory_iff.mp h with ⟨p, hwalk, hp⟩
  have hmake : t.makeDirectory d = .error .alreadyExists := by
    rw [FileTree.makeDirectory, hwalk]
    dsimp only [bind, Except.bind]
    rw [hp]
  rw [ensureDirectory, makeDirectory, hmake]
  cases s.refusesMaking t d with
  | none =>
    dsimp only [unlessRefused]
    rw [if_pos h]
  | some reason =>
    dsimp only [unlessRefused]
    rw [if_pos h]

theorem makeDirectories_of_isDirectory (s : System)
    (h : t.isDirectory (FileTree.names path) = true) : s.makeDirectories t path = (t, none) := by
  rw [makeDirectories]
  split
  next => rfl
  next => rw [ensureFirst, s.ensureDirectory_of_isDirectory h]

/-! ## Refusals -/

theorem ensureDirectory_willing (h : s.ensureDirectory t d = (t', none)) :
    willing.ensureDirectory t d = (t', none) := by
  rcases s.ensureDirectory_cases t d with ⟨u, hd, hmake⟩ | ⟨hd, hthere⟩ | ⟨e, hd⟩
  · have hwilling : willing.makeDirectory t d = .ok u := hmake
    rw [ensureDirectory, hwilling]
    exact hd.symm.trans h
  · rw [willing.ensureDirectory_of_isDirectory hthere]
    exact hd.symm.trans h
  · exact absurd (Prod.mk.inj (hd.symm.trans h)).2 nofun

/-- What is missing is no matter of what the system refuses. -/
theorem ensureDirectory_willing_of_notFound (h : s.ensureDirectory t d = (t', some .notFound)) :
    willing.ensureDirectory t d = (t, some .notFound) := by
  rw [ensureDirectory] at h
  split at h
  next => exact absurd (Prod.mk.inj h).2 nofun
  next hmissing =>
    have hmake : willing.makeDirectory t d = .error .notFound := by
      rw [makeDirectory] at hmissing
      cases hrefused : s.refusesMaking t d with
      | none =>
        rw [hrefused] at hmissing
        exact hmissing
      | some reason =>
        rw [hrefused] at hmissing
        exact absurd hmissing nofun
    rw [ensureDirectory, hmake]
  next e hne _ =>
    have hcause := (Prod.mk.inj h).2
    split at hcause
    next => exact absurd hcause nofun
    next => exact absurd (Option.some.inj hcause) hne

theorem ensureFirst_willing {ds : List (List String)} (h : s.ensureFirst t ds = (t', none)) :
    willing.ensureFirst t ds = (t', none) := by
  induction ds generalizing t' with
  | nil => exact h
  | cons d outer ih =>
    rw [ensureFirst] at h ⊢
    split at h
    next hmissing =>
      rw [ensureDirectory_willing_of_notFound hmissing]
      split at h
      next houter =>
        dsimp only
        rw [ih houter]
        exact ensureDirectory_willing h
      next hfailed => exact absurd h (hfailed t')
    next =>
      rw [ensureDirectory_willing h]

/-- Directories that have been made are made where nothing is refused. -/
theorem makeDirectories_willing (h : s.makeDirectories t path = (t', none)) :
    t.makeDirectories path = (t', none) := by
  rw [makeDirectories] at h
  rw [FileTree.makeDirectories, makeDirectories]
  split at h
  next hempty =>
    rw [if_pos hempty]
    exact h
  next hne =>
    rw [if_neg hne]
    exact ensureFirst_willing h

/-! ## What can be made -/

/-- A system that refuses to make no directory. -/
def MakesDirectories (s : System) : Prop :=
  ∀ t names, s.refusesMaking t names = none

theorem MakesDirectories.makeDirectory_eq (hs : s.MakesDirectories) (t : FileTree)
    (names : List String) : s.makeDirectory t names = t.makeDirectory names := by
  rw [makeDirectory, hs t names, unlessRefused_none]

/-- Where names lead to something that is no file, there is a directory, or one is made. -/
theorem MakesDirectories.exists_ensureDirectory (hs : s.MakesDirectories)
    (hwalk : t.walk [] d = .ok p) (hfile : ∀ content, t.item? p ≠ some (.file content)) :
    ∃ t', s.ensureDirectory t d = (t', none) := by
  cases hitem : t.item? p with
  | none =>
    have hmake : t.makeDirectory d = .ok (t.put p .directory) := by
      rw [FileTree.makeDirectory, hwalk]
      dsimp only [bind, Except.bind]
      rw [hitem]
    exact ⟨_, by rw [ensureDirectory, hs.makeDirectory_eq, hmake]⟩
  | some i =>
    cases i with
    | file content => exact absurd hitem (hfile content)
    | directory =>
      exact ⟨t, s.ensureDirectory_of_isDirectory (FileTree.isDirectory_iff.mpr ⟨p, hwalk, hitem⟩)⟩

end System

namespace FileTree

variable {t t' : FileTree} {ns : List String} {p : Place}

/-- Names lead straight from the root to where there may be a directory. -/
structure IsOpenWay (t : FileTree) (names : List String) : Prop where
  /-- No name goes back or stays. -/
  straight : ∀ name ∈ names, name ≠ "." ∧ name ≠ ".."
  /-- There is no file on the way, nor at its end. -/
  noFile : ∀ k content, t.item? (names.take k) ≠ some (.file content)

theorem follow_of_straight {name : String} (h : name ≠ "." ∧ name ≠ "..") (p : Place) :
    follow p name = p ++ [name] := by
  rw [follow, if_neg h.1, if_neg h.2]

/-- On an open way nothing is wrong, but something may be missing. -/
theorem walk_cases_of_straight {names : List String}
    (hstraight : ∀ name ∈ names, name ≠ "." ∧ name ≠ "..")
    (hfile : ∀ k content, t.item? (p ++ names.take k) ≠ some (.file content)) :
    t.walk p names = .ok (p ++ names) ∨ t.walk p names = .error .notFound := by
  induction names generalizing p with
  | nil => exact .inl (congrArg Except.ok (List.append_nil p).symm)
  | cons name more ih =>
    rcases List.forall_mem_cons.mp hstraight with ⟨hname, hmore⟩
    have hfirst := hfile 0
    rw [List.take_zero, List.append_nil] at hfirst
    rw [walk]
    cases hitem : t.item? p with
    | none => exact .inr rfl
    | some i =>
      cases i with
      | file content => exact absurd hitem (hfirst content)
      | directory =>
        dsimp only
        rw [follow_of_straight hname, List.append_cons p name more]
        refine ih hmore fun k => ?_
        rw [← List.append_cons, ← List.take_succ_cons]
        exact hfile (k + 1)

namespace IsOpenWay

theorem take (h : t.IsOpenWay ns) (k : Nat) : t.IsOpenWay (ns.take k) := by
  refine ⟨fun name hname => h.straight name (List.mem_of_mem_take hname), fun j => ?_⟩
  rw [List.take_take]
  exact h.noFile _

theorem of_gainsDirectories (h : t.IsOpenWay ns) (hgains : GainsDirectories t t') :
    t'.IsOpenWay ns := by
  refine ⟨h.straight, fun k content hcontent => ?_⟩
  rcases hgains (ns.take k) with hsame | ⟨-, hnew⟩
  · exact h.noFile k content (hsame ▸ hcontent)
  · exact absurd (hnew.symm.trans hcontent) nofun

theorem walk_cases (h : t.IsOpenWay ns) :
    t.walk [] ns = .ok ns ∨ t.walk [] ns = .error .notFound :=
  walk_cases_of_straight h.straight h.noFile

/-- Where all names but the last lead to a directory, nothing is missing. -/
theorem walk_eq_ok {name : String} (h : t.IsOpenWay (ns ++ [name]))
    (hdirectory : t.isDirectory ns = true) : t.walk [] (ns ++ [name]) = .ok (ns ++ [name]) := by
  have hns : t.IsOpenWay ns := by
    have hfront := h.take ns.length
    rwa [List.take_left] at hfront
  rcases isDirectory_iff.mp hdirectory with ⟨p, hwalk, hp⟩
  rcases hns.walk_cases with hns | hns
  · rcases Except.ok.inj (hwalk.symm.trans hns) with rfl
    have hname := h.straight name (List.mem_append_right p List.mem_cons_self)
    rw [walk_append, hwalk]
    change t.walk p [name] = _
    rw [walk, hp]
    exact congrArg Except.ok (follow_of_straight hname p)
  · cases hwalk.symm.trans hns

end IsOpenWay

/-- The first names of a list, then fewer and fewer, down to one. -/
def outward (ns : List String) (k : Nat) : List (List String) :=
  (List.range k).map fun i => ns.take (k - i)

theorem outward_succ (ns : List String) (k : Nat) :
    outward ns (k + 1) = ns.take (k + 1) :: outward ns k := by
  rw [outward, List.range_succ_eq_map, List.map_cons, List.map_map, outward]
  congr 1
  refine List.map_congr_left fun i _ => ?_
  rw [Function.comp_apply, Nat.succ_eq_add_one, Nat.add_sub_add_right]

end FileTree

namespace System

open FileTree (IsOpenWay outward)

variable {s : System} {t : FileTree} {ns : List String} {path : String}

/-- Where all names but the last lead to a directory, the last one can be made. -/
theorem MakesDirectories.exists_ensureDirectory_below (hs : s.MakesDirectories) {name : String}
    (hopen : t.IsOpenWay (ns ++ [name])) (hparent : t.isDirectory ns = true) :
    ∃ t', s.ensureDirectory t (ns ++ [name]) = (t', none) := by
  have hfile := hopen.noFile (ns ++ [name]).length
  rw [List.take_length] at hfile
  exact hs.exists_ensureDirectory (hopen.walk_eq_ok hparent) hfile

theorem isDirectory_of_ensureFirst_outward {t' : FileTree} {k : Nat}
    (h : s.ensureFirst t (outward ns k) = (t', none)) : t'.isDirectory (ns.take k) = true := by
  cases k with
  | zero => rfl
  | succ k =>
    rw [FileTree.outward_succ] at h
    exact isDirectory_of_ensureFirst h

/-- On an open way all directories can be made. -/
theorem MakesDirectories.exists_ensureFirst (hs : s.MakesDirectories) (hopen : t.IsOpenWay ns)
    {k : Nat} (hk : k ≤ ns.length) : ∃ t', s.ensureFirst t (outward ns k) = (t', none) := by
  induction k with
  | zero => exact ⟨t, rfl⟩
  | succ k ih =>
    rw [FileTree.outward_succ, ensureFirst]
    rcases (hopen.take (k + 1)).walk_cases with hwalk | hwalk
    · rcases hs.exists_ensureDirectory hwalk (hopen.noFile _) with ⟨t', ht'⟩
      exact ⟨t', by rw [ht']⟩
    · -- what is missing is made first, and then only the last name is left
      have hmissing : s.ensureDirectory t (ns.take (k + 1)) = (t, some .notFound) := by
        rw [ensureDirectory, hs.makeDirectory_eq, FileTree.makeDirectory, hwalk]
        rfl
      rcases ih (Nat.le_of_succ_le hk) with ⟨t₁, houter⟩
      have hgains := s.gainsDirectories_ensureFirst t (outward ns k)
      rw [houter] at hgains
      have hway : t₁.IsOpenWay (ns.take (k + 1)) :=
        (hopen.take (k + 1)).of_gainsDirectories hgains
      have hlast : ns.take (k + 1) = ns.take k ++ [ns[k]] := List.take_succ_eq_append_getElem hk
      rw [hmissing, houter]
      rw [hlast] at hway ⊢
      exact hs.exists_ensureDirectory_below hway (isDirectory_of_ensureFirst_outward houter)

/-- The directories around a path go outward along its names, if these are straight. -/
theorem names_around_of_straight
    (hstraight : ∀ name ∈ FileTree.names path, name ≠ "." ∧ name ≠ "..")
    (hne : FileTree.names path ≠ []) :
    FileTree.names path :: FileTree.around path =
      outward (FileTree.names path) (FileTree.names path).length := by
  have hlength : (FileTree.names path).length = (FileTree.names path).dropLast.length + 1 := by
    rw [List.length_dropLast]
    exact (Nat.sub_add_cancel (List.length_pos_iff.mpr hne)).symm
  have hkept : (FileTree.names path).filter (· ≠ ".") = FileTree.names path :=
    List.filter_eq_self.mpr fun name hname => decide_eq_true (hstraight name hname).1
  rw [hlength, FileTree.outward_succ, ← hlength, List.take_length, FileTree.around, hkept]
  congr 1
  refine List.map_congr_left fun i _ => ?_
  rw [List.dropLast_eq_take, List.take_take]
  congr 1
  rw [List.length_take]
  omega

/-- A system that refuses to make no directory makes all those on an open way. -/
theorem MakesDirectories.exists_makeDirectories (hs : s.MakesDirectories)
    (hopen : t.IsOpenWay (FileTree.names path)) : ∃ t', s.makeDirectories t path = (t', none) := by
  rw [makeDirectories]
  split
  next => exact ⟨t, rfl⟩
  next =>
    by_cases hne : FileTree.names path = []
    · have hroot : t.isDirectory (FileTree.names path) = true := by
        rw [hne]
        rfl
      exact ⟨t, by rw [ensureFirst, s.ensureDirectory_of_isDirectory hroot]⟩
    · rw [names_around_of_straight hopen.straight hne]
      exact hs.exists_ensureFirst hopen (Nat.le_refl _)

end System

end CaseFolding

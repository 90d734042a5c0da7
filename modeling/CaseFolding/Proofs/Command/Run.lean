import CaseFolding.Command.Run
import CaseFolding.Proofs.Command.System

namespace CaseFolding

/-! # What the effects of a run leave

Effects are had one after the other, up to the first one that fails. None takes a
directory away, and each leaves all files alone but the one that it writes. So a
place has in the end what was written there last. Effects with nothing in their way
succeed, and none of them gets in the way of another.
-/

open FileTree (KeepsDirectories AsWritten)

/-! ## One effect -/

namespace Effect

variable {s : System} {e : Effect} {t t' u : FileTree} {f : Failure} {path text : String}
  {p : Place}

/-- An effect succeeds in a file tree and leaves another one. -/
inductive Succeeds (s : System) : Effect → FileTree → FileTree → Prop where
  | report (r : Record) (t : FileTree) : Succeeds s (.report r) t t
  | write {path text : String} {t t' : FileTree} (h : s.writeText t path text = .ok t') :
      Succeeds s (.write path text) t t'
  | makeDirectories {path : String} {t t' : FileTree} (h : s.makeDirectories t path = (t', none)) :
      Succeeds s (.makeDirectories path) t t'
  | print {text : String} {t : FileTree} (h : s.refusesPrinting t text = none) :
      Succeeds s (.print text) t t

/-- An effect fails in a file tree and leaves another one. If a file cannot be written or a text not
be printed, this is the same tree; if a directory cannot be made, some of those around it may have
been. -/
inductive Fails (s : System) : Effect → FileTree → FileTree → Failure → Prop where
  | write {path text : String} {t : FileTree} {cause : FileError}
      (h : s.writeText t path text = .error cause) :
      Fails s (.write path text) t t (.writing path cause)
  | makeDirectories {path : String} {t t' : FileTree} {cause : FileError}
      (h : s.makeDirectories t path = (t', some cause)) :
      Fails s (.makeDirectories path) t t' (.makingDirectory path cause)
  | print {text reason : String} {t : FileTree} (h : s.refusesPrinting t text = some reason) :
      Fails s (.print text) t t (.printing (.refused reason))

theorem Fails.of_print (h : (Effect.print text).Fails s t t' f) :
    ∃ reason, s.refusesPrinting t text = some reason ∧ t' = t ∧
      f = .printing (.refused reason) := by
  cases h with
  | print hrefused => exact ⟨_, hrefused, rfl, rfl⟩

/-- The text that an effect prints. -/
def printed : Effect → String
  | .print text => text
  | _ => ""

/-- The text that an effect writes to a place. -/
def textAt? (t : FileTree) (p : Place) : Effect → Option String
  | .write path text => if t.leadsTo path p then some text else none
  | _ => none

/-- The text that effects write to a place last. -/
def lastText? (t : FileTree) (p : Place) (es : List Effect) : Option String :=
  (es.filterMap (textAt? t p)).getLast?

/-- What a list writes last is what it writes last behind its head, or else what its head writes. -/
theorem lastText?_cons (t : FileTree) (p : Place) (e : Effect) (es : List Effect) :
    lastText? t p (e :: es) = (lastText? t p es).or (e.textAt? t p) := by
  unfold lastText?
  rw [List.filterMap_cons]
  split
  next h => rw [h, Option.or_none]
  next text h =>
    rw [h, List.getLast?_cons]
    cases (es.filterMap (textAt? t p)).getLast? <;> rfl

/-- An effect that succeeds keeps the directories. -/
theorem Succeeds.keepsDirectories (h : e.Succeeds s t t') : KeepsDirectories t t' := by
  cases h with
  | report | print => exact .refl t
  | write hwrite =>
    exact FileTree.keepsDirectories_of_writeText (unlessRefused_eq_ok_iff.mp hwrite).2
  | makeDirectories hmake =>
    exact (System.gainsDirectories_of_makeDirectories hmake).keepsDirectories

/-- An effect that succeeds writes one place at most. A path leads to the same place later. -/
theorem Succeeds.asWritten (h : e.Succeeds s t t') (hlater : KeepsDirectories t' u) (p : Place) :
    AsWritten t t' p (e.textAt? u p) := by
  have hkeeps := h.keepsDirectories
  cases h with
  | report | print => exact .inl rfl
  | @write path text _ _ hwrite =>
    have hwrite := (unlessRefused_eq_ok_iff.mp hwrite).2
    have hwritten := FileTree.asWritten_of_writeText hwrite p
    rcases FileTree.exists_isFree_of_writeText hwrite with ⟨q, hfree, -⟩
    have hlocate := (hkeeps.trans hlater).locate_eq_ok hfree.locate
    have hleads : u.leadsTo path p = t.leadsTo path p := by
      rw [Bool.eq_iff_iff, FileTree.leadsTo_iff hlocate, FileTree.leadsTo_iff hfree.locate]
    rw [textAt?, hleads]
    exact hwritten
  | makeDirectories hmake => exact System.gainsDirectories_of_makeDirectories hmake p

theorem Fails.gainsDirectories (h : e.Fails s t t' f) : FileTree.GainsDirectories t t' := by
  cases h with
  | write | print => exact .refl t
  | makeDirectories hmake => exact System.gainsDirectories_of_makeDirectories hmake

/-- What is new after an effect is a directory that it has made, or one around it. -/
theorem Succeeds.exists_of_new (h : e.Succeeds s t t') (hnone : t.item? p = none)
    (hnew : t'.item? p = some .directory) :
    ∃ path, e = .makeDirectories path ∧
      ∃ d ∈ FileTree.names path :: FileTree.around path, t'.walk [] d = .ok p := by
  cases h with
  | report | print => exact absurd (hnone.symm.trans hnew) nofun
  | write hwrite =>
    rcases FileTree.exists_isFree_of_writeText (unlessRefused_eq_ok_iff.mp hwrite).2 with
      ⟨q, hfree, rfl⟩
    rw [FileTree.item?_put t (FileTree.ne_root hfree.item)] at hnew
    split at hnew
    next => exact absurd hnew nofun
    next => exact absurd (hnone.symm.trans hnew) nofun
  | makeDirectories hmake => exact ⟨_, rfl, System.exists_walk_of_new hmake hnone hnew⟩

theorem Fails.exists_of_new (h : e.Fails s t t' f) (hnone : t.item? p = none)
    (hnew : t'.item? p = some .directory) :
    ∃ path, e = .makeDirectories path ∧
      ∃ d ∈ FileTree.names path :: FileTree.around path, t'.walk [] d = .ok p := by
  cases h with
  | write | print => exact absurd (hnone.symm.trans hnew) nofun
  | makeDirectories hmake => exact ⟨_, rfl, System.exists_walk_of_new hmake hnone hnew⟩

/-- Nothing stands in the way of an effect, and the system does not refuse it: there may be a file
where one is to be written, and a directory is there or can be made. -/
def IsPossible (s : System) (t : FileTree) : Effect → Prop
  | .write path text => s.refusesWriting t path text = none ∧ ∃ p, t.IsFree path p
  | .makeDirectories path =>
    t.isDirectory (FileTree.names path) = true ∨
      s.MakesDirectories ∧ t.IsOpenWay (FileTree.names path)
  | .print text => s.refusesPrinting t text = none
  | .report _ => True

/-- An effect fails only if something stands in its way, or the system refuses it. -/
theorem Fails.not_isPossible (h : e.Fails s t t' f) : ¬ e.IsPossible s t := by
  intro hpossible
  cases h with
  | @write path text _ cause hwrite =>
    rcases hpossible with ⟨hwilling, p, hfree⟩
    rw [System.writeText, hwilling, unlessRefused_none, hfree.writeText_eq] at hwrite
    exact absurd hwrite nofun
  | @makeDirectories path _ _ cause hmake =>
    rcases hpossible with hthere | ⟨hs, hopen⟩
    · rw [s.makeDirectories_of_isDirectory hthere] at hmake
      exact absurd (Prod.mk.inj hmake).2 nofun
    · rcases hs.exists_makeDirectories hopen with ⟨u, hu⟩
      exact absurd (Prod.mk.inj (hu.symm.trans hmake)).2 nofun
  | print hrefused => exact absurd (hpossible.symm.trans hrefused) nofun

/-- Nothing stands in the way of an effect: a file can be written, and a directory is there. -/
def IsAllowed (t : FileTree) : Effect → Prop
  | .write path _ => ∃ p, t.IsFree path p
  | .makeDirectories path => t.isDirectory (FileTree.names path) = true
  | .report _ | .print _ => True

theorem IsAllowed.isPossible (h : e.IsAllowed t) : e.IsPossible .willing t := by
  cases e with
  | report => trivial
  | write path text => exact ⟨rfl, h⟩
  | makeDirectories path => exact .inl h
  | print text => rfl

/-- An effect that is allowed does not stand in the way of another one. -/
theorem Succeeds.isAllowed {e' : Effect} (h : e.Succeeds s t t') (he : e.IsAllowed t)
    (he' : e'.IsAllowed t) : e'.IsAllowed t' := by
  have hkeeps := h.keepsDirectories
  cases h with
  | report | print => exact he'
  | write hwrite =>
    have hwrite := (unlessRefused_eq_ok_iff.mp hwrite).2
    cases e' with
    | report | print => trivial
    | write path' text' =>
      rcases he' with ⟨p, hfree⟩
      exact ⟨p, hfree.of_writeText hwrite⟩
    | makeDirectories path' => exact hkeeps.isDirectory he'
  | makeDirectories hmake =>
    rw [s.makeDirectories_of_isDirectory he] at hmake
    rcases (Prod.mk.inj hmake).1 with rfl
    exact he'

end Effect

/-! ## Effects one after the other -/

section

variable {s : System} {e : Effect} {es as bs done rest : List Effect} {t t' u : FileTree}
  {failure : Option Failure} {path text : String} {p : Place}

/-- Effects all succeed, each in the file tree that the one before it has left. -/
inductive Completed (s : System) : FileTree → List Effect → FileTree → Prop where
  | nil (t : FileTree) : Completed s t [] t
  | cons {e : Effect} {es : List Effect} {t t' t'' : FileTree} (h : e.Succeeds s t t')
      (hes : Completed s t' es t'') : Completed s t (e :: es) t''

/-- How far effects have come: some are done, and the next one has failed unless all are. -/
inductive Progress (s : System) (t : FileTree) :
    (done rest : List Effect) → FileTree → Option Failure → Prop where
  | finished {done : List Effect} {t' : FileTree} (hdone : Completed s t done t') :
      Progress s t done [] t' none
  | stopped {done rest : List Effect} {e : Effect} {t' t'' : FileTree} {f : Failure}
      (hdone : Completed s t done t') (he : e.Fails s t' t'' f) :
      Progress s t done (e :: rest) t'' (some f)

/-- Effects get past the first of them exactly if it succeeds. -/
theorem Progress.cons_cases (h : Progress s t done rest t' failure) (hsplit : e :: es = done ++ rest) :
    (done = [] ∧ rest = e :: es ∧ ∃ f, failure = some f ∧ e.Fails s t t' f) ∨
      ∃ u done', done = e :: done' ∧ es = done' ++ rest ∧ e.Succeeds s t u ∧
        Progress s u done' rest t' failure := by
  cases h with
  | finished hdone =>
    rw [List.append_nil] at hsplit
    subst hsplit
    cases hdone with
    | cons he hes => exact .inr ⟨_, es, rfl, (List.append_nil es).symm, he, .finished hes⟩
  | stopped hdone hfails =>
    cases hdone with
    | nil =>
      rcases List.cons.inj hsplit with ⟨rfl, rfl⟩
      exact .inl ⟨rfl, rfl, _, rfl, hfails⟩
    | cons he hes =>
      rcases List.cons.inj hsplit with ⟨rfl, rfl⟩
      exact .inr ⟨_, _, rfl, rfl, he, .stopped hes hfails⟩

theorem Completed.keepsDirectories (h : Completed s t es t') : KeepsDirectories t t' := by
  induction h with
  | nil t => exact .refl t
  | cons he _ ih => exact he.keepsDirectories.trans ih

/-- After effects that succeed, each place has what was written there last. -/
theorem Completed.asWritten (h : Completed s t es t') (hlater : KeepsDirectories t' u) (p : Place) :
    AsWritten t t' p (Effect.lastText? u p es) := by
  induction h with
  | nil t => exact .inl rfl
  | @cons e es _ _ _ he hes ih =>
    -- what the others write takes the place of what the first one has written
    rw [Effect.lastText?_cons]
    exact (he.asWritten (hes.keepsDirectories.trans hlater) p).trans (ih hlater)

/-- A path to which effects have written leads to a file. -/
theorem Completed.exists_of_mem (h : Completed s t es t') (hmem : .write path text ∈ es) :
    ∃ p, t'.locate path = .ok p ∧ FileTree.endsInSlash path = false := by
  induction h with
  | nil t => exact absurd hmem List.not_mem_nil
  | cons he hes ih =>
    rcases List.mem_cons.mp hmem with rfl | hmem
    · cases he with
      | write hwrite =>
        have hwrite := (unlessRefused_eq_ok_iff.mp hwrite).2
        rcases FileTree.exists_isFree_of_writeText hwrite with ⟨p, hfree, -⟩
        have hkeeps := (FileTree.keepsDirectories_of_writeText hwrite).trans hes.keepsDirectories
        exact ⟨p, hkeeps.locate_eq_ok hfree.locate, hfree.noSlash⟩
    · exact ih hmem

/-- A directory that effects have made is there. -/
theorem Completed.isDirectory_of_mem (h : Completed s t es t')
    (hmem : .makeDirectories path ∈ es) : t'.isDirectory (FileTree.names path) = true := by
  induction h with
  | nil t => exact absurd hmem List.not_mem_nil
  | cons he hes ih =>
    rcases List.mem_cons.mp hmem with rfl | hmem
    · cases he with
      | makeDirectories hmake =>
        exact hes.keepsDirectories.isDirectory (System.isDirectory_of_makeDirectories hmake)
    · exact ih hmem

/-- What is new after effects is a directory that they have made, or one around it. -/
theorem Completed.exists_of_new (h : Completed s t es t') (hnone : t.item? p = none)
    (hnew : t'.item? p = some .directory) :
    ∃ path, .makeDirectories path ∈ es ∧
      ∃ d ∈ FileTree.names path :: FileTree.around path, t'.walk [] d = .ok p := by
  induction h with
  | nil t => exact absurd (hnone.symm.trans hnew) nofun
  | @cons e es t u t' he hes ih =>
    cases hitem : u.item? p with
    | none =>
      rcases ih hitem hnew with ⟨path, hmem, hway⟩
      exact ⟨path, List.mem_cons_of_mem e hmem, hway⟩
    | some i =>
      cases i with
      | directory =>
        rcases he.exists_of_new hnone hitem with ⟨path, rfl, d, hd, hwalk⟩
        exact ⟨path, List.mem_cons_self, d, hd, hes.keepsDirectories.walk_eq_ok hwalk⟩
      | file content =>
        -- a file never becomes a directory
        exact absurd hnew ((hes.asWritten (.refl t') p).ne_directory hitem)

/-- Whatever has been done is there, also when the next effect has failed, which was not possible
then. -/
theorem Progress.exists_completed (h : Progress s t done rest t' failure) :
    ∃ u, Completed s t done u ∧ FileTree.GainsDirectories u t' ∧
      ∀ e ∈ rest.head?, ¬ e.IsPossible s u := by
  cases h with
  | finished hdone => exact ⟨_, hdone, .refl _, nofun⟩
  | stopped hdone he =>
    refine ⟨_, hdone, he.gainsDirectories, fun e he' => ?_⟩
    rcases Option.some.inj he' with rfl
    exact he.not_isPossible

/-- However far effects have come, the directories that were made are there. -/
theorem Progress.isDirectory_of_mem (h : Progress s t done rest t' failure)
    (hmem : .makeDirectories path ∈ done) : t'.isDirectory (FileTree.names path) = true := by
  rcases h.exists_completed with ⟨u, hdone, hgains, -⟩
  exact hgains.keepsDirectories.isDirectory (hdone.isDirectory_of_mem hmem)

/-- However far effects have come, what is new is a directory that was to be made, or one around
it. -/
theorem Progress.exists_of_new (h : Progress s t done rest t' failure) (hnone : t.item? p = none)
    (hnew : t'.item? p = some .directory) :
    ∃ path, .makeDirectories path ∈ done ++ rest.take 1 ∧
      ∃ d ∈ FileTree.names path :: FileTree.around path, t'.walk [] d = .ok p := by
  cases h with
  | finished hdone =>
    rw [List.take_nil, List.append_nil]
    exact hdone.exists_of_new hnone hnew
  | stopped hdone he =>
    rcases he.gainsDirectories p with hsame | ⟨hnone', -⟩
    · rcases hdone.exists_of_new hnone (hsame.symm.trans hnew) with ⟨path, hmem, d, hd, hwalk⟩
      exact ⟨path, List.mem_append_left _ hmem, d, hd,
        he.gainsDirectories.keepsDirectories.walk_eq_ok hwalk⟩
    · rcases he.exists_of_new hnone' hnew with ⟨path, rfl, hway⟩
      exact ⟨path, List.mem_append_right _ List.mem_cons_self, hway⟩

/-- However far effects have come, each place has what was written there last. -/
theorem Progress.asWritten (h : Progress s t done rest t' failure) (p : Place) :
    AsWritten t t' p (Effect.lastText? t' p done) := by
  rcases h.exists_completed with ⟨u, hdone, hgains, -⟩
  have hplace := (hdone.asWritten hgains.keepsDirectories p).trans (hgains p)
  rwa [Option.none_or] at hplace

/-- Where effects have written, the text that was written last is read. -/
theorem Progress.exists_readText (h : Progress s t done rest t' failure)
    (hmem : .write path text ∈ done) :
    ∃ p last, t'.locate path = .ok p ∧ Effect.lastText? t' p done = some last ∧
      t'.readText path = .ok last := by
  rcases h.exists_completed with ⟨u, hdone, hgains, -⟩
  rcases hdone.exists_of_mem hmem with ⟨p, hlocate, hslash⟩
  have hlocate := hgains.keepsDirectories.locate_eq_ok hlocate
  have htext : text ∈ done.filterMap (Effect.textAt? t' p) := by
    refine List.mem_filterMap.mpr ⟨_, hmem, ?_⟩
    exact if_pos ((FileTree.leadsTo_iff hlocate).mpr rfl)
  have hlast : Effect.lastText? t' p done ≠ none := by
    rw [Effect.lastText?, ne_eq, List.getLast?_eq_none_iff]
    exact List.ne_nil_of_mem htext
  rcases Option.ne_none_iff_exists'.mp hlast with ⟨last, hlast⟩
  have hplace := h.asWritten p
  rw [hlast] at hplace
  exact ⟨p, last, hlocate, hlast, FileTree.HasText.readText_eq_ok ⟨hlocate, hslash, hplace⟩⟩

/-- What was written is read unless it has been overwritten. -/
theorem Progress.readText_eq_ok
    (h : Progress s t (as ++ .write path text :: bs) rest t' failure)
    (hspares : ∀ path' text', .write path' text' ∈ bs → t'.locate path' ≠ t'.locate path) :
    t'.readText path = .ok text := by
  rcases h.exists_readText (List.mem_append_right as List.mem_cons_self) with
    ⟨p, last, hlocate, hlast, hread⟩
  -- none of the effects behind it leads to its place, so it is the last one there
  have hafter : bs.filterMap (Effect.textAt? t' p) = [] := by
    rw [List.filterMap_eq_nil_iff]
    intro e he
    cases e with
    | write path' text' =>
      have hne := hspares path' text' he
      rw [Effect.textAt?, if_neg]
      intro hleads
      rw [FileTree.leadsTo] at hleads
      split at hleads
      next hlocate' =>
        rw [hlocate', hlocate, of_decide_eq_true hleads] at hne
        exact hne rfl
      next => exact absurd hleads Bool.false_ne_true
    | report | makeDirectories | print => rfl
  have hown : Effect.textAt? t' p (.write path text) = some text :=
    if_pos ((FileTree.leadsTo_iff hlocate).mpr rfl)
  rw [Effect.lastText?, List.filterMap_append, List.filterMap_cons_some hown, hafter,
    List.getLast?_concat] at hlast
  rw [hread, Option.some.inj hlast]

/-- Effects that are allowed do not stand in the way of another one. -/
theorem Completed.isAllowed (h : Completed s t es t') (hallowed : ∀ e ∈ es, e.IsAllowed t)
    (he : e.IsAllowed t) : e.IsAllowed t' := by
  induction h with
  | nil t => exact he
  | cons hfirst _ ih =>
    rcases List.forall_mem_cons.mp hallowed with ⟨hown, hothers⟩
    exact ih (fun e he => hfirst.isAllowed hown (hothers e he)) (hfirst.isAllowed hown he)

/-- Effects that are allowed from the start are all done, where nothing is refused. -/
theorem Progress.rest_eq_nil (h : Progress .willing t done rest t' failure)
    (hallowed : ∀ e ∈ done ++ rest, e.IsAllowed t) : rest = [] := by
  cases h with
  | finished => rfl
  | stopped hdone he =>
    rcases List.forall_mem_append.mp hallowed with ⟨hbefore, hafter⟩
    exact absurd (hdone.isAllowed hbefore (hafter _ List.mem_cons_self)).isPossible he.not_isPossible

/-- Nothing is left to do exactly if nothing has failed. -/
theorem Progress.rest_eq_nil_iff (h : Progress s t done rest t' failure) :
    rest = [] ↔ failure = none := by
  cases h with
  | finished => exact ⟨fun _ => rfl, fun _ => rfl⟩
  | stopped => exact ⟨nofun, nofun⟩

end

namespace World

variable (s : System)

/-- An effect succeeds or fails, and prints only if it succeeds. -/
theorem perform_cases (w : World) (e : Effect) :
    (∃ w', w.perform s e = (w', none) ∧ e.Succeeds s w.files w'.files ∧
      w'.printed = w.printed ++ e.printed) ∨
    ∃ w' f, w.perform s e = (w', some f) ∧ e.Fails s w.files w'.files f ∧
      w'.printed = w.printed := by
  cases e with
  | report r => exact .inl ⟨_, rfl, .report r w.files, String.append_empty.symm⟩
  | write path text =>
    rw [perform]
    split
    next hwrite => exact .inl ⟨_, rfl, .write hwrite, String.append_empty.symm⟩
    next hwrite => exact .inr ⟨_, _, rfl, .write hwrite, rfl⟩
  | makeDirectories path =>
    rw [perform]
    rcases hmake : s.makeDirectories w.files path with ⟨t, cause⟩
    cases cause with
    | none => exact .inl ⟨_, rfl, .makeDirectories hmake, String.append_empty.symm⟩
    | some cause => exact .inr ⟨_, _, rfl, .makeDirectories hmake, rfl⟩
  | print text =>
    rw [perform]
    split
    next hprint =>
      rcases unlessRefused_eq_ok_iff.mp hprint with ⟨hwilling, hprinted⟩
      exact .inl ⟨_, rfl, .print hwilling, (Except.ok.inj hprinted).symm⟩
    next hprint =>
      rcases unlessRefused_ok_eq_error_iff.mp hprint with ⟨reason, hrefused, rfl⟩
      exact .inr ⟨_, _, rfl, .print hrefused, rfl⟩

/-- Effects are had up to the first that fails. -/
theorem performAll_cases (w : World) (es : List Effect) :
    ∃ done rest w' failure, w.performAll s es = (w', failure) ∧ es = done ++ rest ∧
      Progress s w.files done rest w'.files failure ∧
      w'.printed = w.printed ++ String.join (done.map Effect.printed) := by
  induction es generalizing w with
  | nil => exact ⟨[], [], w, none, rfl, rfl, .finished (.nil _), String.append_empty.symm⟩
  | cons e es ih =>
    rcases w.perform_cases s e with ⟨next, hnext, he, hprinted⟩ | ⟨w', f, hfailed, he, hprinted⟩
    · -- the others start from what the first one has left
      rcases ih next with ⟨done, rest, w', failure, hrun, rfl, hprogress, hprinted'⟩
      refine ⟨e :: done, rest, w', failure, ?_, rfl, ?_, ?_⟩
      · rw [performAll, hnext]
        exact hrun
      · cases hprogress with
        | finished hdone => exact .finished (.cons he hdone)
        | stopped hdone hfails => exact .stopped (.cons he hdone) hfails
      · rw [hprinted', hprinted, String.append_assoc, List.map_cons, String.join_cons]
    · refine ⟨[], e :: es, w', some f, ?_, rfl, .stopped (.nil _) he, ?_⟩
      · rw [performAll, hfailed]
      · exact hprinted.trans String.append_empty.symm

variable {s} {w w' : World} {e : Effect} {es : List Effect}

/-- What succeeds does the same where nothing is refused. -/
theorem perform_willing (h : w.perform s e = (w', none)) : w.perform .willing e = (w', none) := by
  cases e with
  | report r => exact h
  | write path text =>
    rw [perform] at h ⊢
    split at h
    next t hwrite =>
      have hwilling : System.willing.writeText w.files path text = .ok t :=
        (unlessRefused_eq_ok_iff.mp hwrite).2
      rw [hwilling]
      exact h
    next => exact absurd (Prod.mk.inj h).2 nofun
  | makeDirectories path =>
    rw [perform] at h ⊢
    rcases hmake : s.makeDirectories w.files path with ⟨t, cause⟩
    rw [hmake] at h
    cases cause with
    | none =>
      have hwilling : System.willing.makeDirectories w.files path = (t, none) :=
        System.makeDirectories_willing hmake
      rw [hwilling]
      exact h
    | some cause => exact absurd (Prod.mk.inj h).2 nofun
  | print text =>
    rw [perform] at h ⊢
    split at h
    next printed hprint =>
      have hwilling : System.willing.print w.files w.printed text = .ok printed :=
        (unlessRefused_eq_ok_iff.mp hprint).2
      rw [hwilling]
      exact h
    next => exact absurd (Prod.mk.inj h).2 nofun

theorem performAll_willing (h : w.performAll s es = (w', none)) :
    w.performAll .willing es = (w', none) := by
  induction es generalizing w with
  | nil => exact h
  | cons e es ih =>
    rw [performAll] at h ⊢
    split at h
    next => exact absurd (Prod.mk.inj h).2 nofun
    next next hfirst =>
      rw [perform_willing hfirst]
      exact ih h

end World

/-! ## Runs -/

/-- A run that succeeds does so on a system that refuses nothing, with the same outcome. -/
theorem Options.runOn_eq_run {s : System} {o : Options} {v : Verbosity} {files : FileTree}
    (h : (o.runOn s v files).exitCode = 0) : o.runOn s v files = o.run v files := by
  rw [run, runOn, runOn] at *
  split at h
  next => exact absurd h nofun
  next text hinput =>
    have hwilling : System.willing.readText files o.input = .ok text :=
      (unlessRefused_eq_ok_iff.mp hinput).2
    rw [hwilling]
    rcases hrun : World.performAll s { files } (o.plan (FoldFile.ofText text)) with ⟨w, f⟩
    rw [hrun] at h
    cases f with
    | some f => exact absurd h nofun
    | none =>
      dsimp only
      rw [World.performAll_willing hrun]

/-- A run whose input is a text has the effects that are planned for it, up to the first that
fails. -/
theorem Options.exists_progress {s : System} {o : Options} {files : FileTree} {text : String}
    (v : Verbosity) (h : s.readText files o.input = .ok text) :
    ∃ done rest failure, o.plan (FoldFile.ofText text) = done ++ rest ∧
      Progress s files done rest (o.runOn s v files).files failure ∧
      (o.runOn s v files).exitCode = (if rest = [] then 0 else 1) ∧
      (o.runOn s v files).stdout = String.join (done.map Effect.printed) ∧
      (o.runOn s v files).stderr = failure.elim "" Failure.message := by
  rcases World.performAll_cases s { files } (o.plan (FoldFile.ofText text)) with
    ⟨done, rest, w, failure, hrun, hplan, hprogress, hprinted⟩
  have houtcome : o.runOn s v files = .ofWorld v w failure := by
    rw [runOn, h]
    dsimp only
    rw [hrun]
  rw [houtcome]
  refine ⟨done, rest, failure, hplan, hprogress, ?_, hprinted.trans String.empty_append, rfl⟩
  cases hprogress with
  | finished => rfl
  | stopped => rfl

end CaseFolding

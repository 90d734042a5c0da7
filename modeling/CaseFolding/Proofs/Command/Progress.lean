import CaseFolding.Proofs.Command.Run

namespace CaseFolding

/-! # How far a run gets

Apart from its reports a run writes the dump and then either makes a directory and the
artifacts in it or puts the single artifact where it belongs. Which texts these are is
settled when the input has been read. The run gets through a first part of this, and
what it has written by then is there, however its paths run into each other. It comes
to an early end only if something stands in its way or the system refuses it.
-/

/-! ## Effects other than reports -/

namespace Effect

/-- Whether an effect is a deed, and not just a report. -/
def isDeed : Effect → Bool
  | .report _ => false
  | _ => true

/-- Reports are not on the standard output. -/
theorem join_printed_filter_isDeed (es : List Effect) :
    String.join ((es.filter isDeed).map printed) = String.join (es.map printed) := by
  induction es with
  | nil => rfl
  | cons e es ih =>
    cases e with
    | report r =>
      rw [List.filter_cons_of_neg Bool.false_ne_true, ih, List.map_cons, String.join_cons]
      exact String.empty_append.symm
    | write | makeDirectories | print =>
      rw [List.filter_cons_of_pos rfl, List.map_cons, List.map_cons, String.join_cons,
        String.join_cons, ih]

theorem join_printed_eq_empty {es : List Effect} (h : ∀ text, .print text ∉ es) :
    String.join (es.map printed) = "" := by
  induction es with
  | nil => rfl
  | cons e es ih =>
    have hrest := ih fun text hmem => h text (List.mem_cons_of_mem _ hmem)
    have hown : e.printed = "" := by
      cases e with
      | print text => exact absurd List.mem_cons_self (h text)
      | report | write | makeDirectories => rfl
    rw [List.map_cons, String.join_cons, hown, hrest]
    rfl

end Effect

/-- Reports change no file, so the other effects make all of the difference. -/
theorem Completed.filter_isDeed {s : System} {t t' : FileTree} {es : List Effect}
    (h : Completed s t es t') : Completed s t (es.filter Effect.isDeed) t' := by
  induction h with
  | nil t => exact .nil t
  | cons he _ ih =>
    cases he with
    | report => exact ih
    | write hwrite => exact .cons (.write hwrite) ih
    | makeDirectories hmake => exact .cons (.makeDirectories hmake) ih
    | print hprint => exact .cons (.print hprint) ih

/-- Nor does a report fail. -/
theorem Progress.filter_isDeed {s : System} {t t' : FileTree} {done rest : List Effect}
    {failure : Option Failure} (h : Progress s t done rest t' failure) :
    Progress s t (done.filter Effect.isDeed) (rest.filter Effect.isDeed) t' failure := by
  cases h with
  | finished hdone => exact .finished hdone.filter_isDeed
  | stopped hdone he =>
    cases he with
    | write hwrite => exact .stopped hdone.filter_isDeed (.write hwrite)
    | makeDirectories hmake => exact .stopped hdone.filter_isDeed (.makeDirectories hmake)
    | print hprint => exact .stopped hdone.filter_isDeed (.print hprint)

/-! ## The deeds of a run -/

namespace Options

variable (o : Options) (f : FoldFile)

/-- The artifact with single-width code. -/
def wholeArtifact : String :=
  Artifact.singleWidth o f (f.table.listing o.config o.var .toCaller)

/-- The deeds by which a run makes its artifacts. -/
def artifactDeeds : List Effect :=
  match o.utf8 with
  | some dir =>
    .makeDirectories dir :: (f.table.arms o.config o.var o.result).map fun a =>
      .write (FileTree.inDirectory dir (Artifact.armName a.length)) (Artifact.arm f a)
  | none =>
    match o.output with
    | some path => [.write path (o.wholeArtifact f)]
    | none => [.print (o.wholeArtifact f)]

/-- The deeds of a run. -/
def deeds : List Effect :=
  o.dumpPlan f ++ o.artifactDeeds f

theorem filter_isDeed_reports (rs : List Record) : (reports rs).filter Effect.isDeed = [] := by
  rw [List.filter_eq_nil_iff]
  intro e he
  rcases List.mem_map.mp he with ⟨r, -, rfl⟩
  exact nofun

/-- Of the plan for an arm its file is left. -/
theorem filter_isDeed_flatMap_armPlan (dir : String) (arms : List Arm) :
    (arms.flatMap (armPlan f dir)).filter Effect.isDeed =
      arms.map fun a =>
        .write (FileTree.inDirectory dir (Artifact.armName a.length)) (Artifact.arm f a) := by
  induction arms with
  | nil => rfl
  | cons a arms ih =>
    rw [List.flatMap_cons, List.filter_append, ih]
    rfl

/-- The plan for a run consists of its deeds and of reports. -/
theorem filter_isDeed_plan : (o.plan f).filter Effect.isDeed = o.deeds f := by
  have hdump : (o.dumpPlan f).filter Effect.isDeed = o.dumpPlan f := by
    rw [List.filter_eq_self]
    intro e he
    rcases List.mem_map.mp he with ⟨path, -, rfl⟩
    rfl
  have hartifacts : (o.utf8.elim (o.singleWidthPlan f) (o.armsPlan f)).filter Effect.isDeed =
      o.artifactDeeds f := by
    rw [artifactDeeds]
    cases o.utf8 with
    | none =>
      rw [Option.elim_none, singleWidthPlan, List.filter_append, filter_isDeed_reports]
      cases o.output <;> rfl
    | some dir =>
      rw [Option.elim_some, armsPlan, List.filter_append, List.filter_append,
        filter_isDeed_flatMap_armPlan, List.filter_cons_of_pos rfl, filter_isDeed_reports]
      exact List.append_nil _
  rw [plan, List.filter_append, List.filter_cons_of_neg Bool.false_ne_true, hdump, hartifacts, deeds]

theorem print_not_mem_dumpPlan (text : String) : .print text ∉ o.dumpPlan f := by
  intro h
  rcases List.mem_map.mp h with ⟨path, -, hpath⟩
  exact absurd hpath nofun

/-- Nothing is printed before the last deed. -/
theorem print_not_mem_dropLast_deeds (text : String) : .print text ∉ (o.deeds f).dropLast := by
  rw [deeds, artifactDeeds]
  split
  next dir _ =>
    intro h
    rcases List.mem_append.mp (List.dropLast_subset _ h) with h | h
    · exact o.print_not_mem_dumpPlan f text h
    · rcases List.mem_cons.mp h with h | h
      · exact absurd h nofun
      · rcases List.mem_map.mp h with ⟨a, -, ha⟩
        exact absurd ha nofun
  next =>
    split
    all_goals
      rw [List.dropLast_concat]
      exact o.print_not_mem_dumpPlan f text

/-! ## Runs -/

variable {o f} {s : System} {v : Verbosity} {files : FileTree} {text : String}

/-- A run gets through a first part of its deeds. -/
theorem exists_progress_deeds (v : Verbosity) (hinput : s.readText files o.input = .ok text) :
    ∃ done rest failure, o.deeds (FoldFile.ofText text) = done ++ rest ∧
      Progress s files done rest (o.runOn s v files).files failure ∧
      (o.runOn s v files).exitCode = (if rest = [] then 0 else 1) ∧
      (o.runOn s v files).stdout =
        (if rest = [] then String.join (done.map Effect.printed) else "") ∧
      (o.runOn s v files).stderr = failure.elim "" Failure.message := by
  rcases exists_progress v hinput with
    ⟨done, rest, failure, hplan, hprogress, hexit, hstdout, hstderr⟩
  have hdeeds : o.deeds (FoldFile.ofText text) =
      done.filter Effect.isDeed ++ rest.filter Effect.isDeed := by
    rw [← filter_isDeed_plan, hplan, List.filter_append]
  have hrest : rest.filter Effect.isDeed = [] ↔ rest = [] :=
    hprogress.filter_isDeed.rest_eq_nil_iff.trans hprogress.rest_eq_nil_iff.symm
  refine ⟨_, _, failure, hdeeds, hprogress.filter_isDeed, ?_, ?_, hstderr⟩
  · simp only [hrest]
    exact hexit
  · rw [hstdout, ← Effect.join_printed_filter_isDeed]
    split
    next => rfl
    next hleft =>
      -- the deeds that are done do not reach to the last one, which alone prints
      refine Effect.join_printed_eq_empty fun printed hmem => ?_
      have hbefore := o.print_not_mem_dropLast_deeds (FoldFile.ofText text) printed
      rw [hdeeds, List.dropLast_append_of_ne_nil hleft] at hbefore
      exact hbefore (List.mem_append_left _ hmem)

/-- A run that succeeds gets through all of them. -/
theorem progress_of_exitCode (hinput : files.readText o.input = .ok text)
    (hexit : (o.run v files).exitCode = 0) :
    Progress .willing files (o.deeds (FoldFile.ofText text)) [] (o.run v files).files none ∧
      (o.run v files).stdout =
        String.join ((o.deeds (FoldFile.ofText text)).map Effect.printed) := by
  have hwilling : System.willing.readText files o.input = .ok text := hinput
  rcases exists_progress_deeds v hwilling with
    ⟨done, rest, failure, hdeeds, hprogress, hcode, hstdout, -⟩
  rw [run, hcode] at hexit
  split at hexit
  next hrest =>
    rcases hprogress.rest_eq_nil_iff.mp hrest with rfl
    subst hrest
    rw [List.append_nil] at hdeeds
    rw [hdeeds]
    exact ⟨hprogress, hstdout⟩
  next => exact absurd hexit Nat.one_ne_zero

end Options

/-- What is left by a run that has done the first ones of its deeds, while the rest is not done. -/
structure Accomplishes (s : System) (files : FileTree) (done rest : List Effect)
    (failure : Option Failure) (r : Outcome) : Prop where
  /-- Each deed that is done has succeeded in what the one before it has left, and the first of the
  rest has failed. -/
  progress : Progress s files done rest r.files failure
  /-- It has failed because something stood in its way or the system refused it. -/
  obstacle : ∃ t, Completed s files done t ∧ FileTree.GainsDirectories t r.files ∧
    ∀ e ∈ rest.head?, ¬ e.IsPossible s t
  /-- All is well exactly if there is no rest. -/
  exitCode : r.exitCode = if rest = [] then 0 else 1
  /-- Nothing is printed if there is a rest. -/
  stdout : r.stdout = if rest = [] then String.join (done.map Effect.printed) else ""
  stderr : r.stderr = failure.elim "" Failure.message
  /-- Every place has the text that was written there last, and is as before, or a new directory, if
  nothing was. -/
  asWritten : ∀ p, files.AsWritten r.files p (Effect.lastText? r.files p done)
  /-- Every path that was written to is that of a file with the text that was written there last. -/
  written : ∀ path text, .write path text ∈ done →
    ∃ p last, r.files.locate path = .ok p ∧ Effect.lastText? r.files p done = some last ∧
      r.files.readText path = .ok last
  /-- Every directory that was made is there. -/
  made : ∀ path, .makeDirectories path ∈ done →
    r.files.isDirectory (FileTree.names path) = true
  /-- Every new directory is one that was to be made, or one around it. -/
  new : ∀ p, files.item? p = none → r.files.item? p = some .directory →
    ∃ path, .makeDirectories path ∈ done ++ rest.take 1 ∧
      ∃ names ∈ FileTree.names path :: FileTree.around path, r.files.walk [] names = .ok p

namespace Options

/-- If a run cannot read its input as a text, it fails, prints nothing and changes no file.
Otherwise its options and the text, as it was at the start, settle all that the run may do and all
texts that it may write. It does so in order up to the first thing that fails, whether a file or the
standard output cannot be written or a directory not be made, and leaves what it has accomplished
until then. -/
theorem run_completes_deeds_up_to_failure (s : System) (o : Options) (v : Verbosity)
    (files : FileTree) :
    (∀ e, s.readText files o.input = .error e →
      (o.runOn s v files).exitCode = 1 ∧ (o.runOn s v files).stdout = "" ∧
      (o.runOn s v files).stderr = (Failure.reading o.input e).message ∧
      (o.runOn s v files).files = files) ∧
    ∀ text, s.readText files o.input = .ok text →
      ∃ done rest failure, o.deeds (FoldFile.ofText text) = done ++ rest ∧
        Accomplishes s files done rest failure (o.runOn s v files) := by
  constructor
  · intro e hinput
    have houtcome : o.runOn s v files = .ofWorld v { files } (some (.reading o.input e)) := by
      rw [runOn, hinput]
    rw [houtcome]
    exact ⟨rfl, rfl, rfl, rfl⟩
  · intro text hinput
    rcases exists_progress_deeds v hinput with
      ⟨done, rest, failure, hdeeds, hprogress, hexit, hstdout, hstderr⟩
    refine ⟨done, rest, failure, hdeeds, ?_⟩
    exact {
      progress := hprogress
      obstacle := hprogress.exists_completed
      exitCode := hexit
      stdout := hstdout
      stderr := hstderr
      asWritten := hprogress.asWritten
      written := fun path text => hprogress.exists_readText
      made := fun path => hprogress.isDirectory_of_mem
      new := fun p => hprogress.exists_of_new }

/-- Two runs that fail. One is to dump over its input, where the directory of its artifacts should
be too: it leaves the dump of what the input was, and the directory cannot be made. The other one
has its output refused, and changes nothing. -/
theorem run_completes_deeds_up_to_failure_over_input :
    let text := "0041; C; 0061\n"
    let files : FileTree := ⟨[(["CaseFolding.txt"], .file text.toUTF8)]⟩
    let o : Options := { dump := some "CaseFolding.txt", utf8 := some "CaseFolding.txt" }
    let r := o.runOn .willing .standard files
    let closed : System :=
      { System.willing with refusesPrinting := fun _ _ => some "Broken pipe (os error 32)" }
    let r' := runOn closed {} .standard files
    (System.willing.readText files o.input = .ok text ∧ r.exitCode = 1 ∧ r.stdout = "" ∧
      r.stderr = (Failure.makingDirectory "CaseFolding.txt" .alreadyExists).message ∧
      r.files.readText "CaseFolding.txt" =
        .ok (Artifact.dump (FoldFile.ofText text).table)) ∧
    closed.readText files "CaseFolding.txt" = .ok text ∧ r'.exitCode = 1 ∧ r'.stdout = "" ∧
      r'.stderr = "Error: failed to write to stdout\n\nCaused by:\n" ++
        "    Broken pipe (os error 32)\n" ∧
      r'.files = files := by
  intro text files o r closed r'
  have hfile : files.HasText "CaseFolding.txt" ["CaseFolding.txt"] text := ⟨rfl, by decide, rfl⟩
  have hinput : System.willing.readText files o.input = .ok text := hfile.readText_eq_ok
  have hinput' : closed.readText files "CaseFolding.txt" = .ok text := hfile.readText_eq_ok
  rcases (run_completes_deeds_up_to_failure .willing o .standard files).2 text hinput with
    ⟨done, rest, failure, hdeeds, hrun⟩
  rcases (run_completes_deeds_up_to_failure closed {} .standard files).2 text hinput' with
    ⟨done', rest', failure', hdeeds', hrun'⟩
  constructor
  · have hfree : files.IsFree "CaseFolding.txt" ["CaseFolding.txt"] := ⟨rfl, by decide, nofun⟩
    let t := files.put ["CaseFolding.txt"]
      (.file (Artifact.dump (FoldFile.ofText text).table).toUTF8)
    have hmake : System.willing.makeDirectories t "CaseFolding.txt" =
        (t, some .alreadyExists) := rfl
    have hlist : o.deeds (FoldFile.ofText text) =
        .write "CaseFolding.txt" (Artifact.dump (FoldFile.ofText text).table) ::
          .makeDirectories "CaseFolding.txt" ::
            (o.artifactDeeds (FoldFile.ofText text)).tail := rfl
    rw [hlist] at hdeeds
    rcases hrun.progress.cons_cases hdeeds with
      ⟨-, -, f, -, hfails⟩ | ⟨t', done', rfl, hdeeds', hwrite, hprogress'⟩
    · exact absurd ⟨rfl, _, hfree⟩ hfails.not_isPossible
    · cases hwrite with
      | write hwrite =>
        rcases Except.ok.inj ((hfree.writeText_eq _).symm.trans hwrite) with rfl
        rcases hprogress'.cons_cases hdeeds' with
          ⟨rfl, rfl, f, rfl, hfails⟩ | ⟨_, _, _, _, hmade, -⟩
        · cases hfails with
          | makeDirectories hfails =>
            rw [hmake] at hfails
            rcases Option.some.inj (Prod.mk.inj hfails).2 with rfl
            have hwritten : Progress .willing files
                ([] ++ [.write "CaseFolding.txt" (Artifact.dump (FoldFile.ofText text).table)])
                _ r.files _ := hrun.progress
            exact ⟨hinput, hrun.exitCode, hrun.stdout, hrun.stderr,
              hwritten.readText_eq_ok nofun⟩
        · cases hmade with
          | makeDirectories hmade => exact absurd (Prod.mk.inj (hmake.symm.trans hmade)).2 nofun
  · have hlist : deeds {} (FoldFile.ofText text) =
        [.print (wholeArtifact {} (FoldFile.ofText text))] := rfl
    rw [hlist] at hdeeds'
    rcases hrun'.progress.cons_cases hdeeds' with
      ⟨rfl, rfl, f, rfl, hfails⟩ | ⟨_, _, _, _, hprinted, -⟩
    · rcases hfails.of_print with ⟨reason, hreason, hfiles, rfl⟩
      rcases Option.some.inj hreason with rfl
      exact ⟨hinput', hrun'.exitCode, hrun'.stdout, hrun'.stderr, hfiles⟩
    · cases hprinted with
      | print hwilling => exact absurd hwilling nofun

end Options

end CaseFolding

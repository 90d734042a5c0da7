import CaseFolding.Proofs.Command.Artifact
import CaseFolding.Proofs.Command.Progress

namespace CaseFolding

/-! # The dump and the artifacts

The dump lists what the table says. The artifacts of a run are code, from which the
same is computed, and so are those of any other run on the same text. Each file is
found as it was written, as the paths of the artifacts lead to different places and
none of them to that of the dump. All this holds as long as the header is nothing but
a comment: it quotes the first line of the input as it is, so a carriage return or a
backslash in that line can add to the code or take from it.
-/

/-! ## Files of a run -/

/-- The paths of the files that a run makes its artifacts. -/
def Options.artifactPaths (o : Options) : List String :=
  match o.utf8 with
  | some dir => Utf8Length.all.map fun n => FileTree.inDirectory dir (Artifact.armName n)
  | none => o.output.toList

/-- The artifact with single-width code that a run leaves, in its file or on the standard output. -/
def Outcome.singleWidth? (r : Outcome) (o : Options) : Except FileError String :=
  match o.output with
  | some path => r.files.readText path
  | none => .ok r.stdout

namespace Options

variable {o : Options} {f : FoldFile} {e : Effect} {path text : String}

/-- What the artifacts take: a directory, files, and the standard output. -/
theorem of_mem_artifactDeeds (h : e ∈ o.artifactDeeds f) :
    (∃ dir ∈ o.utf8, e = .makeDirectories dir) ∨
      (∃ path ∈ o.artifactPaths, ∃ text, e = .write path text) ∨ ∃ text, e = .print text := by
  rw [artifactDeeds] at h
  rw [artifactPaths]
  split at h
  next dir hutf8 =>
    rw [hutf8]
    rcases List.mem_cons.mp h with rfl | h
    · exact .inl ⟨dir, rfl, rfl⟩
    · rcases List.mem_map.mp h with ⟨a, ha, rfl⟩
      rcases List.mem_map.mp ha with ⟨n, hn, rfl⟩
      exact .inr (.inl ⟨_, List.mem_map_of_mem hn, _, rfl⟩)
  next hutf8 =>
    rw [hutf8]
    split at h
    next out houtput =>
      rw [houtput]
      exact .inr (.inl ⟨out, List.mem_singleton.mpr rfl, _, List.mem_singleton.mp h⟩)
    next => exact .inr (.inr ⟨_, List.mem_singleton.mp h⟩)

theorem path_mem_artifactPaths (h : .write path text ∈ o.artifactDeeds f) :
    path ∈ o.artifactPaths := by
  rcases of_mem_artifactDeeds h with ⟨dir, -, hdir⟩ | ⟨path', hpath, text', heq⟩ | ⟨t, ht⟩
  · exact absurd hdir nofun
  · exact (Effect.write.inj heq).1 ▸ hpath
  · exact absurd ht nofun

end Options

/-! ## Names and lines -/

namespace Artifact

theorem isFileName_armName (n : Utf8Length) : FileTree.IsFileName (armName n) := by
  cases n <;> exact ⟨by decide, by decide, by decide, by decide⟩

theorem armName_injective {m n : Utf8Length} (h : armName m = armName n) : m = n := by
  revert h
  cases m <;> cases n <;> decide

theorem length_basicPlane : basicPlane.length = 0x10000 := by
  rw [basicPlane, List.length_map, List.length_range]

theorem getElem?_basicPlane {c : Codepoint} (h : c.toNat < 0x10000) :
    basicPlane[c.toNat]? = some c := by
  rw [basicPlane, List.getElem?_map, List.getElem?_range h, Option.map_some, UInt32.ofNat_toNat]

/-- The lines of a dump. -/
def dumpLines (t : Table) : List String :=
  basicPlane.map fun c => c.hex ++ " => " ++ (t.fold c).hex

theorem length_dumpLines (t : Table) : (dumpLines t).length = 0x10000 := by
  rw [dumpLines, List.length_map, length_basicPlane]

theorem getElem?_dumpLines (t : Table) {c : Codepoint} (h : c.toNat < 0x10000) :
    (dumpLines t)[c.toNat]? = some (c.hex ++ " => " ++ (t.fold c).hex) := by
  rw [dumpLines, List.getElem?_map, getElem?_basicPlane h]
  rfl

theorem dump_eq (t : Table) : dump t = Text.ofLines (dumpLines t) := rfl

end Artifact

/-! ## What a run leaves -/

theorem Table.map_length_arms (t : Table) (config : Config) (var target : String) :
    (t.arms config var target).map (·.length) = Utf8Length.all := by
  rw [arms, List.map_map]
  exact List.map_id _

namespace Options

variable {o : Options} {v : Verbosity} {files : FileTree} {path dir text : String}

/-- A run succeeds if its files can be written and their directory is there. -/
theorem exitCode_eq_zero (hinput : files.readText o.input = .ok text)
    (hdirectory : ∀ dir ∈ o.utf8, files.isDirectory (FileTree.names dir) = true)
    (hfree : ∀ path ∈ o.dump.toList ++ o.artifactPaths, ∃ p, files.IsFree path p) :
    (o.run v files).exitCode = 0 := by
  have hallowed : ∀ e ∈ o.deeds (FoldFile.ofText text), e.IsAllowed files := by
    intro e he
    rcases List.mem_append.mp he with he | he
    · rcases List.mem_map.mp he with ⟨path, hpath, rfl⟩
      exact hfree path (List.mem_append_left _ hpath)
    · rcases of_mem_artifactDeeds he with ⟨dir, hdir, rfl⟩ | ⟨path, hpath, text, rfl⟩ | ⟨text, rfl⟩
      · exact hdirectory dir hdir
      · exact hfree path (List.mem_append_right _ hpath)
      · trivial
  have hwilling : System.willing.readText files o.input = .ok text := hinput
  rcases exists_progress_deeds v hwilling with ⟨done, rest, failure, hdeeds, hprogress, hexit, -⟩
  rw [run, hexit, if_pos (hprogress.rest_eq_nil (hdeeds ▸ hallowed))]

/-- The dump of a run is there, unless an artifact has taken its place. -/
theorem readText_dump (hinput : files.readText o.input = .ok text) (hdump : o.dump = some path)
    (hexit : (o.run v files).exitCode = 0)
    (hapart : ∀ p ∈ o.artifactPaths,
      (o.run v files).files.locate p ≠ (o.run v files).files.locate path) :
    (o.run v files).files.readText path = .ok (Artifact.dump (FoldFile.ofText text).table) := by
  rcases progress_of_exitCode hinput hexit with ⟨hprogress, -⟩
  have hdeeds : o.deeds (FoldFile.ofText text) =
      [] ++ .write path (Artifact.dump (FoldFile.ofText text).table) ::
        o.artifactDeeds (FoldFile.ofText text) := by
    rw [deeds, dumpPlan, hdump]
    rfl
  rw [hdeeds] at hprogress
  exact hprogress.readText_eq_ok fun _ _ hmem => hapart _ (path_mem_artifactPaths hmem)

/-- The artifact with single-width code is where it belongs. -/
theorem singleWidth?_eq_ok (hinput : files.readText o.input = .ok text)
    (hexit : (o.run v files).exitCode = 0) (hutf8 : o.utf8 = none) :
    (o.run v files).singleWidth? o = .ok (o.wholeArtifact (FoldFile.ofText text)) := by
  rcases progress_of_exitCode hinput hexit with ⟨hprogress, hstdout⟩
  rw [deeds, artifactDeeds, hutf8] at hprogress hstdout
  rw [Outcome.singleWidth?]
  cases houtput : o.output with
  | some path =>
    rw [houtput] at hprogress
    exact hprogress.readText_eq_ok fun _ _ hmem => absurd hmem List.not_mem_nil
  | none =>
    rw [houtput] at hstdout
    have hdump := Effect.join_printed_eq_empty (o.print_not_mem_dumpPlan (FoldFile.ofText text))
    rw [hstdout, List.map_append, String.join_append, hdump, String.empty_append]
    rfl

/-- A run writes the artifact of an arm, and after it those of other lengths alone. -/
theorem exists_deeds_eq_of_mem_arms (f : FoldFile) (hutf8 : o.utf8 = some dir) {a : Arm}
    (ha : a ∈ f.table.arms o.config o.var o.result) :
    ∃ front rest, o.deeds f = front ++
        .write (FileTree.inDirectory dir (Artifact.armName a.length)) (Artifact.arm f a) :: rest ∧
      ∀ path text, .write path text ∈ rest →
        ∃ n, n ≠ a.length ∧ path = FileTree.inDirectory dir (Artifact.armName n) := by
  rcases List.append_of_mem ha with ⟨as, bs, hsplit⟩
  have hlengths : (as.map (·.length) ++ a.length :: bs.map (·.length)).Nodup := by
    rw [← List.map_cons, ← List.map_append, ← hsplit, Table.map_length_arms]
    decide
  have hlater : a.length ∉ bs.map (·.length) :=
    (List.nodup_cons.mp hlengths.of_append_right).1
  rw [deeds, artifactDeeds, hutf8]
  dsimp only
  rw [hsplit, List.map_append, List.map_cons, ← List.cons_append, ← List.append_assoc]
  refine ⟨_, _, rfl, ?_⟩
  intro path text hmem
  rcases List.mem_map.mp hmem with ⟨b, hb, heq⟩
  refine ⟨b.length, ?_, (Effect.write.inj heq).1.symm⟩
  intro hlength
  exact hlater (hlength ▸ List.mem_map_of_mem hb)

/-- The artifact with the code for a length is in its file. -/
theorem readText_arm (hinput : files.readText o.input = .ok text)
    (hexit : (o.run v files).exitCode = 0) (hutf8 : o.utf8 = some dir) {a : Arm}
    (ha : a ∈ (FoldFile.ofText text).table.arms o.config o.var o.result) :
    (o.run v files).files.readText (FileTree.inDirectory dir (Artifact.armName a.length)) =
      .ok (Artifact.arm (FoldFile.ofText text) a) := by
  rcases progress_of_exitCode hinput hexit with ⟨hprogress, -⟩
  rcases exists_deeds_eq_of_mem_arms _ hutf8 ha with ⟨front, rest, hdeeds, hrest⟩
  rw [hdeeds] at hprogress
  refine hprogress.readText_eq_ok fun path' text' hmem hplace => ?_
  rcases hrest path' text' hmem with ⟨n, hn, rfl⟩
  have hname : Artifact.armName a.length ≠ Artifact.armName n := by
    intro hname
    exact hn (Artifact.armName_injective hname).symm
  rcases hprogress.exists_readText (List.mem_append_right front List.mem_cons_self) with
    ⟨p, -, hlocate, -⟩
  exact FileTree.locate_inDirectory_ne (Artifact.isFileName_armName _)
    (Artifact.isFileName_armName _) hname hlocate (hplace.trans hlocate)

/-! ## What the artifacts do -/

/-- The artifact with single-width code that a run leaves folds like the table of its input, if the
header ends where its line does. -/
theorem exists_singleWidth?_run (hinput : files.readText o.input = .ok text)
    (hvar : Code.IsIdentifier o.var) (hfunction : ∀ name ∈ o.function, Code.IsName name)
    (hreturn : ∀ version ∈ (FoldFile.ofText text).version, '\r' ∉ version.toList)
    (hends : ∀ version ∈ (FoldFile.ofText text).version, Text.continued? version.toList = none)
    (hexit : (o.run v files).exitCode = 0) (hutf8 : o.utf8 = none) {c : Codepoint}
    (hc : c ≤ largestCodepoint) :
    ∃ artifact trace, (o.run v files).singleWidth? o = .ok artifact ∧
      Artifact.runSingleWidth o artifact c =
        some (.returned ((FoldFile.ofText text).table.fold c), trace) := by
  have hheader :=
    Artifact.areComments_headerLines (Artifact.forall_isComment_headerLines hreturn) hends
  rcases Artifact.exists_runSingleWidth hheader hvar hfunction hc with ⟨trace, hrun⟩
  exact ⟨_, trace, singleWidth?_eq_ok hinput hexit hutf8, hrun⟩

/-- The artifact for the length of a codepoint that a run leaves folds it like the table. -/
theorem exists_readText_arm_run (hinput : files.readText o.input = .ok text)
    (hvar : Code.IsIdentifier o.var) (hresult : Code.IsIdentifier o.result)
    (hreturn : ∀ version ∈ (FoldFile.ofText text).version, '\r' ∉ version.toList)
    (hexit : (o.run v files).exitCode = 0) (hutf8 : o.utf8 = some dir) {c : Codepoint}
    {n : Utf8Length} (hn : n.span.contains c = true) :
    ∃ artifact trace,
      (o.run v files).files.readText (FileTree.inDirectory dir (Artifact.armName n)) =
        .ok artifact ∧
      Code.runText o.var artifact c = some (.left, trace) ∧
      trace.assigned = [(o.result, (FoldFile.ofText text).table.fold c)] := by
  have hheader := Artifact.forall_isComment_headerLines hreturn
  rcases Artifact.exists_runText_arm hheader o.config hvar hresult hn with
    ⟨a, ha, rfl, trace, hrun, hassigned⟩
  exact ⟨_, trace, readText_arm hinput hexit hutf8 ha, hrun, hassigned⟩

/-- The dump of a run has a line for every codepoint of the basic plane, in ascending order. If the
header that quotes the input is a comment and no more, the line says what the single-width artifact
of the run returns for the codepoint, and what the artifact for its length keeps in any run by
length on the same text. A header that goes on by a backslash leaves the artifacts by length what
they are, but takes the first line from single-width code: unless that is a function, its artifact
returns nothing. -/
theorem dump_agrees_with_artifacts {s : System} (hinput : s.readText files o.input = .ok text)
    (hvar : Code.IsIdentifier o.var) (hfunction : ∀ name ∈ o.function, Code.IsName name)
    (hdump : o.dump = some path) (hexit : (o.runOn s v files).exitCode = 0)
    (hapart : ∀ p ∈ o.artifactPaths,
      (o.runOn s v files).files.locate p ≠ (o.runOn s v files).files.locate path)
    (hreturn : ∀ version ∈ (FoldFile.ofText text).version, '\r' ∉ version.toList) :
    ∃ ls, (o.runOn s v files).files.readText path = .ok (Text.ofLines ls) ∧
      ls.length = 0x10000 ∧
      ∀ c : Codepoint, c.toNat < 0x10000 → ∃ value : Codepoint,
        ls[c.toNat]? = some (c.hex ++ " => " ++ value.hex) ∧
        (o.utf8 = none →
          (∀ version ∈ (FoldFile.ofText text).version,
            Text.continued? version.toList = none) →
          ∃ artifact trace, (o.runOn s v files).singleWidth? o = .ok artifact ∧
            Artifact.runSingleWidth o artifact c = some (.returned value, trace)) ∧
        (o.utf8 = none → o.function = none →
          (∃ version ∈ (FoldFile.ofText text).version,
            (Text.continued? version.toList).isSome) →
          ∃ artifact, (o.runOn s v files).singleWidth? o = .ok artifact ∧
            ∀ result trace,
              Artifact.runSingleWidth o artifact c ≠ some (.returned result, trace)) ∧
        ∃ n, Utf8Length.of? c = some n ∧
          ∀ (s' : System) (o' : Options) (v' : Verbosity) (files' : FileTree) (dir : String),
            s'.readText files' o'.input = .ok text → Code.IsIdentifier o'.var →
            Code.IsIdentifier o'.result → o'.utf8 = some dir →
            (o'.runOn s' v' files').exitCode = 0 →
            ∃ artifact trace,
              (o'.runOn s' v' files').files.readText
                (FileTree.inDirectory dir (Artifact.armName n)) = .ok artifact ∧
              Code.runText o'.var artifact c = some (.left, trace) ∧
              trace.assigned = [(o'.result, value)] := by
  -- as it succeeds, the run is as good as one where nothing is refused
  have hread := (unlessRefused_eq_ok_iff.mp hinput).2
  have hrun := runOn_eq_run hexit
  rw [hrun] at hexit hapart ⊢
  have hdumped := readText_dump hread hdump hexit hapart
  rw [Artifact.dump_eq] at hdumped
  refine ⟨_, hdumped, Artifact.length_dumpLines _, ?_⟩
  intro c hc
  have hlargest : c ≤ largestCodepoint := by
    rw [UInt32.le_iff_toNat_le]
    exact Nat.le_trans (Nat.le_of_lt hc) (by decide)
  have hlength := Utf8Length.contains_byBounds hlargest
  refine ⟨_, Artifact.getElem?_dumpLines _ hc, ?_, ?_, Utf8Length.byBounds c,
    Utf8Length.of?_eq_some_iff.mpr hlength, ?_⟩
  · intro hutf8 hends
    exact exists_singleWidth?_run hread hvar hfunction hreturn hends hexit hutf8 hlargest
  · rintro hutf8 hbare ⟨version, hversion, hgoes⟩
    have hheader := Artifact.forall_isComment_headerLines hreturn
    refine ⟨_, singleWidth?_eq_ok hread hexit hutf8, fun result trace => ?_⟩
    exact Artifact.runSingleWidth_ne_returned hheader hversion hgoes hvar hbare _ rfl c result trace
  · intro s' o' v' files' dir hinput' hvar' hresult' hutf8' hexit'
    have hread' := (unlessRefused_eq_ok_iff.mp hinput').2
    have hrun' := runOn_eq_run hexit'
    rw [hrun'] at hexit' ⊢
    exact exists_readText_arm_run hread' hvar' hresult' hreturn hexit' hutf8' hlength

/-- Two folds, with a function for the single-width code and a directory for the other run. -/
theorem dump_agrees_with_artifacts_micro :
    let text := "# CaseFolding-15.1.0.txt\n0041; C; 0061; # LATIN CAPITAL LETTER A\n" ++
      "00B5; C; 03BC; # MICRO SIGN\n"
    let files : FileTree :=
      ⟨[(["CaseFolding.txt"], .file text.toUTF8), (["out"], .directory)]⟩
    let o : Options :=
      { output := some "fold.inc", function := some "fold", dump := some "folds.txt" }
    let o' : Options := { utf8 := some "out", config := { utf8Gap := 9 } }
    let r := o.run .standard files
    let r' := o'.run .standard files
    files.readText o.input = .ok text ∧ Code.IsIdentifier o.var ∧ Code.IsIdentifier o.result ∧
      (∀ name ∈ o.function, Code.IsName name) ∧ r.exitCode = 0 ∧ r'.exitCode = 0 ∧
      (∀ p ∈ o.artifactPaths, r.files.locate p ≠ r.files.locate "folds.txt") ∧
      (∀ version ∈ (FoldFile.ofText text).version, '\r' ∉ version.toList) ∧
      ∃ ls value, r.files.readText "folds.txt" = .ok (Text.ofLines ls) ∧ ls.length = 0x10000 ∧
        ls[0xB5]? = some ("00B5 => " ++ Codepoint.hex value) ∧
        (∃ artifact trace, r.files.readText "fold.inc" = .ok artifact ∧
          Artifact.runSingleWidth o artifact 0xB5 = some (.returned value, trace)) ∧
        ∃ artifact trace, r'.files.readText "out/fold_utf8_2.inc" = .ok artifact ∧
          Code.runText "c" artifact 0xB5 = some (.left, trace) ∧
          trace.assigned = [("r", value)] := by
  intro text files o o' r r'
  have hfile : files.HasText "CaseFolding.txt" ["CaseFolding.txt"] text := ⟨rfl, by decide, rfl⟩
  have hinput := hfile.readText_eq_ok
  have hvar : Code.IsIdentifier "c" := by decide
  have hresult : Code.IsIdentifier "r" := by decide
  have hfunction : ∀ name ∈ o.function, Code.IsName name := by decide
  have hexit : r.exitCode = 0 := by
    refine exitCode_eq_zero hinput nofun ?_
    intro path hpath
    rcases List.mem_pair.mp hpath with rfl | rfl
    · exact ⟨["folds.txt"], rfl, by decide, nofun⟩
    · exact ⟨["fold.inc"], rfl, by decide, nofun⟩
  have hexit' : r'.exitCode = 0 := by
    refine exitCode_eq_zero hinput ?_ ?_
    · intro dir hdir
      rcases Option.mem_some.mp hdir with rfl
      rfl
    · intro path hpath
      rcases List.mem_map.mp hpath with ⟨n, -, rfl⟩
      refine ⟨["out", Artifact.armName n], ?_, ?_, ?_⟩
      · cases n <;> rfl
      · cases n <;> decide
      · cases n <;> exact nofun
  have hapart : ∀ p ∈ o.artifactPaths, r.files.locate p ≠ r.files.locate "folds.txt" := by
    intro p hp hplace
    rcases List.mem_singleton.mp hp with rfl
    have hfold : ∀ t : FileTree, t.locate "fold.inc" = .ok ["fold.inc"] := fun _ => rfl
    have hfolds : ∀ t : FileTree, t.locate "folds.txt" = .ok ["folds.txt"] := fun _ => rfl
    rw [hfold, hfolds] at hplace
    exact absurd hplace (by decide)
  have hversion : (FoldFile.ofText text).version = some "CaseFolding-15.1.0.txt" := by
    decide +kernel
  have hreturn : ∀ version ∈ (FoldFile.ofText text).version, '\r' ∉ version.toList := by
    rw [hversion]
    decide
  have hends : ∀ version ∈ (FoldFile.ofText text).version,
      Text.continued? version.toList = none := by
    rw [hversion]
    decide
  have hwilling : System.willing.readText files o.input = .ok text := hinput
  have hwilling' : System.willing.readText files o'.input = .ok text := hinput
  rcases dump_agrees_with_artifacts hwilling hvar hfunction rfl hexit hapart hreturn with
    ⟨ls, hdump, hlength, hagrees⟩
  rcases hagrees 0xB5 (by decide) with ⟨value, hline, hsingle, -, n, hn, harms⟩
  have htwo : Utf8Length.of? 0xB5 = some .two := by decide
  rcases Option.some.inj (htwo.symm.trans hn) with rfl
  exact ⟨hinput, hvar, hresult, hfunction, hexit, hexit', hapart, hreturn, ls, value, hdump,
    hlength, hline, hsingle rfl hends, harms .willing o' .standard files "out" hwilling' hvar hresult rfl hexit'⟩

/-- A run for single-width code and a dump, with nothing but the input there before. -/
theorem run_with_dump (text : String) :
    let files : FileTree := ⟨[(["in.txt"], .file text.toUTF8)]⟩
    let o : Options := { input := "in.txt", dump := some "folds.txt" }
    let r := o.run .standard files
    files.readText o.input = .ok text ∧ r.exitCode = 0 ∧
      r.files.readText "folds.txt" =
        .ok (Text.ofLines (Artifact.dumpLines (FoldFile.ofText text).table)) ∧
      r.singleWidth? o = .ok (o.wholeArtifact (FoldFile.ofText text)) := by
  intro files o r
  have hfile : files.HasText "in.txt" ["in.txt"] text := ⟨rfl, by decide, rfl⟩
  have hinput := hfile.readText_eq_ok
  have hexit : r.exitCode = 0 := by
    refine exitCode_eq_zero hinput nofun fun path hpath => ?_
    rcases List.mem_singleton.mp hpath with rfl
    exact ⟨["folds.txt"], rfl, by decide, nofun⟩
  exact ⟨hinput, hexit, readText_dump hinput rfl hexit nofun, singleWidth?_eq_ok hinput hexit rfl⟩

/-- The first line of an input may undo the artifact. A backslash at its end takes the first line
from the code, which is no program then, and a carriage return in it puts what follows in front of
the code, here a statement that returns zero. In both cases the dump still has the fold. -/
theorem header_may_undo_artifact :
    let continued := "# CaseFolding-15.1.0.txt\\\n0041; C; 0061; # LATIN CAPITAL LETTER A\n"
    let returned := "# Folds\rreturn 0x0000;\n0041; C; 0061; # LATIN CAPITAL LETTER A\n"
    let files (text : String) : FileTree := ⟨[(["in.txt"], .file text.toUTF8)]⟩
    let o : Options := { input := "in.txt", dump := some "folds.txt" }
    (∀ text ∈ [continued, returned],
      (files text).readText o.input = .ok text ∧ (o.run .standard (files text)).exitCode = 0 ∧
        ∃ ls, (o.run .standard (files text)).files.readText "folds.txt" = .ok (Text.ofLines ls) ∧
          ls[0x41]? = some "0041 => 0061") ∧
      (∃ artifact, (o.run .standard (files continued)).singleWidth? o = .ok artifact ∧
        Artifact.runSingleWidth o artifact 0x41 = none) ∧
      ∃ artifact, (o.run .standard (files returned)).singleWidth? o = .ok artifact ∧
        Artifact.runSingleWidth o artifact 0x41 = some (.returned 0, {}) := by
  intro continued returned files o
  have hfold : ∀ text ∈ [continued, returned],
      (FoldFile.ofText text).table.fold 0x41 = 0x61 := by
    decide +kernel
  refine ⟨fun text htext => ?_, ?_, ?_⟩
  · rcases run_with_dump text with ⟨hinput, hexit, hdump, -⟩
    refine ⟨hinput, hexit, _, hdump, ?_⟩
    have hline := Artifact.getElem?_dumpLines (FoldFile.ofText text).table
      (show (0x41 : Codepoint).toNat < 0x10000 by decide)
    rw [hfold text htext] at hline
    exact hline
  · rcases run_with_dump continued with ⟨-, -, -, hartifact⟩
    exact ⟨_, hartifact, by decide +kernel⟩
  · rcases run_with_dump returned with ⟨-, -, -, hartifact⟩
    exact ⟨_, hartifact, by decide +kernel⟩

end Options

end CaseFolding

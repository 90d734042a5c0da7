import CaseFolding.Proofs.Command.Dump

namespace CaseFolding

/-! # The conversions that artifacts state

Below its code an artifact states a number of conversions. For an arm this is the
number of entries whose codepoints have its length; for single-width code it is the
number of all entries. The lengths share no codepoint, so the numbers of the arms add
up to that of the single-width code, but for the entries that no length has.
-/

/-! ## Reading the number -/

namespace Artifact

open Text

/-- The number that decimal digits stand for. -/
def decimal? (cs : List Char) : Option Nat :=
  if cs ≠ [] ∧ cs.all Char.isDigit then some (Nat.ofDigitChars 10 cs 0) else none

/-- The number in a line such as `// 26 case conversions`. -/
def statedNumber? (line : List Char) : Option Nat := do
  let rest ← line.dropPrefix? "// ".toList
  decimal? (← rest.dropSuffix? " case conversions".toList)

/-- The number of conversions that an artifact states, which is in its last line but one. -/
def conversions? (artifact : String) : Option Nat :=
  (lines artifact.toList).reverse[1]?.bind statedNumber?

theorem decimal?_toDigits (n : Nat) : decimal? (Nat.toDigits 10 n) = some n := by
  have hdigits : (Nat.toDigits 10 n).all Char.isDigit = true := by
    rw [List.all_eq_true]
    exact fun ch hch => Nat.isDigit_of_mem_toDigits (by decide) (by decide) hch
  rw [decimal?, if_pos ⟨Nat.toDigits_ne_nil, hdigits⟩, Nat.ofDigitChars_ten_toDigits]

/-- The number that is written is read. -/
theorem statedNumber?_eq (n : Nat) :
    statedNumber? (s!"// {n} case conversions").toList = some n := by
  have hline : (s!"// {n} case conversions").toList =
      "// ".toList ++ (Nat.toDigits 10 n ++ " case conversions".toList) := by
    change ("// " ++ toString n ++ " case conversions").toList = _
    rw [String.toList_append, String.toList_append, List.append_assoc, Nat.toString_eq_repr,
      Nat.toList_repr]
  have hrest : (s!"// {n} case conversions").toList.dropPrefix? "// ".toList =
      some (Nat.toDigits 10 n ++ " case conversions".toList) :=
    List.dropPrefix?_eq_some_iff.mpr ⟨_, hline, beq_self_eq_true _⟩
  have hdigits : (Nat.toDigits 10 n ++ " case conversions".toList).dropSuffix?
      " case conversions".toList = some (Nat.toDigits 10 n) :=
    List.dropSuffix?_eq_some_iff.mpr ⟨_, rfl, beq_self_eq_true _⟩
  rw [statedNumber?, hrest, Option.bind_eq_bind, Option.bind_some, hdigits, Option.bind_some,
    decimal?_toDigits]

/-- What is written above a trailer does not change the number that it states. -/
theorem conversions?_append_trailer (ls : List String) (n : Nat) (s : Stats) :
    conversions? (ofLines ls ++ trailer n s) = some n := by
  rcases exists_lines_ofLines_append ls (trailer n s).toList with ⟨above, habove⟩
  have htrailer : lines (trailer n s).toList = (trailerLines n s).map String.toList :=
    lines_ofLines fun l hl => (isPlain_of_mem_trailerLines hl).toIsUnbroken
  have hlast : (lines (ofLines ls ++ trailer n s).toList).reverse[1]? =
      some (s!"// {n} case conversions").toList := by
    rw [String.toList_append, habove, htrailer, List.reverse_append]
    rfl
  rw [conversions?, hlast, Option.bind_some, statedNumber?_eq]

variable (f : FoldFile)

/-- Single-width code states how many entries there are. -/
theorem conversions?_singleWidth (o : Options) :
    conversions? (singleWidth o f (f.table.listing o.config o.var .toCaller)) =
      some f.table.entries.length := by
  let l := f.table.listing o.config o.var .toCaller
  let codeLines := ((f.table.wholeTree o.config).code .toCaller).lines o.var 1
  have habove : ∃ ls, header f ++ o.function.elim l.text (fun name => inFunction name o.var l.text) =
      ofLines ls := by
    cases o.function with
    | none =>
      refine ⟨headerLines f ++ codeLines, ?_⟩
      rw [ofLines_append]
      rfl
    | some name =>
      refine ⟨headerLines f ++ (functionHead name o.var ++ codeLines ++ ["\x7d"]), ?_⟩
      rw [ofLines_append, ofLines_append, ofLines_append, Option.elim_some, inFunction_eq]
      rfl
  rcases habove with ⟨ls, hls⟩
  rw [singleWidth, hls, conversions?_append_trailer]
  rfl

/-- The code for a length states how many entries have that length. -/
theorem conversions?_arm {config : Config} {var target : String} {a : Arm}
    (ha : a ∈ f.table.arms config var target) :
    conversions? (arm f a) = some (f.table.entries.countP fun e => a.length.span.contains e.1) := by
  rcases List.mem_map.mp ha with ⟨n, -, rfl⟩
  let codeLines := ((f.table.armTree config n).code (.toVariable target)).lines var 1
  let listing := (f.table.armTree config n).listing var (.toVariable target)
  have habove : header f ++ armHeader n ++ listing.text =
      ofLines (headerLines f ++ [armLine n] ++ codeLines) := by
    rw [ofLines_append, ofLines_append]
    rfl
  rw [arm, habove, conversions?_append_trailer, List.countP_eq_length_filter]
  rfl

end Artifact

/-! ## Entries by length -/

/-- A codepoint has one length, or lies beyond those that generated code tells apart. -/
theorem Utf8Length.sum_contains (c : Codepoint) :
    (all.map fun n => if n.span.contains c then 1 else 0).sum +
      (if largestCodepoint < c then 1 else 0) = 1 := by
  by_cases hc : c ≤ largestCodepoint
  · have hspan : ∀ n : Utf8Length, n.span.contains c = decide (n = byBounds c) := by
      intro n
      rw [Bool.eq_iff_iff, decide_eq_true_iff]
      constructor
      · exact eq_byBounds
      · rintro rfl
        exact contains_byBounds hc
    rw [if_neg (UInt32.not_lt.mpr hc)]
    simp only [hspan]
    cases byBounds c <;> decide
  · have hspan : ∀ n : Utf8Length, n.span.contains c = false := by
      intro n
      rw [Bool.eq_false_iff, ne_eq, Span.contains_iff]
      rintro ⟨-, hlast⟩
      refine hc (UInt32.le_trans hlast ?_)
      cases n <;> decide
    rw [if_pos (UInt32.not_le.mp hc)]
    simp only [hspan]
    decide

/-- Entries are counted by their lengths, and those beyond on their own. -/
theorem Table.sum_countP_contains (es : List Entry) :
    (Utf8Length.all.map fun n => es.countP fun e => n.span.contains e.1).sum +
      es.countP (fun e => largestCodepoint < e.1) = es.length := by
  induction es with
  | nil => rfl
  | cons e es ih =>
    have hone := Utf8Length.sum_contains e.1
    simp only [Utf8Length.all, List.map_cons, List.map_nil, List.sum_cons, List.sum_nil,
      List.countP_cons, List.length_cons, decide_eq_true_eq] at hone ih ⊢
    omega

/-! ## What runs state -/

namespace Options

variable {o o' : Options} {v v' : Verbosity} {files files' : FileTree} {text dir : String}

/-- Of two runs on the same text, one for single-width code and one by length, each artifact by
length states how many entries have codepoints of its length, and the one with single-width code
states how many entries there are. So the latter is the sum of the former and of the entries beyond
the codepoints that generated code tells apart; it is the sum alone, and the number of entries that
the code is about, exactly if there are none beyond. -/
theorem conversions_add_up_unless_beyond (hinput : files.readText o.input = .ok text)
    (hutf8 : o.utf8 = none) (hexit : (o.run v files).exitCode = 0)
    (hinput' : files'.readText o'.input = .ok text) (hutf8' : o'.utf8 = some dir)
    (hexit' : (o'.run v' files').exitCode = 0) :
    ∃ (whole : Nat) (part : Utf8Length → Nat),
      (∃ artifact, (o.run v files).singleWidth? o = .ok artifact ∧
        Artifact.conversions? artifact = some whole) ∧
      (∀ n, ∃ artifact,
        (o'.run v' files').files.readText (FileTree.inDirectory dir (Artifact.armName n)) =
          .ok artifact ∧
        Artifact.conversions? artifact = some (part n)) ∧
      (∀ n, part n = (FoldFile.ofText text).table.entries.countP fun e => n.span.contains e.1) ∧
      whole = (FoldFile.ofText text).table.entries.length ∧
      whole = (Utf8Length.all.map part).sum +
        (FoldFile.ofText text).table.entries.countP (fun e => largestCodepoint < e.1) ∧
      (whole = (Utf8Length.all.map part).sum ↔
        ∀ e ∈ (FoldFile.ofText text).table.entries, e.1 ≤ largestCodepoint) ∧
      (whole = (FoldFile.ofText text).table.entries.countP (fun e => Span.folded.contains e.1) ↔
        ∀ e ∈ (FoldFile.ofText text).table.entries, e.1 ≤ largestCodepoint) := by
  have hsum := Table.sum_countP_contains (FoldFile.ofText text).table.entries
  have hbeyond : (FoldFile.ofText text).table.entries.countP (fun e => largestCodepoint < e.1) = 0 ↔
      ∀ e ∈ (FoldFile.ofText text).table.entries, e.1 ≤ largestCodepoint := by
    simp only [List.countP_eq_zero, decide_eq_true_eq, UInt32.not_lt]
  have hparts : ∀ n, ∃ artifact,
      (o'.run v' files').files.readText (FileTree.inDirectory dir (Artifact.armName n)) =
        .ok artifact ∧
      Artifact.conversions? artifact =
        some ((FoldFile.ofText text).table.entries.countP fun e => n.span.contains e.1) := by
    intro n
    have ha := (FoldFile.ofText text).table.mem_arms o'.config o'.var o'.result n
    have hread := readText_arm hinput' hexit' hutf8' ha
    exact ⟨_, hread, Artifact.conversions?_arm (FoldFile.ofText text) ha⟩
  refine ⟨_, _, ⟨_, singleWidth?_eq_ok hinput hexit hutf8,
    Artifact.conversions?_singleWidth (FoldFile.ofText text) o⟩, hparts, fun _ => rfl, rfl,
    hsum.symm, ?_, ?_⟩
  · rw [← hbeyond]
    omega
  · rw [eq_comm, List.countP_eq_length]
    simp only [Table.contains_folded]

/-- A tree with a case folding file and a directory for the artifacts by length. -/
def treeOfText (text : String) : FileTree :=
  ⟨[(["CaseFolding.txt"], .file text.toUTF8), (["out"], .directory)]⟩

/-- In such a tree both kinds of runs succeed. -/
theorem runs_in_treeOfText (text : String) :
    (treeOfText text).readText "CaseFolding.txt" = .ok text ∧
      (run {} .standard (treeOfText text)).exitCode = 0 ∧
      (run { utf8 := some "out" } .standard (treeOfText text)).exitCode = 0 := by
  have hfile : (treeOfText text).HasText "CaseFolding.txt" ["CaseFolding.txt"] text :=
    ⟨rfl, by decide, rfl⟩
  have hinput := hfile.readText_eq_ok
  refine ⟨hinput, exitCode_eq_zero hinput nofun nofun, exitCode_eq_zero hinput ?_ ?_⟩
  · intro dir hdir
    rcases Option.mem_some.mp hdir with rfl
    rfl
  · intro path hpath
    rcases List.mem_map.mp hpath with ⟨n, -, rfl⟩
    refine ⟨["out", Artifact.armName n], ?_, ?_, ?_⟩
    · cases n <;> rfl
    · cases n <;> decide
    · cases n <;> exact nofun

/-- One entry of each of the two lowest lengths, and one beyond all lengths. -/
theorem conversions_add_up_unless_beyond_three :
    let text := "41; C; 61\n80; C; 81\n200000; C; 42\n"
    let r := run {} .standard (treeOfText text)
    let r' := run { utf8 := some "out" } .standard (treeOfText text)
    (treeOfText text).readText "CaseFolding.txt" = .ok text ∧ r.exitCode = 0 ∧ r'.exitCode = 0 ∧
      (∃ artifact, r.singleWidth? {} = .ok artifact ∧
        Artifact.conversions? artifact = some 3) ∧
      ∃ part : Utf8Length → Nat,
        (∀ n, ∃ artifact,
          r'.files.readText (FileTree.inDirectory "out" (Artifact.armName n)) = .ok artifact ∧
          Artifact.conversions? artifact = some (part n)) ∧
        Utf8Length.all.map part = [1, 1, 0, 0] := by
  intro text r r'
  rcases runs_in_treeOfText text with ⟨hinput, hexit, hexit'⟩
  have hentries : (FoldFile.ofText text).table.entries =
      [(0x41, 0x61), (0x80, 0x81), (0x200000, 0x42)] := by
    decide +kernel
  rcases conversions_add_up_unless_beyond hinput rfl hexit hinput rfl hexit' with
    ⟨whole, part, hsingle, harms, hpart, hwhole, -⟩
  rw [hentries] at hwhole
  subst hwhole
  refine ⟨hinput, hexit, hexit', hsingle, part, harms, ?_⟩
  simp only [Utf8Length.all, List.map_cons, List.map_nil, hpart, hentries]
  decide

/-- A single entry beyond all lengths is stated by the single-width code, whose result it does not
change, and by no arm. -/
theorem entry_beyond_is_stated_once :
    let text := "200000; C; 41\n"
    let r := run {} .standard (treeOfText text)
    let r' := run { utf8 := some "out" } .standard (treeOfText text)
    (treeOfText text).readText "CaseFolding.txt" = .ok text ∧ r.exitCode = 0 ∧ r'.exitCode = 0 ∧
      (FoldFile.ofText text).table.entries.countP (fun e => Span.folded.contains e.1) = 0 ∧
      (∃ artifact, r.singleWidth? {} = .ok artifact ∧
        Artifact.conversions? artifact = some 1) ∧
      ∀ n, ∃ artifact,
        r'.files.readText (FileTree.inDirectory "out" (Artifact.armName n)) = .ok artifact ∧
        Artifact.conversions? artifact = some 0 := by
  intro text r r'
  rcases runs_in_treeOfText text with ⟨hinput, hexit, hexit'⟩
  have hentries : (FoldFile.ofText text).table.entries = [(0x200000, 0x41)] := by
    decide +kernel
  have hwhole := Artifact.conversions?_singleWidth (FoldFile.ofText text) {}
  rw [hentries] at hwhole
  refine ⟨hinput, hexit, hexit', by rw [hentries]; decide,
    ⟨_, singleWidth?_eq_ok hinput hexit rfl, hwhole⟩, ?_⟩
  intro n
  have ha := (FoldFile.ofText text).table.mem_arms {} "c" "r" n
  have hread := readText_arm hinput hexit' rfl ha
  have hpart := Artifact.conversions?_arm (FoldFile.ofText text) ha
  rw [hentries] at hpart
  refine ⟨_, hread, hpart.trans ?_⟩
  cases n <;> decide

end Options

end CaseFolding

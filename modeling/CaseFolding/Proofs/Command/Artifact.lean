import CaseFolding.Command.Plan
import CaseFolding.Proofs.Code.Comment
import CaseFolding.Proofs.Utf8

namespace CaseFolding

/-! # What artifacts do

An artifact is generated code with comments above and below it, one of which quotes
the case folding file. Read and run, it does what the code does, if what is quoted
leaves the comment a comment: it may not end the line, and where code stands right
below it may not go on in the next line either.
-/

/-! ## Comments of an artifact -/

/-- Texts joined without anything between them break no line. -/
theorem Text.isPlain_join {ls : List String} (h : ∀ l ∈ ls, Text.IsPlain l) :
    Text.IsPlain (String.join ls) := by
  have hjoin : ∀ ch : Char, (∀ l ∈ ls, ch ∉ l.toList) → ch ∉ (String.join ls).toList := by
    intro ch hch
    rw [String.toList_join, List.mem_flatMap]
    rintro ⟨l, hl, hmem⟩
    exact hch l hl hmem
  exact ⟨⟨hjoin _ fun l hl => (h l hl).feedless, hjoin _ fun l hl => (h l hl).returnless⟩,
    hjoin _ fun l hl => (h l hl).noBackslash⟩

/-- The statistics in words take one line. -/
theorem Stats.isPlain_text (s : Stats) : Text.IsPlain s.text := by
  have hnumber : ∀ n : Nat, Text.IsPlain (toString n) := fun n => (Code.isName_toString n).isPlain
  have hname : ∀ k : Kind, Text.IsPlain k.name := by
    intro k
    cases k <;> decide
  have hcounts : Text.IsPlain s!"{s.intervals} intervals, {s.branches} branches, " :=
    (((hnumber s.intervals).append (by decide)).append (hnumber s.branches)).append (by decide)
  have hsizes : Text.IsPlain s!"{s.dataSize} bytes of data, tree height {s.height}" :=
    ((hnumber s.dataSize).append (by decide)).append (hnumber s.height)
  refine (hcounts.append hsizes).append (Text.isPlain_join ?_)
  intro l hl
  rcases List.mem_map.mp hl with ⟨⟨k, n⟩, -, rfl⟩
  exact (((by decide : Text.IsPlain ", ").append (hnumber n)).append (by decide)).append (hname k)

theorem Text.mem_of_mem_trim {ch : Char} {cs : List Char} (h : ch ∈ Text.trim cs) : ch ∈ cs := by
  rw [Text.trim, Text.trimEnd, List.mem_reverse] at h
  have hfront := List.mem_reverse.mp ((List.dropWhile_sublist _).subset h)
  exact (List.dropWhile_sublist _).subset hfront

/-- A version that is quoted takes one line. -/
theorem FoldFile.feed_not_mem_version {text version : String}
    (h : (FoldFile.ofText text).version = some version) : '\n' ∉ version.toList := by
  rcases Option.bind_eq_some_iff.mp h with ⟨line, hline, hversion⟩
  have hfeed := Text.feed_not_mem_of_mem_lines (List.mem_of_mem_head? hline)
  unfold version? at hversion
  split at hversion
  next words =>
    split at hversion
    next => exact absurd hversion nofun
    next name hname =>
      rcases Option.some.inj hversion with rfl
      intro hmem
      rw [String.toList_ofList] at hmem
      exact hfeed (List.mem_cons_of_mem _ (Text.mem_of_mem_trim hmem))
  next => exact absurd hversion nofun

/-- A comment may be written on as long as it takes one line. -/
theorem Text.IsComment.append {line rest : String} (h : Text.IsComment line)
    (hrest : Text.IsUnbroken rest) : Text.IsComment (line ++ rest) := by
  refine ⟨h.toIsUnbroken.append hrest, ?_⟩
  rw [String.toList_append]
  exact h.slashes.trans (List.prefix_append _ _)

/-- Single-width code opens a block with its first line, or that line is all there is. -/
theorem Tree.code_toCaller_cases (t : Tree) :
    t.code .toCaller = .next (.ret .same) .done ∨
      ∃ tests body rest, t.code .toCaller = .guarded tests body rest := by
  rw [Tree.code, Tree.layout]
  cases t with
  | leaf => exact .inl rfl
  | node height l m r =>
    cases height with
    | zero => exact .inl rfl
    | succ height => exact .inr ⟨_, _, _, rfl⟩

namespace Artifact

open Text

variable {f : FoldFile}

/-- The lines above the code of an artifact. -/
def headerLines (f : FoldFile) : List String :=
  f.version.toList.map ("// Generated from " ++ ·)

theorem header_eq (f : FoldFile) : header f = ofLines (headerLines f) := rfl

/-- A version without carriage return is quoted in a comment. -/
theorem forall_isComment_headerLines {text : String}
    (hreturn : ∀ version ∈ (FoldFile.ofText text).version, '\r' ∉ version.toList) :
    ∀ l ∈ headerLines (FoldFile.ofText text), IsComment l := by
  intro l hl
  rcases List.mem_map.mp hl with ⟨version, hversion, rfl⟩
  have hsome := Option.mem_toList.mp hversion
  have hlead : IsComment "// Generated from " :=
    ⟨(by decide : IsPlain "// Generated from ").toIsUnbroken, ⟨_, rfl⟩⟩
  exact hlead.append ⟨FoldFile.feed_not_mem_version hsome, hreturn version hsome⟩

/-- The comment ends where its line does if the version does not go on. -/
theorem areComments_headerLines (hf : ∀ l ∈ headerLines f, IsComment l)
    (hends : ∀ version ∈ f.version, continued? version.toList = none) :
    AreComments (headerLines f) := by
  rw [headerLines] at hf ⊢
  cases hversion : f.version with
  | none => exact .nil
  | some version =>
    rw [hversion] at hf
    refine .cons (hf _ List.mem_cons_self) (fun _ => ?_) .nil
    rw [String.toList_append]
    rw [continued?_append_of_not_mem (by decide), hends version hversion, Option.map_none]

/-- The lines below the code of an artifact. -/
def trailerLines (conversions : Nat) (s : Stats) : List String :=
  [s!"// {conversions} case conversions", "// " ++ s.text]

theorem trailer_eq (conversions : Nat) (s : Stats) :
    trailer conversions s = ofLines (trailerLines conversions s) := rfl

theorem isPlain_of_mem_trailerLines {l : String} {conversions : Nat} {s : Stats}
    (h : l ∈ trailerLines conversions s) : IsPlain l := by
  have hnumber : IsPlain (toString conversions) := (Code.isName_toString conversions).isPlain
  rcases List.mem_pair.mp h with rfl | rfl
  · exact ((by decide : IsPlain "// ").append hnumber).append (by decide)
  · exact (by decide : IsPlain "// ").append s.isPlain_text

theorem areComments_trailerLines (conversions : Nat) (s : Stats) :
    AreComments (trailerLines conversions s) := by
  have hlead : IsComment "// " := ⟨(by decide : IsPlain "// ").toIsUnbroken, ⟨_, rfl⟩⟩
  have hnumber : IsPlain (toString conversions) := (Code.isName_toString conversions).isPlain
  have hcount : IsPlain (toString conversions ++ " case conversions") :=
    hnumber.append (by decide)
  apply areComments_of_isPlain
  intro l hl
  refine ⟨?_, isPlain_of_mem_trailerLines hl⟩
  rcases List.mem_pair.mp hl with rfl | rfl
  · change IsComment ("// " ++ toString conversions ++ " case conversions")
    rw [String.append_assoc]
    exact hlead.append hcount.toIsUnbroken
  · exact hlead.append s.isPlain_text.toIsUnbroken

/-- The line that says what the code of an artifact covers. -/
def armLine (n : Utf8Length) : String :=
  s!"// UTF-8 length {n.bytes}: U+" ++ n.span.first.hex ++ "..U+" ++ n.span.last.hex

theorem armHeader_eq (n : Utf8Length) : armHeader n = ofLines [armLine n] := rfl

theorem isPlain_armLine (n : Utf8Length) : IsPlain (armLine n) := by
  cases n <;> decide

theorem areComments_armLine (n : Utf8Length) : AreComments [armLine n] := by
  apply areComments_of_isPlain
  rw [List.forall_mem_singleton]
  exact ⟨⟨(isPlain_armLine n).toIsUnbroken, by cases n <;> exact ⟨_, rfl⟩⟩, isPlain_armLine n⟩

/-! ## Artifacts -/

variable {code : Code} {var : String}

/-- The artifact for a length runs like the code in it. -/
theorem runText_arm (hf : ∀ l ∈ headerLines f, IsComment l) (hvar : Code.IsIdentifier var)
    (hcode : code.IsReadable) {a : Arm} (ha : a.listing.text = code.text var) (c : Codepoint) :
    Code.runText var (arm f a) c = Code.runText var a.listing.text c := by
  -- a header that goes on takes in no more than the line about the length
  have hbefore : AreComments (headerLines f ++ [armLine a.length]) :=
    .append hf nofun (areComments_armLine a.length)
  rw [ha, Code.runText_text hvar hcode, Code.runText, arm, header_eq, armHeader_eq, trailer_eq, ha,
    ← ofLines_append, Code.read?_between hvar hcode hbefore (areComments_trailerLines _ _)]
  rfl

/-- Runs an artifact with single-width code, which may be a function. -/
def runSingleWidth (o : Options) (artifact : String) (c : Codepoint) : Option (Ending × Trace) :=
  match o.function with
  | none => Code.runText o.var artifact c
  | some name => (Code.readFunction? name o.var artifact).map (·.run c)

theorem inFunction_eq (name var code : String) :
    inFunction name var code = ofLines (functionHead name var) ++ code ++ ofLines ["\x7d"] := rfl

/-- The artifact with single-width code runs like that code. -/
theorem runSingleWidth_singleWidth (hf : AreComments (headerLines f)) {o : Options}
    (hvar : Code.IsIdentifier o.var) (hfunction : ∀ name ∈ o.function, Code.IsName name)
    (hcode : code.IsReadable) {l : Listing} (hl : l.text = code.text o.var) (c : Codepoint) :
    runSingleWidth o (singleWidth o f l) c = Code.runText o.var l.text c := by
  have hafter := areComments_trailerLines f.table.size l.stats
  rw [hl, Code.runText_text hvar hcode, runSingleWidth, singleWidth, header_eq, trailer_eq, hl]
  cases hname : o.function with
  | none =>
    dsimp only [Option.elim]
    rw [Code.runText, Code.read?_between hvar hcode hf hafter]
    rfl
  | some name =>
    dsimp only [Option.elim]
    rw [inFunction_eq, Code.readFunction?_between (hfunction name hname) hvar hcode hf hafter]
    rfl

/-- The artifact with single-width code that is not a function returns nothing if its header goes
on, for the code has lost its first line. -/
theorem runSingleWidth_ne_returned (hf : ∀ l ∈ headerLines f, IsComment l) {version : String}
    (hversion : f.version = some version) (hgoes : (continued? version.toList).isSome)
    {o : Options} (hvar : Code.IsIdentifier o.var) (hfunction : o.function = none) (t : Tree)
    {l : Listing} (hl : l.text = (t.code .toCaller).text o.var) (c value : Codepoint)
    (trace : Trace) : runSingleWidth o (singleWidth o f l) c ≠ some (.returned value, trace) := by
  have hsink : Sink.toCaller.IsNamed := trivial
  have hcode : (t.code .toCaller).IsReadable := Tree.isReadable_code hsink t
  have hheader : headerLines f = ["// Generated from " ++ version] := by
    rw [headerLines, hversion]
    rfl
  have hcomment : IsComment ("// Generated from " ++ version) :=
    hf _ (hheader ▸ List.mem_cons_self)
  have hcontinued : (continued? ("// Generated from " ++ version).toList).isSome := by
    rw [String.toList_append, continued?_append_of_not_mem (by decide), Option.isSome_map]
    exact hgoes
  have hafter := areComments_trailerLines f.table.size l.stats
  rw [runSingleWidth, singleWidth, hfunction, Option.elim_none, header_eq, hheader, trailer_eq, hl]
  change Code.runText o.var _ c ≠ _
  rcases t.code_toCaller_cases with hret | ⟨tests, body, rest, hguarded⟩
  · rw [hret] at hcode ⊢
    rw [Code.runText, Code.read?_of_continued hcomment hcontinued hvar hcode rfl hafter]
    intro h
    cases h
  · rw [hguarded] at hcode ⊢
    rw [Code.runText, Code.read?_of_continued hcomment hcontinued hvar hcode rfl hafter,
      Code.Reader.assemble_tail_guarded]
    intro h
    cases h

/-! ## What they do with a codepoint -/

/-- The artifact with single-width code returns the folds of the table. -/
theorem exists_runSingleWidth (hf : AreComments (headerLines f)) {o : Options}
    (hvar : Code.IsIdentifier o.var) (hfunction : ∀ name ∈ o.function, Code.IsName name)
    {c : Codepoint} (hc : c ≤ largestCodepoint) :
    ∃ trace, runSingleWidth o (singleWidth o f (f.table.listing o.config o.var .toCaller)) c =
      some (.returned (f.table.fold c), trace) := by
  have hsink : Sink.toCaller.IsNamed := trivial
  have hcode : ((f.table.wholeTree o.config).code .toCaller).IsReadable :=
    Tree.isReadable_code hsink _
  obtain ⟨⟨ending, trace⟩, hrun, ⟨hending, -⟩, -⟩ :=
    f.table.runText_listing_tree Span.folded o.config.gap o.config.switches hvar hsink c
  rw [if_pos ((Table.contains_folded c).mpr hc)] at hending
  have hreturned : ending = .returned (f.table.fold c) := hending
  rw [hreturned] at hrun
  exact ⟨trace, (runSingleWidth_singleWidth hf hvar hfunction hcode rfl c).trans hrun⟩

/-- There is an arm for every length, and its artifact keeps the folds of the table. -/
theorem exists_runText_arm (hf : ∀ l ∈ headerLines f, IsComment l) (config : Config)
    (hvar : Code.IsIdentifier var) {target : String} (htarget : Code.IsIdentifier target)
    {n : Utf8Length} {c : Codepoint} (hn : n.span.contains c = true) :
    ∃ a ∈ f.table.arms config var target, a.length = n ∧
      ∃ trace, Code.runText var (arm f a) c = some (.left, trace) ∧
        trace.assigned = [(target, f.table.fold c)] := by
  have hsink : (Sink.toVariable target).IsNamed := htarget
  have hcode : ((f.table.armTree config n).code (.toVariable target)).IsReadable :=
    Tree.isReadable_code hsink _
  have ha := f.table.mem_arms config var target n
  rcases f.table.runText_arm config hvar htarget ha c with ⟨trace, hrun, hassigned⟩
  rw [if_pos hn] at hassigned
  exact ⟨_, ha, rfl, trace, (runText_arm hf hvar hcode rfl c).trans hrun, hassigned⟩

end Artifact

end CaseFolding

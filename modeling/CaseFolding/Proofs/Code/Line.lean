import CaseFolding.Code.Printer
import CaseFolding.Proofs.Code.Token

namespace CaseFolding

/-! # What written lines say

Each line of printed code says, to the reader of code, the part of the code for
which it was printed. Names have to be words, and the variable and the targets
of assignments identifiers; nothing else could be taken for another part.
-/

open Token

/-! ## Numbers -/

/-- A constant as a token. -/
def Codepoint.token (c : Codepoint) : Token := ofWord (Codepoint.literal c)

theorem Codepoint.toList_literal (c : Codepoint) :
    (Codepoint.literal c).toList = '0' :: 'x' :: (Codepoint.hex c).toList := by
  simp [Codepoint.literal]

theorem Codepoint.ofString_literal (c : Codepoint) :
    ofString (Codepoint.literal c) = [Codepoint.token c] :=
  ((by decide : Code.IsName "0x").append (Code.isName_hex c)).ofString

namespace Code.Reader

theorem constant?_token (c : Codepoint) : constant? (Codepoint.token c) = some c := by
  rw [Codepoint.token, ofWord, Codepoint.toList_literal, constant?, Codepoint.read_hex]
  rfl

theorem decimal?_toString (n : Nat) : decimal? (ofWord (toString n)) = some n := by
  have htext : (toString n).toList = Nat.toDigits 10 n := by simp
  have hdigits : ∀ ch ∈ Nat.toDigits 10 n, ch.isDigit = true := by
    intro ch hch
    exact Nat.isDigit_of_mem_toDigits (by decide) (by decide) hch
  rw [ofWord, htext, decimal?, if_pos ⟨Nat.toDigits_ne_nil, List.all_eq_true.mpr hdigits⟩,
    Nat.ofDigitChars_ten_toDigits]

theorem name?_ofWord (s : String) : name? (ofWord s) = some s := by
  simp [ofWord, name?]

theorem token_ne_identifier {s : String} (h : IsIdentifier s) (c : Codepoint) :
    Codepoint.token c ≠ ofWord s := by
  intro heq
  have hlist : s.toList = '0' :: 'x' :: (Codepoint.hex c).toList := by
    rw [← Codepoint.toList_literal]
    exact (Token.word.inj heq).symm
  have hhead := h.head '0' (by simp [hlist])
  exact absurd hhead (by decide)

end Code.Reader

/-! ## Expressions -/

namespace Value

/-- An expression that names no lookup table but by a name. -/
def IsReadable : Value → Prop
  | entry table _ => Code.IsName table
  | _ => True

/-- The tokens of an expression over a variable. -/
def tokens (var : Token) : Value → List Token
  | constant v => [Codepoint.token v]
  | same => [var]
  | plus n => [var, .mark '+', ofWord (toString n)]
  | minus n => [var, .mark '-', ofWord (toString n)]
  | setBit => [var, .mark '|', ofWord "1"]
  | entry table base =>
    [ofWord table, .mark '[', var, .mark '-', Codepoint.token base, .mark ']']

variable {var : String}

/-- The tokens of a printed expression. -/
theorem ofString_text (hvar : Code.IsName var) {v : Value} (hv : v.IsReadable) :
    ofString (v.text var) = v.tokens (ofWord var) := by
  cases v with
  | constant c => exact Codepoint.ofString_literal c
  | same => exact hvar.ofString
  | plus n =>
    rw [text, ofString_seam (by decide), hvar.ofString, (Code.isName_toString n).ofString]
    rfl
  | minus n =>
    rw [text, ofString_seam (by decide), hvar.ofString, (Code.isName_toString n).ofString]
    rfl
  | setBit =>
    rw [text, ofString_append_right (by decide), hvar.ofString]
    rfl
  | entry table base =>
    rw [text, ofString_append_right (by decide), ofString_seam (by decide),
      ofString_seam (by decide), hvar.ofString, Code.IsName.ofString hv,
      Codepoint.ofString_literal]
    rfl

theorem exists_word (var : String) (v : Value) :
    ∃ w ts, v.tokens (ofWord var) = .word w :: ts := by
  cases v <;> exact ⟨_, _, rfl⟩

/-- An expression is read back. -/
theorem value?_tokens (hvar : Code.IsIdentifier var) (v : Value) :
    Code.Reader.value? (ofWord var) (v.tokens (ofWord var)) = some v := by
  cases v with
  | constant c =>
    rw [tokens, Code.Reader.value?, if_neg (Code.Reader.token_ne_identifier hvar c),
      Code.Reader.constant?_token]
    rfl
  | same => simp [tokens, Code.Reader.value?]
  | plus n =>
    rw [tokens, Code.Reader.value?, if_pos rfl, Code.Reader.decimal?_toString]
    rfl
  | minus n =>
    rw [tokens, Code.Reader.value?, if_pos rfl, Code.Reader.decimal?_toString]
    rfl
  | setBit => simp [tokens, Code.Reader.value?]
  | entry table base =>
    simp [tokens, Code.Reader.value?, Code.Reader.name?_ofWord, Code.Reader.constant?_token]

end Value

/-! ## Conditions -/

namespace Test

/-- The tokens of a comparison of a variable. -/
def tokens (var : Token) (t : Test) : List Token :=
  var :: (marks t.relation.text ++ [Codepoint.token t.bound])

variable {var : String}

/-- The tokens of a printed comparison. -/
theorem ofString_text (hvar : Code.IsName var) (t : Test) :
    ofString (t.text var) = t.tokens (ofWord var) := by
  have hrelation : startsWord t.relation.text.toList = false ∧
      ofString t.relation.text = marks t.relation.text := by
    cases t.relation <;> exact ⟨rfl, rfl⟩
  have hblank : ofString " " = [] := rfl
  rw [text, ofString_seam (by decide), ofString_append_right hrelation.1,
    ofString_append_right (by decide), hvar.ofString, hrelation.2, Codepoint.ofString_literal,
    hblank]
  simp [tokens]

theorem test?_tokens (var : Token) (t : Test) :
    Code.Reader.test? var (t.tokens var) = some t := by
  rcases t with ⟨relation, bound⟩
  cases relation <;>
    simp [tokens, marks, Relation.text, Code.Reader.test?, Code.Reader.constant?_token]

theorem not_mem_tokens {var : Token} (hvar : var ≠ .mark '&') (t : Test) :
    .mark '&' ∉ t.tokens var := by
  rcases t with ⟨relation, bound⟩
  cases relation <;>
    simp [tokens, marks, Relation.text, Codepoint.token, ofWord, hvar.symm]

end Test

/-! ## Conditions of several comparisons -/

namespace Code.Reader

/-- Tokens without `&` are one clause. -/
theorem clauses_of_not_mem {ts : List Token} (h : .mark '&' ∉ ts) : clauses ts = [ts] := by
  induction ts with
  | nil => rfl
  | cons t ts ih =>
    rw [List.mem_cons, not_or] at h
    rw [clauses, ih h.2]
    intro ts' ht
    exact absurd ht.symm h.1

/-- A clause ends at `&&`. -/
theorem clauses_append {ts : List Token} (h : .mark '&' ∉ ts) (us : List Token) :
    clauses (ts ++ .mark '&' :: .mark '&' :: us) = ts :: clauses us := by
  induction ts with
  | nil => rw [List.nil_append, clauses]
  | cons t ts ih =>
    rw [List.mem_cons, not_or] at h
    rw [List.cons_append, clauses, ih h.2]
    intro ts' ht
    exact absurd ht.symm h.1

/-- The clauses that `&&` joins are found again. -/
theorem clauses_intercalate {tss : List (List Token)} (hne : tss ≠ [])
    (h : ∀ ts ∈ tss, .mark '&' ∉ ts) :
    clauses ([.mark '&', .mark '&'].intercalate tss) = tss := by
  induction tss with
  | nil => exact absurd rfl hne
  | cons ts tss ih =>
    have hts := h ts (by simp)
    cases tss with
    | nil => rw [List.intercalate_singleton, clauses_of_not_mem hts]
    | cons ts' tss =>
      rw [List.intercalate_cons_cons, List.append_assoc]
      have hrest := ih (by simp) fun us hus => h us (by simp [hus])
      exact (clauses_append hts _).trans (congrArg (ts :: ·) hrest)

theorem mapM_eq_some {α β : Type} {f : α → Option β} {g : α → β} {as : List α}
    (h : ∀ a ∈ as, f a = some (g a)) : as.mapM f = some (as.map g) := by
  induction as with
  | nil => rfl
  | cons a as ih =>
    rw [List.mapM_cons, h a (by simp), ih fun b hb => h b (by simp [hb])]
    rfl

theorem before?_append (ts ending : List Token) : before? ending (ts ++ ending) = some ts := by
  rw [before?, if_pos (List.suffix_append ts ending)]
  simp

theorem ofWord_ne_mark (s : String) (ch : Char) : ofWord s ≠ .mark ch :=
  Token.noConfusion

/-- A line whose first word is followed by neither a colon nor a comma is told by that word. -/
theorem piece?_word (var : Token) (s : String) {t : Token} (more : List Token)
    (hcolon : t ≠ .mark ':') (hcomma : t ≠ .mark ',') :
    piece? var (ofWord s :: t :: more) = statement? var (ofWord s) (t :: more) := by
  rw [ofWord]
  unfold piece?
  split <;> simp_all

end Code.Reader

/-! ## Lines -/

theorem ofString_indented (depth : Nat) (line : String) :
    ofString (indented depth line) = ofString line := by
  rw [indented, indentation, ofString, String.toList_append, String.toList_ofList]
  induction depth with
  | zero => rfl
  | succ depth ih =>
    rw [List.replicate_succ, List.cons_append, ofChars, push_blank (by decide), ih]

namespace Code.Reader

variable {var : String}

theorem piece?_label {l : String} (hl : IsName l) :
    piece? (ofWord var) (ofString (l ++ ":")) = some (.stmt (.label l)) := by
  have htokens : ofString (l ++ ":") = [ofWord l, .mark ':'] := by
    rw [ofString_append_right (by decide), hl.ofString]
    rfl
  rw [htokens]
  exact congrArg (Option.map fun l => Piece.stmt (.label l)) (name?_ofWord l)

theorem piece?_goto {l : String} (hl : IsName l) :
    piece? (ofWord var) (ofString ("goto " ++ l ++ ";")) = some (.stmt (.goto l)) := by
  have htokens : ofString ("goto " ++ l ++ ";") = [ofWord "goto", ofWord l, .mark ';'] := by
    rw [ofString_append_right (by decide), ofString_append_left (by decide), hl.ofString]
    rfl
  rw [htokens, piece?_word _ _ _ (ofWord_ne_mark l _) (ofWord_ne_mark l _), statement?, if_pos rfl]
  exact congrArg (Option.map fun l => Piece.stmt (.goto l)) (name?_ofWord l)

/-- A result for the caller. -/
theorem piece?_return (hvar : IsIdentifier var) {v : Value} (hv : v.IsReadable) :
    piece? (ofWord var) (ofString (returnText (v.text var))) = some (.stmt (.ret v)) := by
  have htokens : ofString (returnText (v.text var)) =
      ofWord "return" :: (v.tokens (ofWord var) ++ marks ";") := by
    rw [returnText, ofString_append_right (by decide), ofString_append_left (by decide),
      Value.ofString_text hvar.isName hv]
    rfl
  rcases v.exists_word var with ⟨w, ts, hword⟩
  have hpiece : piece? (ofWord var) (ofWord "return" :: (v.tokens (ofWord var) ++ marks ";")) =
      statement? (ofWord var) (ofWord "return") (v.tokens (ofWord var) ++ marks ";") := by
    rw [hword]
    exact piece?_word _ _ _ Token.noConfusion Token.noConfusion
  rw [htokens, hpiece]
  unfold statement?
  rw [if_neg (by decide), if_neg (by decide), if_pos rfl, before?_append]
  simp only [Value.value?_tokens hvar, Option.bind_eq_bind, Option.bind_some, Option.pure_def]

theorem ofWord_ne_of_mem_keywords {s keyword : String} (h : IsIdentifier s)
    (hkeyword : keyword ∈ keywords) : ofWord s ≠ ofWord keyword := by
  intro heq
  have hs : s = keyword := String.toList_inj.mp (Token.word.inj heq)
  exact h.notKeyword (hs ▸ hkeyword)

/-- A result in a variable. -/
theorem piece?_assign (hvar : IsIdentifier var) {target : String} (htarget : IsIdentifier target)
    {v : Value} (hv : v.IsReadable) :
    piece? (ofWord var) (ofString (assignText target (v.text var))) =
      some (.stmt (.assign target v)) := by
  have htokens : ofString (assignText target (v.text var)) =
      ofWord target :: .mark '=' :: (v.tokens (ofWord var) ++ marks ";") := by
    rw [assignText, ofString_append_right (by decide), ofString_seam (by decide),
      Value.ofString_text hvar.isName hv, htarget.isName.ofString]
    rfl
  have hword : ∀ keyword ∈ keywords, ofWord target ≠ ofWord keyword :=
    fun keyword hkeyword => ofWord_ne_of_mem_keywords htarget hkeyword
  rw [htokens, piece?_word _ _ _ (by decide) (by decide)]
  unfold statement?
  rw [if_neg (hword "goto" (by decide)), if_neg (hword "break" (by decide)),
    if_neg (hword "return" (by decide)), if_neg (hword "if" (by decide)),
    if_neg (hword "static" (by decide))]
  simp only [name?_ofWord, before?_append, Value.value?_tokens hvar, Option.bind_eq_bind,
    Option.bind_some, Option.pure_def]

theorem piece?_leave : piece? (ofWord var) (ofString leaveText) = some (.stmt .leave) := by
  have htokens : ofString leaveText = [ofWord "break", .mark ';'] := rfl
  rw [htokens, piece?_word _ _ _ (by decide) (by decide)]
  rfl

/-- The head of a guarded block. -/
theorem piece?_guard (hvar : IsIdentifier var) {tests : List Test} (hne : tests ≠ []) :
    piece? (ofWord var) (ofString (guardText var tests)) = some (.openBlock tests) := by
  let clause : Test → List Token := fun t => t.tokens (ofWord var)
  have htokens : ofString (guardText var tests) = ofWord "if" :: .mark '(' ::
      ([.mark '&', .mark '&'].intercalate (tests.map clause) ++ marks ")\x7b") := by
    have hmap : (tests.map (Test.text var)).map ofString = tests.map clause := by
      rw [List.map_map]
      exact List.map_congr_left fun t _ => Test.ofString_text hvar.isName t
    rw [guardText, ofString_append_right (by decide), ofString_append_left (by decide),
      ofString_intercalate (by decide), hmap]
    rfl
  have hclauses : clauses ([.mark '&', .mark '&'].intercalate (tests.map clause)) =
      tests.map clause := by
    apply clauses_intercalate
    · simpa using hne
    · intro ts hts
      rcases List.mem_map.mp hts with ⟨t, -, rfl⟩
      exact Test.not_mem_tokens (ofWord_ne_mark var '&') t
  have htests : (tests.map clause).mapM (test? (ofWord var)) = some tests := by
    rw [List.mapM_map]
    exact (mapM_eq_some fun t _ => Test.test?_tokens (ofWord var) t).trans (by simp)
  rw [htokens, piece?_word _ _ _ (by decide) (by decide)]
  unfold statement?
  rw [if_neg (by decide), if_neg (by decide), if_neg (by decide), if_pos rfl]
  simp only [before?_append, hclauses, htests, Option.bind_eq_bind, Option.bind_some,
    Option.pure_def]

theorem piece?_close : piece? (ofWord var) (ofString "\x7d") = some .closeBlock := rfl

/-- The head of a lookup table. -/
theorem piece?_openTable {name : String} (hname : IsName name) (element : Element) :
    piece? (ofWord var)
      (ofString ("static const " ++ element.text ++ " " ++ name ++ "[] = \x7b")) =
      some (.openTable name element) := by
  have helement : ofString ("static const " ++ element.text) =
      [ofWord "static", ofWord "const", ofWord element.text] := by
    cases element <;> rfl
  have htokens : ofString ("static const " ++ element.text ++ " " ++ name ++ "[] = \x7b") =
      ofWord "static" :: ofWord "const" :: ofWord element.text :: ofWord name ::
        marks "[]=\x7b" := by
    rw [ofString_append_right (by decide), ofString_seam (by decide), helement, hname.ofString]
    rfl
  have hread : element? (ofWord element.text) = some element := by
    cases element <;> decide
  rw [htokens, piece?_word _ _ _ (by decide) (by decide)]
  unfold statement?
  rw [if_neg (by decide), if_neg (by decide), if_neg (by decide), if_neg (by decide), if_pos rfl]
  simp only [hread, name?_ofWord, true_and, if_true]
  rfl

/-- The tokens of a row of elements. -/
def rowTokens (row : List Codepoint) : List Token :=
  row.flatMap fun v => [Codepoint.token v, .mark ',']

/-- A row of elements is read back. -/
theorem row?_rowTokens (row : List Codepoint) : row? (rowTokens row) = some row := by
  induction row with
  | nil => rfl
  | cons v row ih =>
    rw [rowTokens, List.flatMap_cons, ← rowTokens]
    simp only [List.cons_append, List.nil_append, row?, constant?_token, ih]
    rfl

/-- The tokens of a printed row. -/
theorem ofString_rowText (row : List Codepoint) : ofString (rowText row) = rowTokens row := by
  have hentry : ∀ v : Codepoint,
      ofString (Codepoint.literal v ++ ",") = [Codepoint.token v, .mark ','] := by
    intro v
    rw [ofString_append_right (by decide), Codepoint.ofString_literal]
    rfl
  have hblank : ofString " " = [] := rfl
  rw [rowText, ofString_intercalate (by decide), hblank, List.map_map]
  simp only [Function.comp_def, hentry]
  -- nothing is put between the entries
  induction row with
  | nil => rfl
  | cons v row ih =>
    cases row with
    | nil => rfl
    | cons v' row =>
      rw [List.map_cons, List.map_cons, List.intercalate_cons_cons]
      exact congrArg ([Codepoint.token v, .mark ','] ++ ·) ih

theorem piece?_row {row : List Codepoint} (hne : row ≠ []) :
    piece? (ofWord var) (ofString (rowText row)) = some (.row row) := by
  rw [ofString_rowText]
  cases row with
  | nil => exact absurd rfl hne
  | cons v row => exact congrArg (Option.map Piece.row) (row?_rowTokens (v :: row))

theorem piece?_closeTable : piece? (ofWord var) (ofString "\x7d;") = some .closeTable := rfl

end Code.Reader

end CaseFolding

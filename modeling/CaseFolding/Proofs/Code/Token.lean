import CaseFolding.Code.Reader
import CaseFolding.Proofs.Text.Hex

namespace CaseFolding

/-! # Words and marks of a text

The words and marks of two texts side by side are those of the one and then
those of the other, unless a word runs across the seam. So the tokens of a line
are found part by part.
-/

namespace Token

/-! ## Characters -/

/-- No character of a word is blank. -/
theorem not_isBlank_of_isWordChar {ch : Char} (h : isWordChar ch = true) :
    ¬ Text.isBlank ch = true := by
  have hrange : 0x30 ≤ ch.toNat ∧ ch.toNat ≤ 0x7A := by
    -- letters, digits and the underscore, as they are ranges of numbers
    change ((((decide ('A'.val ≤ ch.val ∧ ch.val ≤ 'Z'.val)) ||
      (decide ('a'.val ≤ ch.val) && decide (ch.val ≤ 'z'.val))) ||
      (decide ('0'.val ≤ ch.val) && decide (ch.val ≤ '9'.val))) || ch == '_') = true at h
    simp only [Bool.or_eq_true, Bool.and_eq_true, decide_eq_true_eq, beq_iff_eq,
      UInt32.le_iff_toNat_le] at h
    change 0x30 ≤ ch.val.toNat ∧ ch.val.toNat ≤ 0x7A
    rcases h with ((⟨h₁, h₂⟩ | ⟨h₁, h₂⟩) | ⟨h₁, h₂⟩) | rfl
    · exact ⟨Nat.le_trans (by decide) h₁, Nat.le_trans h₂ (by decide)⟩
    · exact ⟨Nat.le_trans (by decide) h₁, Nat.le_trans h₂ (by decide)⟩
    · exact ⟨Nat.le_trans (by decide) h₁, Nat.le_trans h₂ (by decide)⟩
    · decide
  simp only [Text.isBlank, Bool.or_eq_true, Bool.and_eq_true, decide_eq_true_eq, beq_iff_eq]
  omega

/-! ## Single steps -/

theorem push_blank {ch : Char} (h : Text.isBlank ch = true) (adjacent : Bool) (ts : List Token) :
    push ch adjacent ts = ts := by
  unfold push
  exact if_pos h

theorem push_mark {ch : Char} (hblank : ¬ Text.isBlank ch = true) (hword : ¬ isWordChar ch = true)
    (adjacent : Bool) (ts : List Token) : push ch adjacent ts = mark ch :: ts := by
  unfold push
  rw [if_neg hblank, if_neg hword]

theorem push_start {ch : Char} (h : isWordChar ch = true) (ts : List Token) :
    push ch false ts = word [ch] :: ts := by
  unfold push
  rw [if_neg (not_isBlank_of_isWordChar h), if_pos h]

theorem push_continue {ch : Char} (h : isWordChar ch = true) (cs : List Char) (ts : List Token) :
    push ch true (word cs :: ts) = word (ch :: cs) :: ts := by
  unfold push
  rw [if_neg (not_isBlank_of_isWordChar h), if_pos h]

/-- Whether a text starts in the middle of a word, if a word comes before it. -/
def startsWord (cs : List Char) : Bool := cs.head?.any isWordChar

/-- Whether a text stops in the middle of a word, if a word comes after it. -/
def endsWord (cs : List Char) : Bool := cs.getLast?.any isWordChar

/-- A text that starts with a character of a word has a word as its first token. -/
theorem exists_word_of_startsWord {cs : List Char} (h : startsWord cs = true) :
    ∃ w ts, ofChars cs = word w :: ts := by
  induction cs with
  | nil => simp [startsWord] at h
  | cons ch cs ih =>
    have hch : isWordChar ch = true := by simpa [startsWord] using h
    rw [ofChars]
    cases hnext : cs.head?.any isWordChar with
    | false => exact ⟨[ch], ofChars cs, push_start hch _⟩
    | true =>
      rcases ih hnext with ⟨w, ts, hcs⟩
      exact ⟨ch :: w, ts, by rw [hcs, push_continue hch]⟩

/-! ## Texts side by side -/

/-- Tokens are found part by part where no word runs across the seam. -/
theorem ofChars_append {xs ys : List Char} (h : endsWord xs = false ∨ startsWord ys = false) :
    ofChars (xs ++ ys) = ofChars xs ++ ofChars ys := by
  induction xs with
  | nil => rfl
  | cons ch xs ih =>
    rw [List.cons_append, ofChars, ofChars]
    by_cases hblank : Text.isBlank ch = true
    · rw [push_blank hblank, push_blank hblank]
      cases xs with
      | nil => rfl
      | cons ch' xs => exact ih (by simpa [endsWord] using h)
    · by_cases hword : isWordChar ch = true
      · cases xs with
        | nil =>
          -- the seam is right behind `ch`, and `ch` belongs to a word
          have hys : ys.head?.any isWordChar = false := by
            rcases h with h | h
            · simp [endsWord, hword] at h
            · exact h
          rw [List.nil_append, hys, push_start hword]
          exact congrArg (· ++ ofChars ys) (push_start hword []).symm
        | cons ch' xs =>
          have hrest := ih (by simpa [endsWord] using h)
          have hhead : (ch' :: xs ++ ys).head? = (ch' :: xs).head? := rfl
          rw [hrest, hhead]
          cases hnext : (ch' :: xs).head?.any isWordChar with
          | false => rw [push_start hword, push_start hword]; rfl
          | true =>
            rcases exists_word_of_startsWord hnext with ⟨w, ts, hcs⟩
            rw [hcs, List.cons_append, push_continue hword, push_continue hword]
            rfl
      · have hrest : ofChars (xs ++ ys) = ofChars xs ++ ofChars ys := by
          cases xs with
          | nil => rfl
          | cons ch' xs => exact ih (by simpa [endsWord] using h)
        rw [push_mark hblank hword, push_mark hblank hword, hrest]
        rfl

theorem ofChars_word {w : List Char} (hne : w ≠ []) (h : ∀ ch ∈ w, isWordChar ch = true) :
    ofChars w = [word w] := by
  induction w with
  | nil => exact absurd rfl hne
  | cons ch w ih =>
    have hch := h ch (by simp)
    rw [ofChars]
    cases w with
    | nil => exact push_start hch []
    | cons ch' w =>
      have hnext : (ch' :: w).head?.any isWordChar = true := by simp [h ch' (by simp)]
      rw [ih (by simp) fun x hx => h x (by simp [hx]), hnext, push_continue hch]

/-! ## Strings -/

/-- The words and marks of a string. -/
def ofString (s : String) : List Token := ofChars s.toList

theorem ofString_append_left {s t : String} (h : endsWord s.toList = false) :
    ofString (s ++ t) = ofString s ++ ofString t := by
  rw [ofString, String.toList_append, ofChars_append (.inl h)]
  rfl

theorem ofString_append_right {s t : String} (h : startsWord t.toList = false) :
    ofString (s ++ t) = ofString s ++ ofString t := by
  rw [ofString, String.toList_append, ofChars_append (.inr h)]
  rfl

/-- A text with blanks or marks at both ends, which keeps its neighbours apart. -/
def IsSeam (s : String) : Prop :=
  s.toList ≠ [] ∧ startsWord s.toList = false ∧ endsWord s.toList = false

instance (s : String) : Decidable (IsSeam s) :=
  inferInstanceAs (Decidable (_ ∧ _))

/-- What comes before and after a seam is read for itself. -/
theorem ofString_seam {m : String} (h : IsSeam m) (s t : String) :
    ofString (s ++ m ++ t) = ofString s ++ ofString m ++ ofString t := by
  have hends : endsWord (s ++ m).toList = false := by
    rcases h with ⟨hne, _, hend⟩
    cases hlast : m.toList.getLast? with
    | none => exact absurd (List.getLast?_eq_none_iff.mp hlast) hne
    | some ch =>
      rw [endsWord, hlast] at hend
      rw [endsWord, String.toList_append, List.getLast?_append, hlast]
      exact hend
  rw [ofString_append_left hends, ofString_append_right h.2.1]

/-- Texts that a seam keeps apart are read one by one. -/
theorem ofString_intercalate {m : String} (h : IsSeam m) (ls : List String) :
    ofString (m.intercalate ls) = (ofString m).intercalate (ls.map ofString) := by
  induction ls with
  | nil => rfl
  | cons l ls ih =>
    cases ls with
    | nil => simp
    | cons l' ls =>
      rw [String.intercalate_cons_cons, ofString_seam h, ih, List.map_cons, List.map_cons,
        List.map_cons, List.intercalate_cons_cons]

end Token

/-! ## Names -/

namespace Code

/-- A name is a word. -/
def IsName (s : String) : Prop :=
  s.toList ≠ [] ∧ ∀ ch ∈ s.toList, Token.isWordChar ch = true

theorem IsName.ofString {s : String} (h : IsName s) : Token.ofString s = [Token.ofWord s] :=
  Token.ofChars_word h.1 h.2

/-- Names side by side are a name. -/
theorem IsName.append {s t : String} (hs : IsName s) (ht : IsName t) : IsName (s ++ t) := by
  refine ⟨by simp [hs.1], ?_⟩
  intro ch hch
  rw [String.toList_append, List.mem_append] at hch
  rcases hch with hch | hch
  · exact hs.2 ch hch
  · exact ht.2 ch hch

theorem isName_hex (c : Codepoint) : IsName (Codepoint.hex c) := by
  refine ⟨by simp [Text.Hex.padded_ne_nil], ?_⟩
  intro ch hch
  rw [Codepoint.toList_hex] at hch
  rcases Text.Hex.exists_digit_of_mem_padded hch with ⟨d, hd, rfl⟩
  interval_cases d <;> decide

/-- The decimal form of a number is a name. -/
theorem isName_toString (n : Nat) : IsName (toString n) := by
  have htext : (toString n).toList = Nat.toDigits 10 n := by
    simp
  refine ⟨by rw [htext]; exact Nat.toDigits_ne_nil, ?_⟩
  intro ch hch
  rw [htext] at hch
  have hdigit := Nat.isDigit_of_mem_toDigits (by decide) (by decide) hch
  simp [Token.isWordChar, Char.isAlphanum, hdigit]

/-! ## Identifiers -/

/-- The words with which a statement starts. -/
def keywords : List String := ["break", "goto", "if", "return", "static"]

/-- A name that does not start with a digit and is no keyword. -/
structure IsIdentifier (s : String) : Prop where
  isName : IsName s
  head : ∀ ch ∈ s.toList.head?, ch.isDigit = false
  notKeyword : s ∉ keywords

-- Only the characters of the text are gone through, not all there are.
instance (s : String) : Decidable (IsName s) :=
  decidable_of_iff (s.toList ≠ [] ∧ s.toList.all Token.isWordChar = true)
    (and_congr_right fun _ => List.all_eq_true)

instance (s : String) : Decidable (IsIdentifier s) :=
  decidable_of_iff (IsName s ∧ s.toList.head?.toList.all (!·.isDigit) = true ∧ s ∉ keywords)
    ⟨fun h => ⟨h.1, by simpa using h.2.1, h.2.2⟩, fun h => ⟨h.1, by simpa using h.2, h.3⟩⟩

end Code

end CaseFolding

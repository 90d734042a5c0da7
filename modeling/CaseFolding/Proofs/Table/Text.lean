import CaseFolding.Proofs.Table.Row
import CaseFolding.Proofs.Text.Line
import Mathlib.Data.List.Induction

namespace CaseFolding

/-! # Tables of texts

The table of a text is what its rows say, one after the other, so that of several
rows for a codepoint the last one counts. No other line has a say in it.
-/

/-! ## The last entry -/

namespace Table

theorem ofList_concat (es : List Entry) (e : Entry) :
    ofList (es ++ [e]) = (ofList es).insert e.1 e.2 := by
  simp [ofList, insertAll]

section Last

variable {α : Type} {f : α → Option Entry} {as : List α} {a : α} {c v : Codepoint}

/-- Some element gives the entry of a codepoint, and none that follows gives another. -/
def IsLast (f : α → Option Entry) (as : List α) (c v : Codepoint) : Prop :=
  ∃ before a after, as = before ++ a :: after ∧ f a = some (c, v) ∧
    ∀ b ∈ after, ∀ w, f b ≠ some (c, w)

/-- The last element decides if it gives an entry for the codepoint, and those before it otherwise. -/
theorem isLast_concat : IsLast f (as ++ [a]) c v ↔
    f a = some (c, v) ∨ (∀ w, f a ≠ some (c, w)) ∧ IsLast f as c v := by
  constructor
  · rintro ⟨before, b, after, hsplit, hb, hafter⟩
    rcases after.eq_nil_or_concat with rfl | ⟨front, d, rfl⟩
    · rcases List.append_inj' hsplit rfl with ⟨-, hlast⟩
      rw [List.singleton_inj.mp hlast]
      exact .inl hb
    · have hsplit : as ++ [a] = (before ++ b :: front) ++ [d] := by simpa using hsplit
      rcases List.append_inj' hsplit rfl with ⟨hfront, hlast⟩
      rw [List.singleton_inj.mp hlast]
      refine .inr ⟨hafter d (by simp), before, b, front, hfront, hb, ?_⟩
      intro x hx
      exact hafter x (by simp [hx])
  · rintro (ha | ⟨ha, before, b, after, rfl, hb, hafter⟩)
    · exact ⟨as, a, [], rfl, ha, fun x hx => absurd hx List.not_mem_nil⟩
    · refine ⟨before, b, after ++ [a], by simp, hb, ?_⟩
      intro x hx
      rcases List.mem_append.mp hx with hx | hx
      · exact hafter x hx
      · rw [List.mem_singleton.mp hx]
        exact ha

/-- The entry of a codepoint is the last one that is given for it. -/
theorem get?_ofList_filterMap : (ofList (as.filterMap f)).get? c = some v ↔ IsLast f as c v := by
  induction as using List.reverseRecOn with
  | nil =>
    constructor
    · intro h
      exact absurd h nofun
    · rintro ⟨before, a, after, hsplit, -⟩
      exact absurd hsplit (by simp)
  | append_singleton as a ih =>
    rw [isLast_concat, ← ih, List.filterMap_append]
    cases ha : f a with
    | none =>
      rw [List.filterMap_cons_none ha, List.filterMap_nil, List.append_nil]
      constructor
      · intro h
        exact .inr ⟨fun _ => nofun, h⟩
      · rintro (h | ⟨-, h⟩)
        · exact absurd h nofun
        · exact h
    | some e =>
      rw [List.filterMap_cons_some ha, List.filterMap_nil, ofList_concat, get?_insert]
      split
      next hc =>
        constructor
        · intro h
          rw [← hc, ← Option.some.inj h]
          exact .inl rfl
        · rintro (h | ⟨h, -⟩)
          · rw [Option.some.inj h]
          · exact absurd (by rw [← hc]) (h e.2)
      next hc =>
        constructor
        · intro h
          refine .inr ⟨?_, h⟩
          intro w hw
          rw [Option.some.inj hw] at hc
          exact hc rfl
        · rintro (h | ⟨-, h⟩)
          · rw [Option.some.inj h] at hc
            exact absurd rfl hc
          · exact h

end Last

end Table

/-! ## What lines tell -/

/-- Lines tell entries: there is a row for each, in their order, and between these are lines whose
status is missing or neither common nor simple, and rows with a number that is too large. -/
inductive Row.Tells : List (List Char) → List Entry → Prop where
  | nil : Tells [] []
  | row {line : List Char} {ls : List (List Char)} {c v : Codepoint} {es : List Entry}
      (hrow : IsRow line c.toNat v.toNat) (hrest : Tells ls es) :
      Tells (line :: ls) ((c, v) :: es)
  | skipped {line : List Char} {ls : List (List Char)} {es : List Entry}
      (hstatus : ¬ HasSimple line) (hrest : Tells ls es) : Tells (line :: ls) es
  | large {line : List Char} {ls : List (List Char)} {n m : Nat} {es : List Entry}
      (hrow : IsRow line n m) (hlarge : UInt32.size ≤ n ∨ UInt32.size ≤ m)
      (hrest : Tells ls es) : Tells (line :: ls) es

namespace Row

variable {line : List Char} {ls : List (List Char)} {es : List Entry} {n m : Nat}

/-- Without a common or a simple status a line gives no entry. -/
theorem read?_eq_none_of_not_hasSimple (h : ¬ HasSimple line) : read? line = none := by
  cases hread : read? line with
  | none => rfl
  | some e => exact absurd (read?_eq_some_iff.mp hread).hasSimple h

/-- A number that is too large gives no entry, and does not pass for a smaller one. -/
theorem read?_eq_none_of_large (h : IsRow line n m) (hlarge : UInt32.size ≤ n ∨ UInt32.size ≤ m) :
    read? line = none := by
  cases hread : read? line with
  | none => rfl
  | some e =>
    rcases h.unique (read?_eq_some_iff.mp hread) with ⟨rfl, rfl⟩
    rcases hlarge with hlarge | hlarge
    · exact absurd e.1.toNat_lt (Nat.not_lt.mpr hlarge)
    · exact absurd e.2.toNat_lt (Nat.not_lt.mpr hlarge)

/-- What lines tell is what is read from them. -/
theorem Tells.filterMap_read? (h : Tells ls es) : ls.filterMap read? = es := by
  induction h with
  | nil => rfl
  | @row line ls c v es hrow _ ih =>
    have hread : read? line = some (c, v) := read?_eq_some_iff.mpr hrow
    rw [List.filterMap_cons_some hread, ih]
  | skipped hstatus _ ih =>
    rw [List.filterMap_cons_none (read?_eq_none_of_not_hasSimple hstatus), ih]
  | large hrow hlarge _ ih =>
    rw [List.filterMap_cons_none (read?_eq_none_of_large hrow hlarge), ih]

end Row

/-! ## Texts -/

namespace Table

/-- The table of a text is what its lines give, however the text is taken apart. -/
theorem ofText_eq_ofList {text : String} {ls : List (List Char)}
    (h : Text.IsLines ls text.toList) : ofText text = ofList (ls.filterMap Row.read?) := by
  have hempty : Row.read? [] = none := rfl
  rw [ofText, Text.filterMap_lines hempty Row.read?_append_return h]

/-- Every text is made of lines. If these tell entries, the table is that of the entries, later ones
taking the place of earlier ones. And whatever the lines are, an entry of the table is what the last
row for its codepoint says. -/
theorem text_is_read_row_by_row (text : String) :
    (∃ ls, Text.IsLines ls text.toList) ∧
    ∀ ls, Text.IsLines ls text.toList →
      (∀ es, Row.Tells ls es → ofText text = ofList es) ∧
      ∀ c v, (ofText text).get? c = some v ↔
        ∃ before line after, ls = before ++ line :: after ∧
          Row.IsRow line c.toNat v.toNat ∧
          ∀ l ∈ after, ∀ w : Codepoint, ¬ Row.IsRow l c.toNat w.toNat := by
  refine ⟨Text.exists_isLines text.toList, ?_⟩
  intro ls hls
  constructor
  · intro es hes
    rw [ofText_eq_ofList hls, hes.filterMap_read?]
  · intro c v
    rw [ofText_eq_ofList hls, get?_ofList_filterMap]
    simp only [IsLast, ne_eq, Row.read?_eq_some_iff]

/-- Lines of all sorts, with both kinds of ends and the last one without any: two rows for one
codepoint, a comment, a full folding, a number that is too large, and a carriage return that is a
blank. -/
theorem text_is_read_row_by_row_mixed :
    let text := "0041; C; 0061; # A\r\n# no; C; row\n00DF; F; 73 73; # s\n" ++
      "\t+41 ;S;\u00a000062 #;;\n100000042; C; 62\r\n 1e9E;C;+dF\r"
    let ls := ["0041; C; 0061; # A", "# no; C; row", "00DF; F; 73 73; # s",
      "\t+41 ;S;\u00a000062 #;;", "100000042; C; 62", " 1e9E;C;+dF\r"].map String.toList
    Text.IsLines ls text.toList ∧
      Row.Tells ls [(0x41, 0x61), (0x41, 0x62), (0x1E9E, 0xDF)] ∧
      ofText text = ofList [(0x41, 0x61), (0x41, 0x62), (0x1E9E, 0xDF)] ∧
      (ofText text).get? 0x41 = some 0x62 ∧
      ∃ before line after, ls = before ++ line :: after ∧ Row.IsRow line 0x41 0x62 ∧
        ∀ l ∈ after, ∀ w : Codepoint, ¬ Row.IsRow l 0x41 w.toNat := by
  intro text ls
  have hlines : Text.IsLines ls text.toList := by
    have htext : text.toList = "0041; C; 0061; # A".toList ++ '\r' :: '\n' ::
        ("# no; C; row".toList ++ '\n' :: ("00DF; F; 73 73; # s".toList ++ '\n' ::
          ("\t+41 ;S;\u00a000062 #;;".toList ++ '\n' ::
            ("100000042; C; 62".toList ++ '\r' :: '\n' :: " 1e9E;C;+dF\r".toList)))) := by
      decide
    rw [htext]
    exact .returnFeed (by decide) (.feed (by decide) (.feed (by decide) (.feed (by decide)
      (.returnFeed (by decide) (.last (by decide))))))
  have hrow : ∀ {line : List Char} {c v : Codepoint}, Row.read? line = some (c, v) →
      Row.IsRow line c.toNat v.toNat := fun h => Row.read?_eq_some_iff.mp h
  have hlarge : Row.IsRow "100000042; C; 62".toList 0x100000042 0x62 :=
    Row.isRow_iff.mpr ⟨"100000042".toList, ['C'], ['6', '2'], [], by decide,
      ⟨_, ⟨0, by decide⟩, .inl rfl⟩, rfl, ⟨_, ⟨0, by decide⟩, .inl rfl⟩⟩
  have htells : Row.Tells ls [(0x41, 0x61), (0x41, 0x62), (0x1E9E, 0xDF)] :=
    .row (hrow (by decide)) (.skipped (by decide) (.skipped (by decide)
      (.row (hrow (by decide)) (.large hlarge (.inl (by decide)) (.row (hrow (by decide)) .nil)))))
  rcases text_is_read_row_by_row text with ⟨-, hall⟩
  rcases hall ls hlines with ⟨htable, hlast⟩
  have heq := htable _ htells
  have hget : (ofText text).get? 0x41 = some 0x62 := by
    rw [heq]
    decide
  exact ⟨hlines, htells, heq, hget, (hlast 0x41 0x62).mp hget⟩

end Table

end CaseFolding

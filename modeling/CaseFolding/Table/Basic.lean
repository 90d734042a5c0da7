import CaseFolding.Fault

namespace CaseFolding

/-! # Fold tables

A table says which codepoints fold to something of their own; all others fold
to themselves. It is its list of entries in ascending order of the codepoint
and carries the proof of that order, so two tables with the same entries are
equal and no operation needs a well-formed argument.
-/

/-- A codepoint and what it folds to. -/
abbrev Entry := Codepoint × Codepoint

/-- A finite map from codepoints to codepoints. -/
@[ext]
structure Table where
  entries : List Entry
  ascending : entries.Pairwise fun a b => a.1 < b.1

namespace Table

/-! ## Making tables -/

/-- The table without entries. -/
def empty : Table := ⟨[], .nil⟩

/-- Puts an entry at its place among ascending entries, instead of one with the same codepoint. -/
def insertEntry (e : Entry) : List Entry → List Entry
  | [] => [e]
  | d :: ds =>
    if e.1 < d.1 then e :: d :: ds
    else if d.1 < e.1 then d :: insertEntry e ds
    else e :: ds

/-- Inserting brings in nothing but the new entry. -/
theorem mem_insertEntry {e x : Entry} {es : List Entry} :
    x ∈ insertEntry e es → x = e ∨ x ∈ es := by
  induction es with
  | nil => simp [insertEntry]
  | cons d ds ih =>
    unfold insertEntry
    split
    · simp
    · split
      · simp only [List.mem_cons]
        rintro (rfl | hx)
        · exact .inr (.inl rfl)
        · exact (ih hx).imp id .inr
      · simp only [List.mem_cons]
        exact fun hx => hx.imp id .inr

theorem ascending_insertEntry (e : Entry) {es : List Entry}
    (h : es.Pairwise fun a b => a.1 < b.1) :
    (insertEntry e es).Pairwise fun a b => a.1 < b.1 := by
  induction es with
  | nil => simp [insertEntry]
  | cons d ds ih =>
    obtain ⟨hd, hds⟩ := List.pairwise_cons.mp h
    unfold insertEntry
    split
    next hlt =>
      refine List.pairwise_cons.mpr ⟨fun x hx => ?_, h⟩
      rcases List.mem_cons.mp hx with rfl | hx
      · exact hlt
      · exact UInt32.lt_trans hlt (hd x hx)
    next hge =>
      split
      next hgt =>
        refine List.pairwise_cons.mpr ⟨fun x hx => ?_, ih hds⟩
        rcases mem_insertEntry hx with rfl | hx
        · exact hgt
        · exact hd x hx
      next hle =>
        have heq : e.1 = d.1 := by
          apply UInt32.le_antisymm
          · exact UInt32.not_lt.mp hle
          · exact UInt32.not_lt.mp hge
        exact List.pairwise_cons.mpr ⟨fun x hx => heq ▸ hd x hx, hds⟩

/-- Lets `c` fold to `target`, whatever it folded to before. -/
def insert (t : Table) (c target : Codepoint) : Table :=
  ⟨insertEntry (c, target) t.entries, ascending_insertEntry _ t.ascending⟩

/-- Inserts entries from left to right, so that the last one for a codepoint counts. -/
def insertAll (t : Table) (es : List Entry) : Table :=
  es.foldl (fun t e => t.insert e.1 e.2) t

/-- The table of a list of entries, the last one for a codepoint counting. -/
def ofList (es : List Entry) : Table :=
  empty.insertAll es

instance : DecidableEq Table := fun s t =>
  decidable_of_iff (s.entries = t.entries) ⟨Table.ext, fun h => h ▸ rfl⟩

/-! ## Asking tables -/

/-- The number of entries. -/
def size (t : Table) : Nat := t.entries.length

/-- The entry of `c`, if it has one. -/
def get? (t : Table) (c : Codepoint) : Option Codepoint :=
  (t.entries.find? (·.1 == c)).map (·.2)

/-- What `c` folds to: itself unless the table says otherwise. -/
def fold (t : Table) (c : Codepoint) : Codepoint :=
  (t.get? c).getD c

/-- Among ascending entries, the search for a codepoint finds the entry inserted for it, and for
any other what was there before. -/
theorem find?_insertEntry (e : Entry) (c : Codepoint) {es : List Entry}
    (h : es.Pairwise fun a b => a.1 < b.1) :
    (insertEntry e es).find? (·.1 == c) = if e.1 = c then some e else es.find? (·.1 == c) := by
  induction es with
  | nil => by_cases he : e.1 = c <;> simp [insertEntry, he]
  | cons d ds ih =>
    have ih := ih (List.pairwise_cons.mp h).2
    unfold insertEntry
    split
    next => by_cases he : e.1 = c <;> simp [he]
    next hge =>
      split
      next hgt =>
        by_cases hd : d.1 = c
        · have he : e.1 ≠ c := fun he => by
            rw [he, hd] at hgt
            exact UInt32.lt_irrefl _ hgt
          simp [hd, he]
        · simp only [List.find?_cons, ih, beq_eq_false_iff_ne.mpr hd]
      next hle =>
        have heq : e.1 = d.1 := UInt32.le_antisymm (UInt32.not_lt.mp hle) (UInt32.not_lt.mp hge)
        by_cases hd : d.1 = c <;> simp [heq, hd]

@[simp]
theorem get?_insert (t : Table) (c target d : Codepoint) :
    (t.insert c target).get? d = if c = d then some target else t.get? d := by
  simp only [get?, insert, find?_insertEntry _ _ t.ascending]
  split <;> rfl

/-- The entries whose codepoint lies in the span, in ascending order. -/
def within (t : Table) (s : Span) : List Entry :=
  t.entries.filter fun e => s.contains e.1

/-- Refuses a span whose bounds are out of order. A table without entries has nothing to look for
and takes any span. -/
def query (t : Table) (s : Span) : Except Fault (List Entry) :=
  if s.last < s.first ∧ t.entries ≠ [] then .error .invertedSpan else .ok (t.within s)

end Table

end CaseFolding

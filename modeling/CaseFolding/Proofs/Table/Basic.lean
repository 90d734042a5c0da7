import CaseFolding.Table.Basic

namespace CaseFolding.Table

/-! # Entries and folds

A codepoint folds to the target of its entry, and there is at most one of it.
A table of entries that ascend holds just these entries.
-/

variable {t : Table} {c v : Codepoint}

/-- In ascending order a codepoint has one entry. -/
theorem eq_of_ascending {es : List Entry} (h : es.Pairwise fun a b => a.1 < b.1) {a b : Entry}
    (ha : a ∈ es) (hb : b ∈ es) (hab : a.1 = b.1) : a = b := by
  induction es with
  | nil => exact absurd ha List.not_mem_nil
  | cons d ds ih =>
    rcases List.pairwise_cons.mp h with ⟨hd, hds⟩
    rcases List.mem_cons.mp ha with had | had <;> rcases List.mem_cons.mp hb with hbd | hbd
    · rw [had, hbd]
    · exact absurd (had ▸ hab ▸ hd b hbd) (UInt32.lt_irrefl _)
    · exact absurd (hbd ▸ hab ▸ hd a had) (UInt32.lt_irrefl _)
    · exact ih hds had hbd

theorem nodup_of_ascending {es : List Entry} (h : es.Pairwise fun a b => a.1 < b.1) : es.Nodup := by
  refine h.imp ?_
  rintro a b hab rfl
  exact UInt32.lt_irrefl _ hab

theorem eq_of_mem_iff {es ds : List Entry} (hes : es.Pairwise fun a b => a.1 < b.1)
    (hds : ds.Pairwise fun a b => a.1 < b.1) (h : ∀ e, e ∈ es ↔ e ∈ ds) : es = ds := by
  have hperm : es.Perm ds :=
    (List.perm_ext_iff_of_nodup (nodup_of_ascending hes) (nodup_of_ascending hds)).mpr h
  refine hperm.eq_of_pairwise ?_ hes hds
  intro a b _ _ hab hba
  exact absurd hba (UInt32.lt_asymm hab)

theorem get?_eq_some_iff : t.get? c = some v ↔ (c, v) ∈ t.entries := by
  rw [get?, Option.map_eq_some_iff]
  constructor
  · rintro ⟨e, he, rfl⟩
    have hfirst : e.1 = c := by simpa using List.find?_some he
    rw [← hfirst]
    exact List.mem_of_find?_eq_some he
  · intro hmem
    cases hfind : t.entries.find? (·.1 == c) with
    | none => exact absurd (List.find?_eq_none.mp hfind _ hmem) (by simp)
    | some e =>
      have hfirst : e.1 = c := by simpa using List.find?_some hfind
      have heq := eq_of_ascending t.ascending (List.mem_of_find?_eq_some hfind) hmem hfirst
      exact ⟨e, rfl, by rw [heq]⟩

theorem fold_of_mem (h : (c, v) ∈ t.entries) : t.fold c = v := by
  rw [fold, get?_eq_some_iff.mpr h]
  rfl

/-- What folds to something else has an entry that says so. -/
theorem mem_of_fold_ne (h : t.fold c ≠ c) : (c, t.fold c) ∈ t.entries := by
  cases hget : t.get? c with
  | none => exact absurd (by rw [fold, hget]; rfl) h
  | some v =>
    have hmem := get?_eq_some_iff.mp hget
    rw [fold_of_mem hmem]
    exact hmem

theorem query_eq_ok (t : Table) {s : Span} (hs : s.first ≤ s.last) :
    t.query s = .ok (t.within s) :=
  if_neg fun h => absurd h.1 (UInt32.not_lt.mpr hs)

/-! ## Ascending entries -/

/-- An entry above all others comes last. -/
theorem insertEntry_of_above {e : Entry} {es : List Entry} (h : ∀ d ∈ es, d.1 < e.1) :
    insertEntry e es = es ++ [e] := by
  induction es with
  | nil => rfl
  | cons d es ih =>
    rcases List.forall_mem_cons.mp h with ⟨hd, hes⟩
    have hge : ¬ e.1 < d.1 := UInt32.not_lt.mpr (UInt32.le_of_lt hd)
    rw [insertEntry, if_neg hge, if_pos hd, ih hes, List.cons_append]

/-- Entries that ascend from those of a table come behind them. -/
theorem entries_insertAll {es : List Entry}
    (h : (t.entries ++ es).Pairwise fun a b => a.1 < b.1) :
    (t.insertAll es).entries = t.entries ++ es := by
  induction es generalizing t with
  | nil => simp [insertAll]
  | cons e es ih =>
    have hlow : ∀ d ∈ t.entries, d.1 < e.1 :=
      fun d hd => (List.pairwise_append.mp h).2.2 d hd e (by simp)
    have hinsert : (t.insert e.1 e.2).entries = t.entries ++ [e] := insertEntry_of_above hlow
    have hrest : (t.entries ++ [e] ++ es).Pairwise fun a b => a.1 < b.1 := by
      rw [List.append_assoc, List.singleton_append]
      exact h
    have hstep : t.insertAll (e :: es) = (t.insert e.1 e.2).insertAll es := rfl
    rw [hstep, ih (hinsert ▸ hrest), hinsert, List.append_assoc, List.singleton_append]

theorem entries_ofList {es : List Entry} (h : es.Pairwise fun a b => a.1 < b.1) :
    (ofList es).entries = es :=
  entries_insertAll h

end CaseFolding.Table

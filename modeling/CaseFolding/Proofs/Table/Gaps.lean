import CaseFolding.Proofs.Interval.Scan
import CaseFolding.Table.Gaps

namespace CaseFolding.Table

/-! # What closing gaps does

Closing gaps adds entries for codepoints that are missing between others, each
with the value of the rule, and leaves the other entries alone. If it comes to
an end, the codepoints follow each other one by one.
-/

/-! ## Gaps -/

/-- A codepoint that lies between entries and has none itself. -/
structure IsMissing (t : Table) (c : Codepoint) : Prop where
  above : ∃ a ∈ t.entries, a.1 < c
  below : ∃ b ∈ t.entries, c < b.1
  absent : ∀ d ∈ t.entries, d.1 ≠ c

theorem toNat_add_one {a b : Codepoint} (h : a.toNat + 1 < b.toNat) :
    (a + 1).toNat = a.toNat + 1 := by
  have hb : b.toNat < UInt32.size := b.toNat_lt
  exact Interval.toNat_add_ofNat (k := 1) (by omega)

/-- The codepoints strictly between consecutive entries, in ascending order. -/
def gapsOf : List Entry → List Codepoint
  | a :: b :: es => Interval.strictlyBetween a.1 b.1 ++ gapsOf (b :: es)
  | _ => []

/-- The codepoints that are missing in a table, in ascending order. -/
def gaps (t : Table) : List Codepoint := gapsOf t.entries

section Missing

variable {es : List Entry} {e : Entry} {c : Codepoint} {t : Table}

/-- The first gap is the first codepoint that is missing. -/
theorem firstGap?_eq_head? (es : List Entry) : firstGap? es = (gapsOf es).head? := by
  induction es with
  | nil => rfl
  | cons a es ih =>
    cases es with
    | nil => rfl
    | cons b es =>
      rw [firstGap?, gapsOf]
      split
      next hgap => rw [Interval.strictlyBetween_cons hgap]; rfl
      next hnear =>
        rw [Interval.strictlyBetween_of_next (Nat.le_of_not_lt hnear)]
        exact ih

/-- What is missing lies above the first entry. -/
theorem lt_of_mem_gapsOf (h : (e :: es).Pairwise fun a b => a.1 < b.1)
    (hc : c ∈ gapsOf (e :: es)) : e.1 < c := by
  induction es generalizing e with
  | nil => exact absurd hc List.not_mem_nil
  | cons b es ih =>
    rcases List.pairwise_cons.mp h with ⟨he, hes⟩
    rcases List.mem_append.mp hc with hc | hc
    · exact (Interval.mem_strictlyBetween.mp hc).1
    · exact UInt32.lt_trans (he b List.mem_cons_self) (ih hes hc)

/-- The codepoints in question are those that are missing. -/
theorem mem_gapsOf (h : es.Pairwise fun a b => a.1 < b.1) :
    c ∈ gapsOf es ↔ (∃ a ∈ es, a.1 < c) ∧ (∃ b ∈ es, c < b.1) ∧ ∀ d ∈ es, d.1 ≠ c := by
  induction es with
  | nil => simp [gapsOf]
  | cons a es ih =>
    cases es with
    | nil =>
      constructor
      · intro hc
        exact absurd hc List.not_mem_nil
      · rintro ⟨⟨d, hd, hdc⟩, ⟨d', hd', hcd⟩, -⟩
        rw [List.mem_singleton.mp hd] at hdc
        rw [List.mem_singleton.mp hd'] at hcd
        exact absurd hdc (UInt32.lt_asymm hcd)
    | cons b es =>
      rcases List.pairwise_cons.mp h with ⟨ha, hes⟩
      have hab := ha b List.mem_cons_self
      have hlow : ∀ d ∈ b :: es, b.1 ≤ d.1 := by
        refine List.forall_mem_cons.mpr ⟨UInt32.le_refl _, ?_⟩
        intro d hd
        exact UInt32.le_of_lt ((List.pairwise_cons.mp hes).1 d hd)
      rw [gapsOf, List.mem_append, Interval.mem_strictlyBetween, ih hes]
      constructor
      · rintro (⟨hac, hcb⟩ | ⟨⟨x, hx, hxc⟩, ⟨y, hy, hcy⟩, habsent⟩)
        · refine ⟨⟨a, by simp, hac⟩, ⟨b, by simp, hcb⟩, ?_⟩
          refine List.forall_mem_cons.mpr ⟨UInt32.ne_of_lt hac, ?_⟩
          intro d hd
          exact (UInt32.ne_of_lt (UInt32.lt_of_lt_of_le hcb (hlow d hd))).symm
        · have hac := UInt32.lt_trans (ha x hx) hxc
          exact ⟨⟨a, by simp, hac⟩, ⟨y, List.mem_cons_of_mem a hy, hcy⟩,
            List.forall_mem_cons.mpr ⟨UInt32.ne_of_lt hac, habsent⟩⟩
      · rintro ⟨⟨x, hx, hxc⟩, ⟨y, hy, hcy⟩, habsent⟩
        by_cases hcb : c < b.1
        · -- nothing from the second entry on lies below
          refine .inl ⟨?_, hcb⟩
          rcases List.mem_cons.mp hx with rfl | hxes
          · exact hxc
          · exact absurd hcb (UInt32.lt_asymm (UInt32.lt_of_le_of_lt (hlow x hxes) hxc))
        · have hbc : b.1 < c :=
            UInt32.lt_of_le_of_ne (UInt32.not_lt.mp hcb) (habsent b (by simp))
          refine .inr ⟨⟨b, List.mem_cons_self, hbc⟩, ⟨y, ?_, hcy⟩,
            (List.forall_mem_cons.mp habsent).2⟩
          rcases List.mem_cons.mp hy with rfl | hyes
          · exact absurd hcy (UInt32.lt_asymm (UInt32.lt_trans hab hbc))
          · exact hyes

/-- The codepoints that are missing ascend. -/
theorem ascending_gapsOf (h : es.Pairwise fun a b => a.1 < b.1) : (gapsOf es).Pairwise (· < ·) := by
  induction es with
  | nil => exact .nil
  | cons a es ih =>
    cases es with
    | nil => exact .nil
    | cons b es =>
      rcases List.pairwise_cons.mp h with ⟨-, hes⟩
      refine List.pairwise_append.mpr ⟨Interval.ascending_strictlyBetween a.1 b.1, ih hes, ?_⟩
      intro c hc d hd
      exact UInt32.lt_trans (Interval.mem_strictlyBetween.mp hc).2 (lt_of_mem_gapsOf hes hd)

/-- A codepoint is listed if it is missing. -/
theorem mem_gaps_iff : c ∈ t.gaps ↔ t.IsMissing c := by
  rw [gaps, mem_gapsOf t.ascending]
  constructor
  · rintro ⟨habove, hbelow, habsent⟩
    exact ⟨habove, hbelow, habsent⟩
  · rintro ⟨habove, hbelow, habsent⟩
    exact ⟨habove, hbelow, habsent⟩

theorem isMissing_of_firstGap? (h : firstGap? t.entries = some c) : t.IsMissing c := by
  rw [firstGap?_eq_head?] at h
  exact mem_gaps_iff.mp (List.mem_of_head? h)

theorem not_isMissing_of_firstGap? (h : firstGap? t.entries = none) : ¬ t.IsMissing c := by
  rw [firstGap?_eq_head?, List.head?_eq_none_iff] at h
  rw [← mem_gaps_iff, gaps, h]
  exact List.not_mem_nil

end Missing

/-- Entries without a gap are the pairs of an interval. -/
theorem pairs_of_firstGap?_eq_none {e : Entry} {es : List Entry}
    (h : (e :: es).Pairwise fun a b => a.1 < b.1) (hgap : firstGap? (e :: es) = none) :
    (⟨e.1, (e :: es).map (·.2)⟩ : Interval).pairs = e :: es := by
  induction es generalizing e with
  | nil => exact Interval.pairs_cons e.1 e.2 []
  | cons d es ih =>
    rcases List.pairwise_cons.mp h with ⟨he, hrest⟩
    rw [firstGap?] at hgap
    split at hgap
    next => exact absurd hgap nofun
    next hnear =>
      have hlt := UInt32.lt_iff_toNat_lt.mp (he d (by simp))
      have hnext : e.1 + 1 = d.1 := (Interval.eq_add_ofNat (k := 1) (by omega)).symm
      rw [List.map_cons, Interval.pairs_cons, hnext, ih hrest hgap]

/-- Ascending codepoints go up by one each at least. -/
theorem length_le_of_ascending {e : Entry} {es : List Entry}
    (h : (e :: es).Pairwise fun a b => a.1 < b.1) :
    e.1.toNat + (e :: es).length ≤ UInt32.size := by
  induction es generalizing e with
  | nil => exact e.1.toNat_lt
  | cons d es ih =>
    rcases List.pairwise_cons.mp h with ⟨he, hrest⟩
    have hlt := UInt32.lt_iff_toNat_lt.mp (he d (by simp))
    have hlength := ih hrest
    simp only [List.length_cons] at hlength ⊢
    omega

/-- Ascending entries that are the pairs of an interval make it a valid one. -/
theorem isValid_of_ascending {e : Entry} {es : List Entry}
    (h : (e :: es).Pairwise fun a b => a.1 < b.1) :
    (⟨e.1, (e :: es).map (·.2)⟩ : Interval).IsValid := by
  have hlength := length_le_of_ascending h
  constructor
  · exact Nat.succ_pos _
  · rw [Interval.size, List.length_map]
    exact hlength

/-! ## Inserting what is missing -/

/-- An entry for a codepoint that had none comes on top of the others. -/
theorem perm_insertEntry {e : Entry} {es : List Entry} (h : ∀ d ∈ es, d.1 ≠ e.1) :
    (insertEntry e es).Perm (e :: es) := by
  induction es with
  | nil => exact .refl _
  | cons d es ih =>
    rcases List.forall_mem_cons.mp h with ⟨hd, hes⟩
    unfold insertEntry
    split
    next => exact .refl _
    next hge =>
      split
      next => exact ((ih hes).cons d).trans (.swap e d es)
      next hle =>
        have heq := UInt32.le_antisymm (UInt32.not_lt.mp hge) (UInt32.not_lt.mp hle)
        exact absurd heq hd

/-- What is missing after something missing was inserted has been missing before. -/
theorem IsMissing.of_insert {t : Table} {c d v : Codepoint} (hc : t.IsMissing c)
    (hd : (t.insert c v).IsMissing d) : t.IsMissing d := by
  have hperm : (t.insert c v).entries.Perm ((c, v) :: t.entries) := perm_insertEntry hc.absent
  rcases hd with ⟨⟨a, ha, had⟩, ⟨b, hb, hdb⟩, habsent⟩
  refine ⟨?_, ?_, ?_⟩
  · rcases List.mem_cons.mp (hperm.mem_iff.mp ha) with rfl | ha
    · rcases hc.above with ⟨a', ha', hac⟩
      exact ⟨a', ha', UInt32.lt_trans hac had⟩
    · exact ⟨a, ha, had⟩
  · rcases List.mem_cons.mp (hperm.mem_iff.mp hb) with rfl | hb
    · rcases hc.below with ⟨b', hb', hcb⟩
      exact ⟨b', hb', UInt32.lt_trans hdb hcb⟩
    · exact ⟨b, hb, hdb⟩
  · intro e he
    exact habsent e (hperm.mem_iff.mpr (List.mem_cons_of_mem _ he))

/-! ## Filling -/

/-- The first gap is filled again and again, which inserts these codepoints one after the other. -/
inductive Fills (rule : Codepoint → Codepoint) : Table → List Codepoint → Table → Prop
  /-- Nothing is inserted. -/
  | done {t : Table} : Fills rule t [] t
  /-- The first gap is filled, and then others. -/
  | fill {t filled : Table} {c : Codepoint} {cs : List Codepoint}
      (hgap : firstGap? t.entries = some c) (hrest : Fills rule (t.insert c (rule c)) cs filled) :
      Fills rule t (c :: cs) filled

/-- Closing gaps fills as many of them as it counts, and if it has a count, no gap is left. -/
theorem exists_fills_closeGapsWithin (rule : Codepoint → Codepoint) (budget : Nat) (t : Table) :
    ∃ added, Fills rule t added (closeGapsWithin rule budget t).2 ∧
      ∀ n, (closeGapsWithin rule budget t).1 = some n →
        added.length = n ∧ firstGap? (closeGapsWithin rule budget t).2.entries = none := by
  induction budget generalizing t with
  | zero =>
    refine ⟨[], .done, ?_⟩
    intro n hn
    rw [closeGapsWithin] at hn ⊢
    split at hn
    next hgap => exact ⟨Option.some.inj hn, hgap⟩
    next => exact absurd hn nofun
  | succ budget ih =>
    rw [closeGapsWithin]
    split
    next hgap =>
      refine ⟨[], .done, ?_⟩
      intro n hn
      exact ⟨Option.some.inj hn, hgap⟩
    next c hgap =>
      rcases ih (t.insert c (rule c)) with ⟨added, hfills, hcount⟩
      refine ⟨c :: added, .fill hgap hfills, ?_⟩
      intro n hn
      rcases Option.map_eq_some_iff.mp hn with ⟨m, hm, rfl⟩
      rcases hcount m hm with ⟨hlength, hnone⟩
      exact ⟨by rw [List.length_cons, hlength], hnone⟩

/-- Where closing gaps has a count, so many of them have been filled, and none is left. -/
theorem exists_fills_of_closeGaps {rule : Codepoint → Codepoint} {t closed : Table} {n : Nat}
    (h : t.closeGaps rule = (some n, closed)) :
    ∃ added, Fills rule t added closed ∧ added.length = n ∧ firstGap? closed.entries = none := by
  obtain ⟨added, hfills, hcount⟩ := exists_fills_closeGapsWithin rule patchLimit t
  have hwithin : closeGapsWithin rule patchLimit t = (some n, closed) := h
  rw [hwithin] at hfills hcount
  exact ⟨added, hfills, hcount n rfl⟩

/-! ## Closing -/

/-- What closing gaps leaves: the old entries, and for each added codepoint, which was missing, an
entry with the value of the rule. -/
structure IsClosing (rule : Codepoint → Codepoint) (t closed : Table)
    (added : List Codepoint) : Prop where
  entries : closed.entries.Perm (added.map (fun c => (c, rule c)) ++ t.entries)
  missing : ∀ c ∈ added, t.IsMissing c

section Closing

variable {rule : Codepoint → Codepoint} {t closed : Table} {c : Codepoint} {added : List Codepoint}

theorem IsClosing.refl (rule : Codepoint → Codepoint) (t : Table) : IsClosing rule t t [] :=
  ⟨.refl _, nofun⟩

/-- What is left after something missing has been inserted is left of the table without it. -/
theorem IsClosing.of_insert (hc : t.IsMissing c)
    (h : IsClosing rule (t.insert c (rule c)) closed added) :
    IsClosing rule t closed (c :: added) := by
  have hinsert : (t.insert c (rule c)).entries.Perm ((c, rule c) :: t.entries) :=
    perm_insertEntry hc.absent
  constructor
  · exact (h.entries.trans (hinsert.append_left _)).trans List.perm_middle
  · exact List.forall_mem_cons.mpr ⟨hc, fun d hd => hc.of_insert (h.missing d hd)⟩

/-- Filling gaps inserts what was missing from the start. -/
theorem Fills.isClosing (h : Fills rule t added closed) : IsClosing rule t closed added := by
  -- each insertion is made in a table that has the earlier ones
  induction h with
  | done => exact .refl rule _
  | fill hgap _ ih => exact ih.of_insert (isMissing_of_firstGap? hgap)

end Closing

end CaseFolding.Table

import CaseFolding.Proofs.Table.Basic
import CaseFolding.Proofs.Table.Gaps

namespace CaseFolding.Table

/-! # Gaps are closed from the lowest codepoint on

The first gap is the first of the codepoints that are missing, and when it is
filled, the others are still missing. So closing gaps works the list of them off:
it comes to an end if the list is short enough, and otherwise it stops there.
The table then has a run of codepoints without a gap from the lowest one of the
old table to its highest one.
-/

variable {es : List Entry} {e : Entry} {c : Codepoint} {t : Table}

/-! ## Filling the first gap -/

/-- When the first gap is filled, the other codepoints are still missing. -/
theorem gapsOf_insertEntry (h : es.Pairwise fun a b => a.1 < b.1) {cs : List Codepoint}
    (hgaps : gapsOf es = c :: cs) (v : Codepoint) : gapsOf (insertEntry (c, v) es) = cs := by
  induction es with
  | nil => exact absurd hgaps nofun
  | cons a es ih =>
    cases es with
    | nil => exact absurd hgaps nofun
    | cons b es =>
      rcases List.pairwise_cons.mp h with ⟨-, hes⟩
      have hac : a.1 < c := by
        refine lt_of_mem_gapsOf h ?_
        rw [hgaps]
        exact List.mem_cons_self
      rw [insertEntry, if_neg (UInt32.lt_asymm hac), if_pos hac]
      rw [gapsOf] at hgaps
      by_cases hgap : a.1.toNat + 1 < b.1.toNat
      · -- the gap is right behind the first entry
        rw [Interval.strictlyBetween_cons hgap, List.cons_append] at hgaps
        rcases List.cons.inj hgaps with ⟨hc, hcs⟩
        have hnext := toNat_add_one hgap
        rw [hc] at hnext hcs
        have hcb : c < b.1 := by
          rw [UInt32.lt_iff_toNat_lt]
          omega
        rw [insertEntry, if_pos hcb, gapsOf, gapsOf,
          Interval.strictlyBetween_of_next (Nat.le_of_eq hnext)]
        exact hcs
      · have hnear := Interval.strictlyBetween_of_next (Nat.le_of_not_lt hgap)
        rw [hnear, List.nil_append] at hgaps
        have hbc : b.1 < c := by
          refine lt_of_mem_gapsOf hes ?_
          rw [hgaps]
          exact List.mem_cons_self
        have ih := ih hes hgaps
        rw [insertEntry, if_neg (UInt32.lt_asymm hbc), if_pos hbc] at ih ⊢
        rw [gapsOf, hnear, List.nil_append]
        exact ih

/-! ## Closing -/

/-- Closing gaps fills those that its budget allows, the lowest ones first, and counts them if no
other one is left. -/
theorem closeGapsWithin_eq (rule : Codepoint → Codepoint) (budget : Nat) (t : Table) :
    closeGapsWithin rule budget t =
      (if t.gaps.length ≤ budget then some t.gaps.length else none,
        t.insertAll ((t.gaps.take budget).map fun c => (c, rule c))) := by
  have hfirst : firstGap? t.entries = t.gaps.head? := firstGap?_eq_head? t.entries
  induction budget generalizing t with
  | zero =>
    rw [closeGapsWithin, hfirst]
    cases hgaps : t.gaps with
    | nil => rfl
    | cons c cs => rfl
  | succ budget ih =>
    rw [closeGapsWithin, hfirst]
    cases hgaps : t.gaps with
    | nil => rfl
    | cons c cs =>
      have hrest : (t.insert c (rule c)).gaps = cs := gapsOf_insertEntry t.ascending hgaps (rule c)
      have ih := ih (t.insert c (rule c)) (firstGap?_eq_head? _)
      rw [hrest] at ih
      dsimp only [List.head?_cons]
      rw [ih, List.length_cons]
      simp only [Nat.add_le_add_iff_right]
      split <;> rfl

/-- Closing gaps comes to an end if no more codepoints are missing than may be inserted. -/
theorem closeGaps_eq (rule : Codepoint → Codepoint) (t : Table) :
    t.closeGaps rule =
      (if t.gaps.length ≤ patchLimit then some t.gaps.length else none,
        t.insertAll ((t.gaps.take patchLimit).map fun c => (c, rule c))) :=
  closeGapsWithin_eq rule patchLimit t

/-! ## The loop

Closing gaps looks for the first gap again after each insertion, and only then at
how many insertions have been made.
-/

/-- How the loop ends that has inserted so many entries and is left with a table: with a count, or
nothing if there were too many, and with the table that it leaves. -/
inductive ClosesTo (rule : Codepoint → Codepoint) :
    (inserted : Nat) → Table → Option Nat → Table → Prop
  /-- No gap is left. -/
  | closed {inserted : Nat} {t : Table} (hgap : firstGap? t.entries = none) :
      ClosesTo rule inserted t (some inserted) t
  /-- There is another gap, but no more may be inserted. -/
  | givenUp {t : Table} {c : Codepoint} (hgap : firstGap? t.entries = some c) :
      ClosesTo rule patchLimit t none t
  /-- The first gap is filled, and the loop goes on. -/
  | filled {inserted : Nat} {t closed : Table} {c : Codepoint} {count : Option Nat}
      (hgap : firstGap? t.entries = some c) (hlimit : inserted ≠ patchLimit)
      (hrest : ClosesTo rule (inserted + 1) (t.insert c (rule c)) count closed) :
      ClosesTo rule inserted t count closed

section Loop

variable {rule : Codepoint → Codepoint} {inserted budget : Nat} {count count' : Option Nat}
  {t closed closed' : Table}

/-- The loop ends in one way at most. -/
theorem ClosesTo.unique (h : ClosesTo rule inserted t count closed)
    (h' : ClosesTo rule inserted t count' closed') : count' = count ∧ closed' = closed := by
  induction h with
  | closed hgap =>
    cases h' with
    | closed => exact ⟨rfl, rfl⟩
    | givenUp hgap' => exact absurd (hgap.symm.trans hgap') nofun
    | filled hgap' => exact absurd (hgap.symm.trans hgap') nofun
  | givenUp hgap =>
    cases h' with
    | closed hgap' => exact absurd (hgap.symm.trans hgap') nofun
    | givenUp => exact ⟨rfl, rfl⟩
    | filled _ hlimit => exact absurd rfl hlimit
  | filled hgap hlimit _ ih =>
    cases h' with
    | closed hgap' => exact absurd (hgap.symm.trans hgap') nofun
    | givenUp => exact absurd rfl hlimit
    | filled hgap' _ hrest =>
      have hfirst := Option.some.inj (hgap.symm.trans hgap')
      rw [← hfirst] at hrest
      exact ih hrest

/-- The loop ends with what its budget of further insertions gives. -/
theorem closesTo_closeGapsWithin (rule : Codepoint → Codepoint) (t : Table)
    (hbudget : inserted + budget = patchLimit) :
    ClosesTo rule inserted t ((closeGapsWithin rule budget t).1.map (inserted + ·))
      (closeGapsWithin rule budget t).2 := by
  induction budget generalizing inserted t with
  | zero =>
    rw [closeGapsWithin]
    cases hgap : firstGap? t.entries with
    | none => exact .closed hgap
    | some c =>
      rw [Nat.add_zero] at hbudget
      rw [hbudget]
      exact .givenUp hgap
  | succ budget ih =>
    rw [closeGapsWithin]
    cases hgap : firstGap? t.entries with
    | none => exact .closed hgap
    | some c =>
      have hlimit : inserted ≠ patchLimit := by omega
      have hnext : inserted + 1 + budget = patchLimit := by omega
      have hrest := ih (t.insert c (rule c)) hnext
      refine .filled hgap hlimit ?_
      -- what the rest inserts is counted from one more on
      show ClosesTo rule (inserted + 1) _ (((closeGapsWithin rule budget _).1.map (· + 1)).map _) _
      rw [Option.map_map]
      have hcount : (inserted + ·) ∘ (· + 1) = (inserted + 1 + ·) := by
        funext n
        show inserted + (n + 1) = inserted + 1 + n
        omega
      rw [hcount]
      exact hrest

/-- The loop that starts with nothing inserted ends, and with what closing gaps gives. -/
theorem closesTo_iff :
    ClosesTo rule 0 t count closed ↔
      count = (t.closeGaps rule).1 ∧ closed = (t.closeGaps rule).2 := by
  have hends : ClosesTo rule 0 t (t.closeGaps rule).1 (t.closeGaps rule).2 := by
    have h := closesTo_closeGapsWithin rule t (Nat.zero_add patchLimit)
    have hcount : (fun n : Nat => 0 + n) = id := by
      funext n
      exact Nat.zero_add n
    rw [hcount, Option.map_id] at h
    exact h
  constructor
  · intro h
    exact hends.unique h
  · rintro ⟨rfl, rfl⟩
    exact hends

end Loop

/-! ## What is left -/

/-- A codepoint from the lowest one with an entry to the highest one. -/
structure IsCovered (t : Table) (c : Codepoint) : Prop where
  above : ∃ a ∈ t.entries, a.1 ≤ c
  below : ∃ b ∈ t.entries, c ≤ b.1

/-- No codepoint between two entries is left out. -/
def IsContiguous (t : Table) : Prop := ∀ c, t.IsCovered c → ∃ v, t.get? c = some v

section Left

variable {rule : Codepoint → Codepoint} {v : Codepoint}

theorem IsMissing.get?_eq (h : t.IsMissing c) : t.get? c = none := by
  cases hget : t.get? c with
  | none => rfl
  | some v => exact absurd rfl (h.absent _ (get?_eq_some_iff.mp hget))

theorem IsMissing.isCovered (h : t.IsMissing c) : t.IsCovered c := by
  rcases h.above with ⟨a, ha, hac⟩
  rcases h.below with ⟨b, hb, hcb⟩
  exact ⟨⟨a, ha, UInt32.le_of_lt hac⟩, ⟨b, hb, UInt32.le_of_lt hcb⟩⟩

/-- What is covered and has no entry is missing. -/
theorem IsCovered.isMissing (h : t.IsCovered c) (hget : t.get? c = none) : t.IsMissing c := by
  have habsent : ∀ d ∈ t.entries, d.1 ≠ c := by
    intro d hd hdc
    have hsome : t.get? c = some d.2 := get?_eq_some_iff.mpr (hdc ▸ hd)
    exact absurd (hget.symm.trans hsome) nofun
  rcases h.above with ⟨a, ha, hac⟩
  rcases h.below with ⟨b, hb, hcb⟩
  refine ⟨⟨a, ha, ?_⟩, ⟨b, hb, ?_⟩, habsent⟩
  · exact UInt32.lt_of_le_of_ne hac (habsent a ha)
  · exact UInt32.lt_of_le_of_ne hcb (habsent b hb).symm

theorem gaps_eq_nil (h : t.IsContiguous) : t.gaps = [] := by
  refine List.eq_nil_iff_forall_not_mem.mpr ?_
  intro c hc
  have hmissing := mem_gaps_iff.mp hc
  rcases h c hmissing.isCovered with ⟨v, hv⟩
  exact absurd (hmissing.get?_eq.symm.trans hv) nofun

/-- Closing gaps covers what was covered before, and nothing else. -/
theorem isCovered_closeGaps : (t.closeGaps rule).2.IsCovered c ↔ t.IsCovered c := by
  obtain ⟨added, hfills, -⟩ := exists_fills_closeGapsWithin rule patchLimit t
  have hclosing : IsClosing rule t (t.closeGaps rule).2 added := hfills.isClosing
  have hmem : ∀ e ∈ (t.closeGaps rule).2.entries, e ∈ t.entries ∨ t.IsMissing e.1 := by
    intro e he
    rcases List.mem_append.mp (hclosing.entries.mem_iff.mp he) with he | he
    · rcases List.mem_map.mp he with ⟨d, hd, rfl⟩
      exact .inr (hclosing.missing d hd)
    · exact .inl he
  have hold : ∀ e ∈ t.entries, e ∈ (t.closeGaps rule).2.entries :=
    fun e he => hclosing.entries.mem_iff.mpr (List.mem_append_right _ he)
  constructor
  · rintro ⟨⟨a, ha, hac⟩, ⟨b, hb, hcb⟩⟩
    constructor
    · rcases hmem a ha with ha | ha
      · exact ⟨a, ha, hac⟩
      · rcases ha.above with ⟨a', ha', hlt⟩
        exact ⟨a', ha', UInt32.le_of_lt (UInt32.lt_of_lt_of_le hlt hac)⟩
    · rcases hmem b hb with hb | hb
      · exact ⟨b, hb, hcb⟩
      · rcases hb.below with ⟨b', hb', hlt⟩
        exact ⟨b', hb', UInt32.le_of_lt (UInt32.lt_of_le_of_lt hcb hlt)⟩
  · rintro ⟨⟨a, ha, hac⟩, ⟨b, hb, hcb⟩⟩
    exact ⟨⟨a, hold a ha, hac⟩, ⟨b, hold b hb, hcb⟩⟩

/-- After entries of a rule have been inserted for some codepoints, these have its values, and all
others what they had. -/
theorem get?_insertAll_map (rule : Codepoint → Codepoint) (cs : List Codepoint) (t : Table)
    (d : Codepoint) :
    (t.insertAll (cs.map fun c => (c, rule c))).get? d =
      if d ∈ cs then some (rule d) else t.get? d := by
  induction cs generalizing t with
  | nil => rw [if_neg List.not_mem_nil]; rfl
  | cons c cs ih =>
    have hstep : t.insertAll ((c :: cs).map fun c => (c, rule c)) =
        (t.insert c (rule c)).insertAll (cs.map fun c => (c, rule c)) := rfl
    rw [hstep, ih, get?_insert]
    by_cases hd : d ∈ cs
    · rw [if_pos hd, if_pos (List.mem_cons_of_mem c hd)]
    · rw [if_neg hd]
      by_cases hcd : c = d
      · rw [if_pos hcd, if_pos (hcd ▸ List.mem_cons_self), hcd]
      · have hnot : d ∉ c :: cs := List.not_mem_cons_of_ne_of_not_mem (Ne.symm hcd) hd
        rw [if_neg hcd, if_neg hnot]

/-- After closing gaps, the lowest codepoints that were missing have the values of the rule. -/
theorem get?_closeGaps (rule : Codepoint → Codepoint) (t : Table) (c : Codepoint) :
    (t.closeGaps rule).2.get? c =
      if c ∈ t.gaps.take patchLimit then some (rule c) else t.get? c := by
  rw [closeGaps_eq]
  exact get?_insertAll_map rule _ t c

/-- What had an entry keeps it. -/
theorem get?_closeGaps_of_some (rule : Codepoint → Codepoint) (h : t.get? c = some v) :
    (t.closeGaps rule).2.get? c = some v := by
  have hnot : c ∉ t.gaps.take patchLimit := by
    intro hc
    have hmissing := mem_gaps_iff.mp (List.mem_of_mem_take hc)
    exact absurd (hmissing.get?_eq.symm.trans h) nofun
  rw [get?_closeGaps, if_neg hnot]
  exact h

/-- If no more codepoints are missing than may be inserted, no gap is left. -/
theorem isContiguous_closeGaps (rule : Codepoint → Codepoint) (h : t.gaps.length ≤ patchLimit) :
    (t.closeGaps rule).2.IsContiguous := by
  intro c hc
  have hcovered := isCovered_closeGaps.mp hc
  cases hget : t.get? c with
  | some v => exact ⟨v, get?_closeGaps_of_some rule hget⟩
  | none =>
    have hmem : c ∈ t.gaps.take patchLimit := by
      rw [List.take_of_length_le h]
      exact mem_gaps_iff.mpr (hcovered.isMissing hget)
    exact ⟨rule c, by rw [get?_closeGaps, if_pos hmem]⟩

end Left

/-- Closing gaps fills the codepoints that are missing, up to four of them and the lowest ones
first. It counts them if there are no more, and then the table has no gap and covers what it
covered before. Otherwise it has no count. What had an entry keeps it, and a table without a gap
stays as it is. -/
theorem gaps_are_closed_from_below (rule : Codepoint → Codepoint) (t : Table) :
    ∃ (missing : List Codepoint) (count : Option Nat) (closed : Table),
      missing.Pairwise (· < ·) ∧ (∀ c, c ∈ missing ↔ t.IsMissing c) ∧
      t.closeGaps rule = (count, closed) ∧
      (∀ count' closed', ClosesTo rule 0 t count' closed' ↔ count' = count ∧ closed' = closed) ∧
      (∀ n, count = some n ↔ n = missing.length ∧ missing.length ≤ 4) ∧
      (missing.length ≤ 4 →
        (∀ c, closed.get? c = if c ∈ missing then some (rule c) else t.get? c) ∧
        closed.IsContiguous ∧ ∀ c, closed.IsCovered c ↔ t.IsCovered c) ∧
      (4 < missing.length →
        count = none ∧
        ∀ c, closed.get? c = if c ∈ missing.take 4 then some (rule c) else t.get? c) ∧
      (∀ c v, t.get? c = some v → closed.get? c = some v) ∧
      (t = empty ∨ t.IsContiguous → count = some 0 ∧ closed = t) := by
  have hget : ∀ c, (t.closeGaps rule).2.get? c =
      if c ∈ t.gaps.take 4 then some (rule c) else t.get? c := get?_closeGaps rule t
  have hcount : (t.closeGaps rule).1 =
      if t.gaps.length ≤ 4 then some t.gaps.length else none := by
    rw [closeGaps_eq]
    rfl
  refine ⟨t.gaps, (t.closeGaps rule).1, (t.closeGaps rule).2, ascending_gapsOf t.ascending,
    fun c => mem_gaps_iff, rfl, fun _ _ => closesTo_iff, ?_, ?_, ?_, ?_, ?_⟩
  · intro n
    rw [hcount]
    by_cases hfew : t.gaps.length ≤ 4
    · rw [if_pos hfew, Option.some.injEq, and_iff_left hfew, eq_comm]
    · rw [if_neg hfew]
      constructor
      · nofun
      · intro h
        exact absurd h.2 hfew
  · intro hfew
    rw [List.take_of_length_le hfew] at hget
    exact ⟨hget, isContiguous_closeGaps rule hfew, fun c => isCovered_closeGaps⟩
  · intro hmany
    exact ⟨by rw [hcount, if_neg (Nat.not_le.mpr hmany)], hget⟩
  · intro c v hv
    exact get?_closeGaps_of_some rule hv
  · intro h
    have hcontiguous : t.IsContiguous := by
      rcases h with rfl | h
      · rintro c ⟨⟨a, ha, -⟩, -⟩
        exact absurd ha List.not_mem_nil
      · exact h
    rw [closeGaps_eq, gaps_eq_nil hcontiguous]
    exact ⟨rfl, rfl⟩

end CaseFolding.Table

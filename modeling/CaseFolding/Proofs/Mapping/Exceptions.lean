import CaseFolding.Counting
import CaseFolding.Proofs.Mapping.Classify
import CaseFolding.Proofs.Table.Closing

namespace CaseFolding.Interval

/-! # Spans of exceptions

The rule for inner spans closes the gaps between exceptions and compares counts.
What it finds can be said without either: it applies if few codepoints between the
lowest and the highest exception are none, and the span from the one to the other is
not the whole interval. The patch is the part of the interval within that span.
-/

variable {i : Interval} {f : Form} {inner : Span} {c : Codepoint}

/-! ## Parts -/

/-- The part of an interval within a span. -/
def part (i : Interval) (inner : Span) : Interval :=
  ⟨inner.first, (i.values.drop (inner.first - i.first).toNat).take inner.size⟩

/-- A span with bounds in order that starts and ends in an interval. -/
structure Holds (i : Interval) (inner : Span) : Prop where
  first_le_last : inner.first ≤ inner.last
  first : i.contains inner.first = true
  last : i.contains inner.last = true

theorem Holds.size_span (h : i.Holds inner) :
    inner.first.toNat + inner.size = inner.last.toNat + 1 := by
  have hle := UInt32.le_iff_toNat_le.mp h.first_le_last
  rw [Span.size, UInt32.toNat_sub_of_le _ _ h.first_le_last]
  omega

/-- Counting up from the first codepoint of a span leads one past its last one. -/
theorem Holds.plus?_size (h : i.Holds inner) (hi : i.IsValid)
    (hroom : i.first.toNat + i.size < UInt32.size) :
    inner.first.plus? inner.size = .ok (inner.last + 1) := by
  have hspan := h.size_span
  have hlast := hi.contains_iff.mp h.last
  have hpast : (inner.first + UInt32.ofNat inner.size).toNat = inner.last.toNat + 1 := by
    rw [toNat_add_ofNat (by omega), hspan]
  have hnext : (inner.last + 1).toNat = inner.last.toNat + 1 :=
    toNat_add_ofNat (k := 1) (by omega)
  rw [Codepoint.plus?, if_pos (by omega)]
  exact congrArg Except.ok (UInt32.toNat.inj (hpast.trans hnext.symm))

/-- A part has as many codepoints as its span. -/
theorem IsValid.size_part (hi : i.IsValid) (h : i.Holds inner) :
    (i.part inner).size = inner.size := by
  have hfirst := hi.contains_iff.mp h.first
  have hlast := hi.contains_iff.mp h.last
  have hsize := h.size_span
  have hsub : (inner.first - i.first).toNat = inner.first.toNat - i.first.toNat :=
    UInt32.toNat_sub_of_le _ _ (Span.contains_iff.mp h.first).1
  rw [size, part, List.length_take, List.length_drop, hsub]
  rw [size] at hfirst hlast
  omega

/-- A part is a valid interval. -/
theorem IsValid.isValid_part (hi : i.IsValid) (h : i.Holds inner) : (i.part inner).IsValid := by
  have hsize := hi.size_part h
  have hspan := h.size_span
  have hlast : inner.last.toNat < UInt32.size := inner.last.toNat_lt
  have hle := UInt32.le_iff_toNat_le.mp h.first_le_last
  have hfirst : (i.part inner).first.toNat = inner.first.toNat := rfl
  constructor <;> omega

/-- A part covers its span. -/
theorem IsValid.span_part (hi : i.IsValid) (h : i.Holds inner) : (i.part inner).span = inner := by
  have hlast := (hi.isValid_part h).toNat_last
  rw [hi.size_part h] at hlast
  have hsize := h.size_span
  have hfirst : (i.part inner).first.toNat = inner.first.toNat := rfl
  have heq : (i.part inner).last = inner.last := UInt32.toNat.inj (by omega)
  exact congrArg (Span.mk inner.first) heq

/-- A part has the pairs within its span. -/
theorem IsValid.mem_pairs_part (hi : i.IsValid) (h : i.Holds inner) {e : Entry} :
    e ∈ (i.part inner).pairs ↔ e ∈ i.pairs ∧ inner.contains e.1 = true := by
  have hcontains : (i.part inner).contains e.1 = inner.contains e.1 := by
    rw [contains, hi.span_part h]
  have hvalid := hi.isValid_part h
  have hpart : e ∈ (i.part inner).pairs ↔ (i.part inner).contains e.1 = true ∧
      (i.part inner).values[(e.1 - inner.first).toNat]? = some e.2 := hvalid.mem_pairs_iff
  have hwhole : e ∈ i.pairs ↔ i.contains e.1 = true ∧
      i.values[(e.1 - i.first).toNat]? = some e.2 := hi.mem_pairs_iff
  rw [hpart, hwhole, hcontains]
  by_cases hc : inner.contains e.1 = true
  · rcases Span.contains_iff.mp hc with ⟨hfirst, hlast⟩
    rcases Span.contains_iff.mp h.first with ⟨hstart, -⟩
    rcases Span.contains_iff.mp h.last with ⟨-, hend⟩
    have hic : i.contains e.1 = true :=
      Span.contains_iff.mpr ⟨UInt32.le_trans hstart hfirst, UInt32.le_trans hlast hend⟩
    -- both look at the same place
    have hlt : (e.1 - inner.first).toNat < inner.size := Span.toNat_sub_first_lt_size hc
    have hindex : (inner.first - i.first).toNat + (e.1 - inner.first).toNat =
        (e.1 - i.first).toNat := by
      change i.first ≤ inner.first at hstart
      rw [UInt32.toNat_sub_of_le _ _ hstart, UInt32.toNat_sub_of_le _ _ hfirst,
        UInt32.toNat_sub_of_le _ _ (UInt32.le_trans hstart hfirst)]
      rw [UInt32.le_iff_toNat_le] at hstart hfirst
      omega
    rw [part, List.getElem?_take_of_lt hlt, List.getElem?_drop, hindex]
    simp [hc, hic]
  · simp [hc]

/-- A span within an interval is as large as it only if it is its own. -/
theorem Holds.size_eq_iff (h : i.Holds inner) (hi : i.IsValid) :
    inner.size = i.size ↔ inner = i.span := by
  constructor
  · intro hsize
    have hfirst := hi.contains_iff.mp h.first
    have hlast := hi.contains_iff.mp h.last
    have hinner := h.size_span
    have hspan := hi.toNat_last
    have heqfirst : inner.first = i.first := UInt32.toNat.inj (by omega)
    have heqlast : inner.last = i.last := UInt32.toNat.inj (by omega)
    exact congrArg₂ Span.mk heqfirst heqlast
  · rintro rfl
    exact hi.size_span

/-- The pairs of a part start at its first codepoint. -/
theorem IsValid.exists_pairs_part (hi : i.IsValid) (h : i.Holds inner) :
    ∃ v es, (i.part inner).pairs = (inner.first, v) :: es := by
  have hpos := (hi.isValid_part h).pos
  cases hvalues : (i.part inner).values with
  | nil => exact absurd hpos (by simp [size, hvalues])
  | cons v vs =>
    refine ⟨v, (⟨inner.first + 1, vs⟩ : Interval).pairs, ?_⟩
    rw [← pairs_cons, ← hvalues]
    rfl

/-! ## Exceptions -/

/-- A codepoint whose value is not that with the lowest bit set. -/
def IsException (i : Interval) (c : Codepoint) : Prop :=
  ∃ v, (c, v) ∈ i.pairs ∧ c ||| 1 ≠ v

/-- The exceptions are the codepoints with an entry among them. -/
theorem IsValid.exists_mem_exceptions_iff (hi : i.IsValid) :
    (∃ e ∈ i.exceptions.entries, e.1 = c) ↔ i.IsException c := by
  constructor
  · rintro ⟨e, he, rfl⟩
    rcases hi.mem_exceptions.mp he with ⟨hmem, hset⟩
    exact ⟨e.2, hmem, by simpa [isSet] using hset⟩
  · rintro ⟨v, hmem, hne⟩
    exact ⟨(c, v), hi.mem_exceptions.mpr ⟨hmem, by simpa [isSet] using hne⟩, rfl⟩

theorem IsValid.exceptions_ne_nil (hi : i.IsValid) (h : i.IsException c) :
    i.exceptions.entries ≠ [] := by
  rcases hi.exists_mem_exceptions_iff.mpr h with ⟨e, he, -⟩
  exact List.ne_nil_of_mem he

/-- A span from the lowest to the highest exception. -/
structure Frames (i : Interval) (inner : Span) : Prop where
  first : i.IsException inner.first
  last : i.IsException inner.last
  bounds : ∀ c, i.IsException c → inner.first ≤ c ∧ c ≤ inner.last

theorem Frames.unique {outer : Span} (h : i.Frames inner) (h' : i.Frames outer) :
    inner = outer := by
  have hfirst := UInt32.le_antisymm (h.bounds _ h'.first).1 (h'.bounds _ h.first).1
  have hlast := UInt32.le_antisymm (h.bounds _ h'.last).2 (h'.bounds _ h.last).2
  cases inner
  cases outer
  exact congrArg₂ Span.mk hfirst hlast.symm

/-- Ascending entries have a lowest and a highest one. -/
theorem exists_bounds {es : List Entry} (h : es.Pairwise fun a b => a.1 < b.1) (hne : es ≠ []) :
    ∃ a ∈ es, ∃ b ∈ es, ∀ d ∈ es, a.1 ≤ d.1 ∧ d.1 ≤ b.1 := by
  induction es with
  | nil => exact absurd rfl hne
  | cons e es ih =>
    rcases List.pairwise_cons.mp h with ⟨hlow, hes⟩
    by_cases hnil : es = []
    · refine ⟨e, by simp, e, by simp, ?_⟩
      simp [hnil]
    · rcases ih hes hnil with ⟨a, ha, b, hb, hbounds⟩
      refine ⟨e, by simp, b, by simp [hb], List.forall_mem_cons.mpr ⟨?_, ?_⟩⟩
      · exact ⟨UInt32.le_refl _, UInt32.le_of_lt (hlow b hb)⟩
      · intro d hd
        exact ⟨UInt32.le_of_lt (hlow d hd), (hbounds d hd).2⟩

/-- Where there are exceptions, a span frames them. -/
theorem IsValid.exists_frames (hi : i.IsValid) (hne : i.exceptions.entries ≠ []) :
    ∃ inner, i.Frames inner := by
  obtain ⟨a, ha, b, hb, hbounds⟩ := exists_bounds i.exceptions.ascending hne
  refine ⟨⟨a.1, b.1⟩, hi.exists_mem_exceptions_iff.mp ⟨a, ha, rfl⟩,
    hi.exists_mem_exceptions_iff.mp ⟨b, hb, rfl⟩, ?_⟩
  intro c hc
  rcases hi.exists_mem_exceptions_iff.mpr hc with ⟨d, hd, rfl⟩
  exact hbounds d hd

theorem Frames.holds (h : i.Frames inner) (hi : i.IsValid) : i.Holds inner := by
  have hcontains : ∀ {c : Codepoint}, i.IsException c → i.contains c = true := by
    rintro c ⟨v, hmem, -⟩
    exact (hi.mem_pairs_iff.mp hmem).1
  exact ⟨(h.bounds _ h.last).1, hcontains h.first, hcontains h.last⟩

/-- A codepoint strictly within the frame is missing among the exceptions if it is none. -/
theorem Frames.isMissing_iff (h : i.Frames inner) (hi : i.IsValid) :
    i.exceptions.IsMissing c ↔ inner.first < c ∧ c < inner.last ∧ ¬ i.IsException c := by
  constructor
  · rintro ⟨⟨a, ha, hac⟩, ⟨b, hb, hcb⟩, habsent⟩
    have ha := (h.bounds _ (hi.exists_mem_exceptions_iff.mp ⟨a, ha, rfl⟩)).1
    have hb := (h.bounds _ (hi.exists_mem_exceptions_iff.mp ⟨b, hb, rfl⟩)).2
    refine ⟨UInt32.lt_of_le_of_lt ha hac, UInt32.lt_of_lt_of_le hcb hb, ?_⟩
    intro hc
    rcases hi.exists_mem_exceptions_iff.mpr hc with ⟨d, hd, hdc⟩
    exact habsent d hd hdc
  · rintro ⟨hfirst, hlast, hc⟩
    rcases hi.exists_mem_exceptions_iff.mpr h.first with ⟨a, ha, hae⟩
    rcases hi.exists_mem_exceptions_iff.mpr h.last with ⟨b, hb, hbe⟩
    refine ⟨⟨a, ha, hae ▸ hfirst⟩, ⟨b, hb, hbe ▸ hlast⟩, ?_⟩
    rintro d hd rfl
    exact hc (hi.exists_mem_exceptions_iff.mp ⟨d, hd, rfl⟩)

/-! ## Gaps between exceptions -/

/-- The codepoints strictly within a span that are no exceptions, with their values. -/
def conformingWithin (i : Interval) (inner : Span) : List Entry :=
  i.pairs.filter fun e => isSet e && (inner.first < e.1 && e.1 < inner.last)

/-- A codepoint with the lowest bit set as its value is no exception. -/
theorem IsValid.not_isException_iff (hi : i.IsValid) {e : Entry} (he : e ∈ i.pairs) :
    ¬ i.IsException e.1 ↔ isSet e = true := by
  rw [isSet, beq_iff_eq]
  constructor
  · intro hnot
    by_contra hne
    exact hnot ⟨e.2, he, hne⟩
  · rintro hset ⟨v, hmem, hne⟩
    rw [hi.eq_of_mem_pairs hmem he] at hne
    exact hne hset

/-- The gaps between the exceptions are the codepoints strictly within the frame that are none. -/
theorem Frames.length_gaps (h : i.Frames inner) (hi : i.IsValid) :
    i.exceptions.gaps.length = (i.conformingWithin inner).length := by
  have hgaps : i.exceptions.gaps.Pairwise (· < ·) := Table.ascending_gapsOf i.exceptions.ascending
  rw [← List.length_map fun c : Codepoint => ((c, c ||| 1) : Entry)]
  refine congrArg List.length (Table.eq_of_mem_iff ?_ (hi.ascending_pairs.filter _) ?_)
  · exact List.pairwise_map.mpr hgaps
  · intro e
    simp only [List.mem_map, conformingWithin, List.mem_filter, Bool.and_eq_true,
      decide_eq_true_eq]
    constructor
    · rintro ⟨c, hc, rfl⟩
      have hmissing := Table.mem_gaps_iff.mp hc
      rcases (h.isMissing_iff hi).mp hmissing with ⟨hfirst, hlast, -⟩
      exact ⟨hi.mem_pairs_of_isMissing hmissing, by simp [isSet], hfirst, hlast⟩
    · rintro ⟨he, hset, hfirst, hlast⟩
      have hnot := (hi.not_isException_iff he).mpr hset
      refine ⟨e.1, Table.mem_gaps_iff.mpr ((h.isMissing_iff hi).mpr ⟨hfirst, hlast, hnot⟩), ?_⟩
      rw [isSet, beq_iff_eq] at hset
      rw [hset]

section Run

variable {added : List Codepoint} {run : Table}

/-- Closing gaps leaves nothing outside of the frame. -/
theorem Frames.contains_of_mem_run (h : i.Frames inner) (hi : i.IsValid)
    (hclosing : Table.IsClosing (· ||| 1) i.exceptions run added) {e : Entry}
    (he : e ∈ run.entries) : inner.contains e.1 = true := by
  rw [Span.contains_iff]
  rcases List.mem_append.mp (hclosing.entries.mem_iff.mp he) with hadded | hexception
  · rcases List.mem_map.mp hadded with ⟨c, hc, rfl⟩
    rcases (h.isMissing_iff hi).mp (hclosing.missing c hc) with ⟨hfirst, hlast, -⟩
    exact ⟨UInt32.le_of_lt hfirst, UInt32.le_of_lt hlast⟩
  · exact h.bounds _ (hi.exists_mem_exceptions_iff.mp ⟨e, hexception, rfl⟩)

/-- A codepoint of the frame that closing gaps has left out is missing. -/
theorem Frames.isMissing_of_not_mem_run (h : i.Frames inner) (hi : i.IsValid)
    (hclosing : Table.IsClosing (· ||| 1) i.exceptions run added) {e : Entry} (he : e ∈ i.pairs)
    (hinner : inner.contains e.1 = true) (hrun : e ∉ run.entries) : run.IsMissing e.1 := by
  rcases Span.contains_iff.mp hinner with ⟨hfirst, hlast⟩
  have hset := (hi.mem_run_or_isSet hclosing he).resolve_left hrun
  -- it is no exception, so the ones at the ends of the frame are others
  have hnot := (hi.not_isException_iff he).mpr hset
  have hne : ∀ {c}, i.IsException c → c ≠ e.1 := fun hc heq => hnot (heq ▸ hc)
  have hold : ∀ {c}, i.IsException c → ∃ d ∈ run.entries, d.1 = c := by
    intro c hc
    rcases hi.exists_mem_exceptions_iff.mpr hc with ⟨d, hd, hdc⟩
    exact ⟨d, hclosing.entries.mem_iff.mpr (List.mem_append_right _ hd), hdc⟩
  rcases hold h.first with ⟨a, ha, hae⟩
  rcases hold h.last with ⟨b, hb, hbe⟩
  refine ⟨⟨a, ha, ?_⟩, ⟨b, hb, ?_⟩, ?_⟩
  · rw [hae]
    exact UInt32.lt_of_le_of_ne hfirst (hne h.first)
  · rw [hbe]
    exact UInt32.lt_of_le_of_ne hlast (hne h.last).symm
  · intro d hd hde
    have hdi := hi.mem_pairs_of_mem_run hclosing hd
    exact hrun (Table.eq_of_ascending hi.ascending_pairs hdi he hde ▸ hd)

/-- When no gap is left, the run of exceptions is the part of the interval within their frame. -/
theorem Frames.entries_run (h : i.Frames inner) (hi : i.IsValid)
    (hclosing : Table.IsClosing (· ||| 1) i.exceptions run added)
    (hnone : Table.firstGap? run.entries = none) : run.entries = (i.part inner).pairs := by
  have hholds := h.holds hi
  refine Table.eq_of_mem_iff run.ascending (hi.isValid_part hholds).ascending_pairs ?_
  intro e
  rw [hi.mem_pairs_part hholds]
  constructor
  · intro he
    exact ⟨hi.mem_pairs_of_mem_run hclosing he, h.contains_of_mem_run hi hclosing he⟩
  · rintro ⟨he, hinner⟩
    by_contra hrun
    exact Table.not_isMissing_of_firstGap? hnone
      (h.isMissing_of_not_mem_run hi hclosing he hinner hrun)

/-- The run of exceptions and what conforms outside of it make up the interval. -/
theorem IsValid.size_run_add (hi : i.IsValid)
    (hclosing : Table.IsClosing (· ||| 1) i.exceptions run added) :
    run.size + (i.setCount - added.length) = i.size := by
  have hle := hi.length_added_le hclosing
  have hrun := hclosing.entries.length_eq
  rw [List.length_append, List.length_map] at hrun
  have hrest : i.exceptions.entries.length = i.pairs.countP fun e => ¬ isSet e = true := by
    rw [exceptions, Table.entries_ofList (hi.ascending_pairs.filter _),
      ← List.countP_eq_length_filter]
    simp
  have hsum := List.length_eq_countP_add_countP isSet (l := i.pairs)
  rw [length_pairs] at hsum
  rw [Table.size]
  unfold setCount at hle ⊢
  omega

/-- The entries of a run are those of an interval from its lowest exception to its highest one. -/
structure IsRun (i : Interval) (run : Table) (inner : Span) : Prop where
  /-- The span goes from the lowest exception to the highest one. -/
  frames : i.Frames inner
  /-- The span lies in the interval. -/
  holds : i.Holds inner
  /-- Each codepoint of the span has its entry. -/
  entries : run.entries = (i.part inner).pairs

/-- Where the gaps between the exceptions are closed, there is a run. Enough codepoints conform, and
those that were not inserted make up the interval with the run. -/
theorem Frames.run_of_closeGaps {patches : Nat} (h : i.Frames inner) (hi : i.IsValid)
    (hclose : i.exceptions.closeGaps (· ||| 1) = (some patches, run)) :
    i.IsRun run inner ∧ patches ≤ i.setCount ∧ run.size + (i.setCount - patches) = i.size := by
  obtain ⟨added, hfills, rfl, hnone⟩ := Table.exists_fills_of_closeGaps hclose
  have hclosing := hfills.isClosing
  exact ⟨⟨h, h.holds hi, h.entries_run hi hclosing hnone⟩, hi.length_added_le hclosing,
    hi.size_run_add hclosing⟩

theorem IsRun.size_eq (h : i.IsRun run inner) (hi : i.IsValid) : run.size = inner.size := by
  rw [Table.size, h.entries, length_pairs, hi.size_part h.holds]

theorem IsRun.exists_entries (h : i.IsRun run inner) (hi : i.IsValid) :
    ∃ v es, run.entries = (inner.first, v) :: es := by
  rw [h.entries]
  exact hi.exists_pairs_part h.holds

theorem IsRun.part_eq (h : i.IsRun run inner) :
    i.part inner = ⟨inner.first, run.entries.map (·.2)⟩ := by
  rw [h.entries, map_snd_pairs]
  rfl

/-- If a run and what is left make up the interval, the rule rejects the run exactly if it is the
whole interval. -/
theorem IsRun.rejected_iff {outside : Nat} (h : i.IsRun run inner) (hi : i.IsValid)
    (hsum : run.size + outside = i.size) :
    (outside = 0 ∨ run.size + outside ≠ i.size) ↔ inner = i.span := by
  rw [← h.holds.size_eq_iff hi, ← h.size_eq hi]
  omega

end Run

/-! ## The rule -/

/-- The span from the lowest to the highest exception is not the whole interval, and at most four
codepoints strictly within it are no exceptions. -/
structure HasInnerSpan (i : Interval) (inner : Span) : Prop where
  frames : i.Frames inner
  few : (i.conformingWithin inner).length ≤ 4
  proper : inner ≠ i.span

theorem setException?_of_entries_eq_nil (h : i.exceptions.entries = []) : i.setException? = none :=
  if_pos h

/-- Where the gaps are closed, the rule applies to the run unless it is the whole interval. -/
theorem IsRun.setException?_eq {run : Table} {patches : Nat} (h : i.IsRun run inner)
    (hi : i.IsValid) (hclose : i.exceptions.closeGaps (· ||| 1) = (some patches, run)) :
    i.setException? =
      if inner = i.span then none else some (.setException inner (i.part inner).listed) := by
  obtain ⟨-, -, hsum⟩ := h.frames.run_of_closeGaps hi hclose
  rcases h.exists_entries hi with ⟨v, es, hentries⟩
  have hhead : run.entries.head? = some (inner.first, v) := by
    rw [hentries]
    rfl
  rw [setException?, if_neg (hi.exceptions_ne_nil h.frames.first), hclose]
  dsimp only
  rw [hhead, Option.map_some]
  dsimp only
  rw [← h.part_eq, hi.span_part h.holds]
  exact if_congr (h.rejected_iff hi hsum) rfl rfl

/-- Where there are exceptions, the rule applies to the span that frames them or not at all. -/
theorem Frames.setException?_eq_some_iff (h : i.Frames inner) (hi : i.IsValid) :
    i.setException? = some f ↔
      i.HasInnerSpan inner ∧ f = .setException inner (i.part inner).listed := by
  obtain ⟨count, run, hclose⟩ : ∃ count run, i.exceptions.closeGaps (· ||| 1) = (count, run) :=
    ⟨_, _, rfl⟩
  have hcount : (if (i.conformingWithin inner).length ≤ patchLimit
      then some (i.conformingWithin inner).length else none) = count := by
    rw [Table.closeGaps_eq, h.length_gaps hi] at hclose
    exact congrArg Prod.fst hclose
  split at hcount
  next hfew =>
    rcases hcount with rfl
    rcases h.run_of_closeGaps hi hclose with ⟨hrun, -⟩
    rw [hrun.setException?_eq hi hclose, Option.ite_none_left_eq_some, Option.some.injEq,
      eq_comm (b := f)]
    constructor
    · rintro ⟨hproper, hf⟩
      exact ⟨⟨h, hfew, hproper⟩, hf⟩
    · rintro ⟨hinner, hf⟩
      exact ⟨hinner.proper, hf⟩
  next hmany =>
    rcases hcount with rfl
    rw [setException?, if_neg (hi.exceptions_ne_nil h.first), hclose]
    constructor
    · intro hf
      exact absurd hf nofun
    · rintro ⟨hinner, -⟩
      exact absurd hinner.few hmany

/-- The rule for inner spans applies to the spans that are meant. -/
theorem IsValid.setException?_eq_some_iff (hi : i.IsValid) :
    i.setException? = some f ↔
      ∃ inner, i.HasInnerSpan inner ∧ f = .setException inner (i.part inner).listed := by
  by_cases hnil : i.exceptions.entries = []
  · rw [setException?_of_entries_eq_nil hnil]
    constructor
    · intro hf
      exact absurd hf nofun
    · rintro ⟨inner, hinner, -⟩
      exact absurd hnil (hi.exceptions_ne_nil hinner.frames.first)
  · rcases hi.exists_frames hnil with ⟨inner, h⟩
    rw [h.setException?_eq_some_iff hi]
    constructor
    · rintro ⟨hinner, rfl⟩
      exact ⟨inner, hinner, rfl⟩
    · rintro ⟨outer, houter, rfl⟩
      rcases h.unique houter.frames with rfl
      exact ⟨houter, rfl⟩

end CaseFolding.Interval

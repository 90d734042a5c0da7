import CaseFolding.Proofs.Mapping.Census

namespace CaseFolding

/-! # What is left outside of the exceptions

The rule for inner spans does not go back to the values for what lies outside of the
run of exceptions. It takes the codepoints that were inserted from those that were
counted. Each of them is one that was counted, so there are enough to take them from,
and those that are left are the codepoints outside of the run. The run and what is
left always make up the interval; that they do is checked for nothing.
-/

namespace Interval

variable {i : Interval} {inner : Span}

/-! ## Codepoints of a span -/

theorem IsValid.countP_contains (hi : i.IsValid) (h : i.Holds inner) :
    i.pairs.countP (fun e => inner.contains e.1) = inner.size := by
  have hpart : i.pairs.filter (fun e => inner.contains e.1) = (i.part inner).pairs := by
    refine Table.eq_of_mem_iff (hi.ascending_pairs.filter _)
      (hi.isValid_part h).ascending_pairs ?_
    intro e
    rw [List.mem_filter, hi.mem_pairs_part h]
  rw [List.countP_eq_length_filter, hpart, length_pairs, hi.size_part h]

theorem IsValid.countP_not_contains (hi : i.IsValid) (h : i.Holds inner) :
    inner.size + i.pairs.countP (fun e => !inner.contains e.1) = i.size := by
  have hsum := List.length_eq_countP_add_countP (fun e => inner.contains e.1) (l := i.pairs)
  rw [length_pairs, hi.countP_contains h] at hsum
  simpa using hsum.symm

/-! ## The run of exceptions -/

section Run

variable {run : Table}

theorem IsRun.head?_entries (h : i.IsRun run inner) (hi : i.IsValid) :
    run.entries.head?.map (·.1) = some inner.first := by
  rcases h.exists_entries hi with ⟨v, es, hentries⟩
  rw [hentries]
  rfl

theorem IsRun.getLast?_entries (h : i.IsRun run inner) (hi : i.IsValid) :
    run.entries.getLast?.map (·.1) = some inner.last := by
  rw [h.entries, (hi.isValid_part h.holds).getLast?_pairs]
  exact congrArg (fun s : Span => some s.last) (hi.span_part h.holds)

theorem IsRun.plus?_size (h : i.IsRun run inner) (hi : i.IsValid)
    (hroom : i.first.toNat + i.size < UInt32.size) :
    (inner.first.plus? run.size).map (· - 1) = .ok inner.last := by
  rw [h.size_eq hi, h.holds.plus?_size hi hroom]
  exact congrArg Except.ok (UInt32.add_sub_cancel _ _)

/-- What makes up the interval with a run are the codepoints outside of it. -/
theorem IsRun.countP_not_contains {outside : Nat} (h : i.IsRun run inner) (hi : i.IsValid)
    (hsum : run.size + outside = i.size) :
    i.pairs.countP (fun e => !inner.contains e.1) = outside := by
  have hrest := hi.countP_not_contains h.holds
  rw [h.size_eq hi] at hsum
  omega

end Run

/-! ## Counting -/

/-- Below the two largest codepoints, an interval with exceptions whose gaps can be closed is made
up of the run of exceptions and of what is left of the codepoints that were counted. Each codepoint
that is inserted is one of the interval with the lowest bit set as its value, so enough of them were
counted, and those that are left lie outside of the run. The run lies in the interval, and its last
codepoint, which is found by counting, is the highest exception. So the rule applies exactly if
something is left, and it need not compare sizes. -/
theorem run_and_rest_make_up_interval (i : Interval)
    (hroom : i.first.toNat + i.values.length + 2 ≤ UInt32.size)
    (hexception : ∃ c, i.IsException c) {patches : Nat} {run : Table}
    (hclose : i.exceptions.closeGaps (· ||| 1) = (some patches, run)) :
    ∃ k inserted inner, Census.ofInterval? i = .ok k ∧
      Table.Fills (· ||| 1) i.exceptions inserted run ∧ inserted.length = patches ∧
      (∀ c ∈ inserted, i.get? c = some (c ||| 1)) ∧
      patches ≤ k.set ∧ remaining? k.set patches = .ok (k.set - patches) ∧
      run.size + (k.set - patches) = i.size ∧
      i.pairs.countP (fun e => !inner.contains e.1) = k.set - patches ∧
      i.IsRun run inner ∧ run.entries.head?.map (·.1) = some inner.first ∧
      run.entries.getLast?.map (·.1) = some inner.last ∧
      (inner.first.plus? run.size).map (· - 1) = .ok inner.last ∧
      i.first ≤ inner.first ∧ inner.first ≤ inner.last ∧ inner.last ≤ i.last ∧
      k.setException? i = .ok (if k.set - patches = 0 then none else
        some (.setException inner (⟨inner.first, run.entries.map (·.2)⟩ : Interval).listed)) := by
  have hi : i.IsValid := by
    rcases hexception with ⟨c, v, hmem, -⟩
    have hpos := List.length_pos_of_mem hmem
    rw [length_pairs] at hpos
    exact ⟨hpos, by rw [size]; omega⟩
  rcases hexception with ⟨c, hc⟩
  rcases hi.exists_frames (hi.exceptions_ne_nil hc) with ⟨inner, hframes⟩
  rcases hframes.run_of_closeGaps hi hclose with ⟨hrun, hle, hsum⟩
  obtain ⟨inserted, hfills, hlength, -⟩ := Table.exists_fills_of_closeGaps hclose
  rcases Census.counts_ofInterval? hroom with ⟨k, hk, hcounts⟩
  have hset : k.set = i.setCount := hcounts.set
  rw [← hset] at hle hsum
  -- nothing is left exactly if the run is the whole interval
  have hrest : k.set - patches = 0 ↔ inner = i.span := by
    have hreject := hrun.rejected_iff hi hsum
    rwa [hsum, ne_self_iff_false, or_false] at hreject
  refine ⟨k, inserted, inner, hk, hfills, hlength, ?_, hle, remaining?_eq_ok hle, hsum,
    hrun.countP_not_contains hi hsum, hrun, hrun.head?_entries hi, hrun.getLast?_entries hi,
    hrun.plus?_size hi (by rw [size]; omega), (Span.contains_iff.mp hrun.holds.first).1,
    hrun.holds.first_le_last, (Span.contains_iff.mp hrun.holds.last).2, ?_⟩
  · intro c hc
    exact hi.get?_eq_some_iff.mpr (hi.mem_pairs_of_isMissing (hfills.isClosing.missing c hc))
  · rw [hcounts.setException?_eq hi hroom, hrun.setException?_eq hi hclose, hrun.part_eq]
    exact congrArg Except.ok (if_congr hrest.symm rfl rfl)

/-- Two exceptions with three codepoints between them that are none, the upper one at the end of the
last interval that leaves room for two steps. One codepoint lies outside of the run. -/
theorem run_and_rest_make_up_interval_high :
    let i : Interval := ⟨0xFFFFFFF8, [0xFFFFFFF9, 0, 0xFFFFFFFB, 0xFFFFFFFB, 0xFFFFFFFD, 1]⟩
    let run := (i.exceptions.closeGaps (· ||| 1)).2
    i.first.toNat + i.values.length + 2 ≤ UInt32.size ∧ i.IsException 0xFFFFFFFD ∧
      i.exceptions.closeGaps (· ||| 1) = (some 3, run) ∧
      ∃ k, ∃ inserted : List Codepoint, Census.ofInterval? i = .ok k ∧ inserted.length = 3 ∧
        (∀ c ∈ inserted, i.get? c = some (c ||| 1)) ∧ k.set = 4 ∧
        i.pairs.countP (fun e => !(⟨0xFFFFFFF9, 0xFFFFFFFD⟩ : Span).contains e.1) = 1 ∧
        k.setException? i = .ok (some (.setException ⟨0xFFFFFFF9, 0xFFFFFFFD⟩
          (.table [0, 0xFFFFFFFB, 0xFFFFFFFB, 0xFFFFFFFD, 1]))) := by
  intro i run
  have hroom : i.first.toNat + i.values.length + 2 ≤ UInt32.size := by decide
  have hexception : i.IsException 0xFFFFFFFD := ⟨1, by decide, by decide⟩
  have hcount : (i.exceptions.closeGaps (· ||| 1)).1 = some 3 := by decide
  have hclose : i.exceptions.closeGaps (· ||| 1) = (some 3, run) := Prod.ext hcount rfl
  obtain ⟨k, inserted, inner, hk, -, hlength, hvalues, -, -, hsum, houtside, -, hfirst, hlast, -, -,
    -, -, hrule⟩ := run_and_rest_make_up_interval i hroom ⟨_, hexception⟩ hclose
  have hentries : run.entries = [(0xFFFFFFF9, 0), (0xFFFFFFFA, 0xFFFFFFFB),
      (0xFFFFFFFB, 0xFFFFFFFB), (0xFFFFFFFC, 0xFFFFFFFD), (0xFFFFFFFD, 1)] := by decide
  have hsize : run.size = 5 := congrArg List.length hentries
  have hset : k.set = 4 := by
    have hwhole : i.size = 6 := rfl
    omega
  have hinner : inner = ⟨0xFFFFFFF9, 0xFFFFFFFD⟩ := by
    rw [hentries] at hfirst hlast
    rcases inner with ⟨first, last⟩
    exact congrArg₂ Span.mk (Option.some.inj hfirst).symm (Option.some.inj hlast).symm
  rw [hset, hinner] at houtside
  rw [hset, hinner, hentries] at hrule
  exact ⟨hroom, hexception, hclose, k, inserted, hk, hlength, hvalues, hset, houtside, hrule⟩

end Interval

end CaseFolding

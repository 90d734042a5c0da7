import CaseFolding.Proofs.Listing
import CaseFolding.Utf8

namespace CaseFolding

/-! # What the arms do

Each codepoint that generated code tells apart is encoded in one length, and the
arm for that length folds it like the single-width code does. The other arms
leave it as it is.
-/

/-! ## Lengths -/

namespace Utf8Length

variable {n : Utf8Length} {c : Codepoint}

/-- The length that the bounds of the spans leave for a codepoint. -/
def byBounds (c : Codepoint) : Utf8Length :=
  if c.toNat < 0x80 then one
  else if c.toNat < 0x800 then two
  else if c.toNat < 0x10000 then three
  else four

/-- No other length has the codepoint in its span. -/
theorem eq_byBounds (h : n.span.contains c = true) : n = byBounds c := by
  rw [Span.contains_iff, UInt32.le_iff_toNat_le, UInt32.le_iff_toNat_le] at h
  unfold byBounds
  cases n with
  | one =>
    have hlast : c.toNat ≤ 0x7F := h.2
    rw [if_pos (by omega)]
  | two =>
    have hfirst : 0x80 ≤ c.toNat := h.1
    have hlast : c.toNat ≤ 0x7FF := h.2
    rw [if_neg (by omega), if_pos (by omega)]
  | three =>
    have hfirst : 0x800 ≤ c.toNat := h.1
    have hlast : c.toNat ≤ 0xFFFF := h.2
    rw [if_neg (by omega), if_neg (by omega), if_pos (by omega)]
  | four =>
    have hfirst : 0x10000 ≤ c.toNat := h.1
    rw [if_neg (by omega), if_neg (by omega), if_neg (by omega)]

/-- The codepoints that generated code tells apart are in the span of their length. -/
theorem contains_byBounds (h : c ≤ largestCodepoint) : (byBounds c).span.contains c = true := by
  have hle : c.toNat ≤ 0x1FFFFF := UInt32.le_iff_toNat_le.mp h
  rw [Span.contains_iff, UInt32.le_iff_toNat_le, UInt32.le_iff_toNat_le]
  unfold byBounds
  split
  next hone => exact ⟨Nat.zero_le _, Nat.le_of_lt_succ hone⟩
  next hone =>
    split
    next htwo => exact ⟨Nat.le_of_not_lt hone, Nat.le_of_lt_succ htwo⟩
    next htwo =>
      split
      next hthree => exact ⟨Nat.le_of_not_lt htwo, Nat.le_of_lt_succ hthree⟩
      next hthree => exact ⟨Nat.le_of_not_lt hthree, hle⟩

theorem of?_eq_some_iff : of? c = some n ↔ n.span.contains c = true := by
  constructor
  · intro h
    simpa using List.find?_some h
  · intro h
    cases hfind : of? c with
    | none =>
      have hmem : n ∈ all := by
        cases n <;> decide
      exact absurd h (List.find?_eq_none.mp hfind n hmem)
    | some m =>
      have hm : m.span.contains c = true := by simpa using List.find?_some hfind
      rw [eq_byBounds hm, eq_byBounds h]

end Utf8Length

/-! ## Arms -/

namespace Table

theorem mem_arms (t : Table) (config : Config) (var target : String) (n : Utf8Length) :
    ⟨n, (t.armTree config n).listing var (.toVariable target)⟩ ∈ t.arms config var target :=
  List.mem_map_of_mem (by cases n <;> decide)

/-- The text of an arm leaves the switch with one assignment, which folds the codepoints of its
length like the table and no others. -/
theorem runText_arm (t : Table) (config : Config) {var target : String}
    (hvar : Code.IsIdentifier var) (htarget : Code.IsIdentifier target) {arm : Arm}
    (harm : arm ∈ t.arms config var target) (c : Codepoint) :
    ∃ trace, Code.runText var arm.listing.text c = some (.left, trace) ∧
      trace.assigned =
        [(target, if arm.length.span.contains c = true then t.fold c else c)] := by
  rcases List.mem_map.mp harm with ⟨n, -, rfl⟩
  have hsink : (Sink.toVariable target).IsNamed := htarget
  obtain ⟨⟨ending, trace⟩, hrun, ⟨hending, hassigned⟩, -⟩ :=
    t.runText_listing_tree n.span config.utf8Gap config.switches hvar hsink c
  have hleft : ending = .left := hending
  rw [hleft] at hrun
  exact ⟨trace, hrun, hassigned⟩

/-- There is an arm for each length. Each of them, run on any codepoint, assigns its target once
and leaves the switch, and folds the codepoints of its length and no others. A codepoint that
generated code tells apart belongs to one length, and the arm for that assigns what the
single-width code delivers. -/
theorem arms_partition_codepoints (t : Table) (config : Config) {var target : String}
    (hvar : Code.IsIdentifier var) (htarget : Code.IsIdentifier target) :
    (t.arms config var target).map (·.length) = Utf8Length.all ∧
      (∀ arm ∈ t.arms config var target, ∀ c, ∃ trace,
        Code.runText var arm.listing.text c = some (.left, trace) ∧
          trace.assigned =
            [(target, if arm.length.span.contains c = true then t.fold c else c)]) ∧
      ∀ c ≤ largestCodepoint, ∃ n, Utf8Length.of? c = some n ∧
        (∀ m : Utf8Length, m.span.contains c = true ↔ m = n) ∧
        ∀ arm ∈ t.arms config var target, arm.length = n →
          ∀ sink : Sink, sink.IsNamed → ∃ v trace outcome,
            Code.runText var arm.listing.text c = some (.left, trace) ∧
              trace.assigned = [(target, v)] ∧
              Code.runText var (t.listing config var sink).text c = some outcome ∧
              sink.Delivers v outcome := by
  refine ⟨?_, ?_, ?_⟩
  · rw [arms, List.map_map]
    exact List.map_id _
  · intro arm harm c
    exact t.runText_arm config hvar htarget harm c
  · intro c hc
    have hcontains := Utf8Length.contains_byBounds hc
    refine ⟨Utf8Length.byBounds c, Utf8Length.of?_eq_some_iff.mpr hcontains, ?_, ?_⟩
    · intro m
      constructor
      · exact Utf8Length.eq_byBounds
      · rintro rfl
        exact hcontains
    · -- both texts deliver what the table says
      intro arm harm hlength sink hsink
      rcases t.runText_arm config hvar htarget harm c with ⟨trace, hrun, hassigned⟩
      obtain ⟨outcome, hrun', hdelivers, -⟩ :=
        t.runText_listing_tree Span.folded config.gap config.switches hvar hsink c
      rw [hlength, if_pos hcontains] at hassigned
      rw [if_pos ((contains_folded c).mpr hc)] at hdelivers
      exact ⟨t.fold c, trace, outcome, hrun, hassigned, hrun', hdelivers⟩

/-- A run of entries across the end of the two-byte codepoints, with different gaps, at the last of
them. -/
theorem arms_partition_codepoints_across :
    let t := ofList [(0x7FC, 0x7FD), (0x7FE, 0x7FF), (0x7FF, 0x801), (0x800, 0x802), (0x803, 0x41)]
    let config : Config := { gap := 8, utf8Gap := 1 }
    let arm : Arm := ⟨.two, (t.armTree config .two).listing "c" (.toVariable "r")⟩
    Code.IsIdentifier "c" ∧ Code.IsIdentifier "r" ∧ arm ∈ t.arms config "c" "r" ∧
      (0x7FF : Codepoint) ≤ largestCodepoint ∧ Sink.toCaller.IsNamed ∧
      (∃ trace, Code.runText "c" arm.listing.text 0x7FF = some (.left, trace) ∧
        trace.assigned = [("r", 0x801)]) ∧
      Utf8Length.of? 0x7FF = some .two ∧
      ∃ v trace outcome, Code.runText "c" arm.listing.text 0x7FF = some (.left, trace) ∧
        trace.assigned = [("r", v)] ∧
        Code.runText "c" (t.listing config "c" .toCaller).text 0x7FF = some outcome ∧
        Sink.toCaller.Delivers v outcome := by
  intro t config arm
  have hvar : Code.IsIdentifier "c" := by decide
  have htarget : Code.IsIdentifier "r" := by decide
  have harm : arm ∈ t.arms config "c" "r" := List.mem_map_of_mem (by decide)
  have hc : (0x7FF : Codepoint) ≤ largestCodepoint := by decide
  have hlength : Utf8Length.of? 0x7FF = some .two := by decide
  have hsink : Sink.toCaller.IsNamed := trivial
  rcases t.arms_partition_codepoints config hvar htarget with ⟨-, hruns, hagrees⟩
  rcases hagrees 0x7FF hc with ⟨n, hn, -, hagrees⟩
  have harmLength : arm.length = n := Option.some.inj (hlength.symm.trans hn)
  exact ⟨hvar, htarget, harm, hc, hsink, hruns arm harm 0x7FF, hlength,
    hagrees arm harm harmLength .toCaller hsink⟩

end Table

end CaseFolding

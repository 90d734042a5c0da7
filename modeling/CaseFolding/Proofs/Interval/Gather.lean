import CaseFolding.Interval.Gather
import CaseFolding.Proofs.Interval.Scan

namespace CaseFolding

/-! # Gathering finds what a scan finds

A scan puts entries in front of finished intervals, from the highest to the lowest;
gathering lets one interval grow through them, from the lowest to the highest. What
has grown so far is to the intervals still to come what a single entry is in a
scan, so both find the same. On the way no step leaves the numbers that 32 bits
hold. Counting up along an interval goes two steps beyond it, so it needs room for
them.
-/

namespace Interval

/-! ## Putting an interval in front -/

/-- Puts an interval in front of those above it: into the first of them if that one is near. -/
def absorb (gap : UInt32) (i : Interval) : List Interval → List Interval
  | [] => [i]
  | j :: js =>
    if isNear gap i.last j.first then
      ⟨i.first, i.values ++ (strictlyBetween i.last j.first ++ j.values)⟩ :: js
    else i :: j :: js

variable {gap : UInt32} {c : Codepoint} {e : Entry} {es : List Entry} {i : Interval}
  {is : List Interval}

/-- A single entry is an interval like others. -/
theorem join_eq_absorb (gap : UInt32) (e : Entry) (is : List Interval) :
    join gap e is = absorb gap ⟨e.1, [e.2]⟩ is := by
  cases is with
  | nil => rfl
  | cons j js =>
    rw [absorb, last_single]
    rfl

/-- What grows up to an entry within reach takes its place in front of the intervals above. -/
theorem absorb_join_of_near (h : isNear gap i.last e.1 = true)
    (hlast : (⟨i.first, i.values ++ (strictlyBetween i.last e.1 ++ [e.2])⟩ : Interval).last = e.1)
    (is : List Interval) :
    absorb gap i (join gap e is) =
      absorb gap ⟨i.first, i.values ++ (strictlyBetween i.last e.1 ++ [e.2])⟩ is := by
  cases is with
  | nil => exact if_pos h
  | cons j js =>
    rw [join, absorb, hlast]
    split
    next => rw [absorb, if_pos h]; simp
    next => rw [absorb, if_pos h]

/-- What grows ends before an entry out of reach. -/
theorem absorb_join_of_far (h : isNear gap i.last e.1 = false) (is : List Interval) :
    absorb gap i (join gap e is) = i :: join gap e is := by
  have hfar : ¬ isNear gap i.last e.1 = true := by simp [h]
  cases is with
  | nil => exact if_neg hfar
  | cons j js =>
    rw [join]
    split <;> exact if_neg hfar

/-! ## Growing -/

namespace Growing

/-- What has grown so far is an interval that ends where it is said to end. -/
structure IsSound (g : Growing) : Prop where
  valid : g.finish.IsValid
  last_finish : g.finish.last = g.last

variable {g : Growing} {v : Codepoint}

theorem isSound_start (e : Entry) : (start e).IsSound :=
  ⟨isValid_single e, last_single e⟩

theorem values_extend (g : Growing) (c v : Codepoint) :
    (g.extend c v).finish.values = g.finish.values ++ [v] :=
  Array.toList_push

/-- The codepoint one above the last one may come next. -/
theorem IsSound.extend (h : g.IsSound) (hc : c.toNat = g.last.toNat + 1) (v : Codepoint) :
    (g.extend c v).IsSound := by
  have hlast := h.valid.toNat_last
  have hlt : c.toNat < UInt32.size := c.toNat_lt
  rw [h.last_finish] at hlast
  have hsize : (g.extend c v).finish.size = g.finish.size + 1 := by
    rw [size, values_extend, List.length_append, size]
    rfl
  have hfirst : (g.extend c v).finish.first = g.finish.first := rfl
  have hvalid : (g.extend c v).finish.IsValid := by
    constructor
    · omega
    · rw [hfirst, hsize]
      omega
  refine ⟨hvalid, UInt32.toNat.inj ?_⟩
  have hlast' := hvalid.toNat_last
  change _ = c.toNat
  rw [hfirst, hsize] at hlast'
  omega

/-- Up to right below a codepoint nothing but identities is added, and no number is too large. -/
theorem IsSound.fill?_eq_ok (h : g.IsSound) (hc : g.last < c) :
    ∃ g', g.fill? c = .ok g' ∧ g'.IsSound ∧ c.toNat = g'.last.toNat + 1 ∧ g'.first = g.first ∧
      g'.finish.values = g.finish.values ++ strictlyBetween g.last c := by
  fun_induction fill? g c with
  | case1 g f hnext => exact absurd ((Codepoint.next?_eq_ok hc).symm.trans hnext) nofun
  | case2 g next hnext hlt ih =>
    have hstep := Codepoint.toNat_of_next?_eq_ok hnext
    rcases Except.ok.inj ((Codepoint.next?_eq_ok hc).symm.trans hnext) with rfl
    have hbetween : g.last.toNat + 1 < c.toNat := by
      rw [← hstep]
      exact UInt32.lt_iff_toNat_lt.mp hlt
    obtain ⟨g', hfill, hsound, hc', hfirst, hvalues⟩ := ih (h.extend hstep _) hlt
    refine ⟨g', hfill, hsound, hc', hfirst, ?_⟩
    rw [hvalues, values_extend, strictlyBetween_cons hbetween, List.append_assoc]
    rfl
  | case3 g next hnext hge =>
    have hstep := Codepoint.toNat_of_next?_eq_ok hnext
    have hle := UInt32.le_iff_toNat_le.mp (UInt32.not_lt.mp hge)
    have hlt := UInt32.lt_iff_toNat_lt.mp hc
    refine ⟨g, rfl, h, by omega, rfl, ?_⟩
    rw [strictlyBetween_of_next (by omega), List.append_nil]

/-- Adding an entry above makes an interval up to its codepoint. -/
theorem IsSound.push?_eq_ok (h : g.IsSound) (he : g.last < e.1) :
    ∃ g', g.push? e = .ok g' ∧ g'.IsSound ∧ g'.last = e.1 ∧
      g'.finish =
        ⟨g.finish.first, g.finish.values ++ (strictlyBetween g.last e.1 ++ [e.2])⟩ := by
  obtain ⟨g', hfill, hsound, hc, hfirst, hvalues⟩ := h.fill?_eq_ok he
  refine ⟨g'.extend e.1 e.2, ?_, hsound.extend hc e.2, rfl, ?_⟩
  · rw [push?, hfill]
    rfl
  · have hextend := values_extend g' e.1 e.2
    rw [hvalues, List.append_assoc] at hextend
    exact congrArg₂ Interval.mk hfirst hextend

end Growing

/-! ## The walk -/

theorem le_reach_iff_isNear : e.1 ≤ c.reach gap ↔ isNear gap c e.1 = true := by
  rw [Codepoint.le_reach_iff, isNear, decide_eq_true_iff]

/-- The growing interval ends up in front of what a scan finds above it. -/
theorem gatherFrom?_eq_ok {g : Growing} (hg : g.IsSound) (hlow : ∀ d ∈ es, g.last < d.1)
    (hes : es.Pairwise fun a b => a.1 < b.1) :
    gatherFrom? gap g es = .ok (absorb gap g.finish (scan gap es)) := by
  induction es generalizing g with
  | nil => rfl
  | cons e es ih =>
    rcases List.pairwise_cons.mp hes with ⟨hlow', hes⟩
    have hscan : scan gap (e :: es) = join gap e (scan gap es) := rfl
    rw [hscan, gatherFrom?]
    split
    next hreach =>
      -- the entry is added
      obtain ⟨g', hpush, hg', hlast, hfinish⟩ := hg.push?_eq_ok (hlow e List.mem_cons_self)
      have hnear := le_reach_iff_isNear.mp hreach
      rw [← hg.last_finish] at hnear hfinish
      have hend := hg'.last_finish.trans hlast
      rw [hfinish] at hend
      rw [hpush, absorb_join_of_near hnear hend, ← hfinish]
      exact ih hg' (hlast ▸ hlow') hes
    next hreach =>
      -- the entry starts the next interval
      have hfar := Bool.eq_false_iff.mpr (mt le_reach_iff_isNear.mpr hreach)
      rw [← hg.last_finish] at hfar
      rw [ih (Growing.isSound_start e) hlow' hes, absorb_join_of_far hfar, join_eq_absorb]
      rfl

/-- Gathering ascending entries finds what a scan finds. -/
theorem gather?_eq_ok (gap : UInt32) (h : es.Pairwise fun a b => a.1 < b.1) :
    gather? gap es = .ok (scan gap es) := by
  cases es with
  | nil => rfl
  | cons e es =>
    rcases List.pairwise_cons.mp h with ⟨hlow, hes⟩
    have hscan : scan gap (e :: es) = join gap e (scan gap es) := rfl
    rw [gather?, gatherFrom?_eq_ok (Growing.isSound_start e) hlow hes, hscan, join_eq_absorb]
    rfl

/-! ## The way back -/

/-- Values are paired one after the other, if 32 bits have room for two steps beyond them. -/
theorem pairsFrom?_eq_ok {c : Codepoint} {vs : List Codepoint}
    (hroom : c.toNat + vs.length + 1 < UInt32.size) :
    pairsFrom? c vs = .ok (⟨c, vs⟩ : Interval).pairs := by
  induction vs generalizing c with
  | nil =>
    have hnext : c.next? = .ok (c + 1) := if_pos hroom
    rw [pairsFrom?, hnext]
    rfl
  | cons v vs ih =>
    rw [List.length_cons] at hroom
    have hnext : c.next? = .ok (c + 1) := if_pos (by omega)
    have hc := Codepoint.toNat_of_next?_eq_ok hnext
    have hrest : pairsFrom? (c + 1) vs = .ok (⟨c + 1, vs⟩ : Interval).pairs := ih (by omega)
    rw [pairsFrom?, hnext, pairs_cons]
    show (do return (c, v) :: (← pairsFrom? (c + 1) vs)) = _
    rw [hrest]
    rfl

/-- Counting up along an interval finds its pairs. -/
theorem pairs?_eq_ok (hroom : i.first.toNat + i.size + 1 < UInt32.size) :
    i.pairs? = .ok i.pairs :=
  pairsFrom?_eq_ok hroom

end Interval

end CaseFolding

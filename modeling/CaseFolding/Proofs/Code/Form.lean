import CaseFolding.Proofs.Code.Element
import CaseFolding.Proofs.Code.Yield
import CaseFolding.Proofs.Mapping.Fit
import CaseFolding.Stats

namespace CaseFolding

/-! # Code for closed forms

On a codepoint of its span, the code for a form delivers what the form
computes. Where a bound of an inner span is a bound of the outer one as well,
the code does not test it; that the codepoint lies in the outer span makes up
for the missing test.
-/

/-! ## Signed numbers -/

theorem ofInt_natCast (n : Nat) : UInt32.ofInt (n : Int) = UInt32.ofNat n := by
  apply UInt32.toNat.inj
  rw [UInt32.ofInt, UInt32.toNat_ofNat', UInt32.toNat_ofNat']
  omega

theorem Value.eval?_offset (tables : List ConstTable) (c : Codepoint) (delta : Int) :
    (Value.offset delta).eval? tables c = some (Form.offset c delta) := by
  unfold Value.offset Form.offset
  rw [UInt32.ofInt_add, ofInt_natCast, UInt32.ofNat_toNat]
  split
  next hzero => simp [eval?, hzero, UInt32.ofInt]
  next hzero =>
    split
    next hpos =>
      have hdelta : delta = (delta.natAbs : Int) := by omega
      rw [eval?, hdelta, ofInt_natCast]
      rfl
    next hneg =>
      have hdelta : delta = -(delta.natAbs : Int) := by omega
      rw [eval?, hdelta, UInt32.ofInt_neg, ofInt_natCast, UInt32.sub_eq_add_neg, Int.natAbs_neg]
      rfl

/-! ## Lookup tables -/

namespace Code

variable {program : Code} {sink : Sink} {c v : Codepoint} {jumps : Nat}

/-- The code of a lookup delivers the element at the distance of the codepoint. -/
theorem yields_lookup {span : Span} {values : List Codepoint}
    (hv : values[(c - span.first).toNat]? = some v) :
    Yields program sink c jumps (sink.lookup span values) v 0 := by
  intro rest s
  let s₁ : Trace := { s with tables := span.table values :: s.tables }
  have helement : (Element.holding values).keep v = v :=
    Element.keep_holding (List.mem_of_getElem? hv)
  have heval : (Value.entry span.tableName span.first).eval? s₁.tables c = some v := by
    -- the table was declared last and is found first
    simp [s₁, Value.eval?, Span.table, ConstTable.get?, hv, helement]
  have hwalk : (sink.lookup span values ++ rest).walk c s =
      (sink.ending v, { s₁ with assigned := s₁.assigned ++ sink.assignments v }) :=
    walk_deliver heval rest
  exact ⟨_, runFrom_of_walk hwalk (sink.ending_ne_jumped v), rfl, Nat.le_refl _⟩

end Code

/-! ## Guards -/

/-- A codepoint of the outer span passes the tests if and only if it lies in the inner span. -/
theorem Span.all_innerTests {outer : Span} (inner : Span) {c : Codepoint}
    (hc : outer.contains c = true) :
    (outer.innerTests inner).all (·.holds c) = inner.contains c := by
  rcases contains_iff.mp hc with ⟨hfirst, hlast⟩
  unfold innerTests
  rw [Bool.eq_iff_iff, contains_iff]
  split
  next heq =>
    -- a single codepoint
    rw [← heq]
    simp only [List.all_cons, List.all_nil, Bool.and_true, Test.holds, Relation.holds, beq_iff_eq]
    constructor
    · rintro rfl
      exact ⟨UInt32.le_refl _, UInt32.le_refl _⟩
    · rintro ⟨hge, hle⟩
      exact UInt32.le_antisymm hle hge
  next =>
    have hlow : (if outer.first < inner.first then [(⟨.ge, inner.first⟩ : Test)] else []).all
        (·.holds c) = true ↔ inner.first ≤ c := by
      split
      next => simp [Test.holds, Relation.holds]
      next hge =>
        have hbound := UInt32.le_trans (UInt32.not_lt.mp hge) hfirst
        simpa using hbound
    have hhigh : (if inner.last < outer.last then [(⟨.le, inner.last⟩ : Test)] else []).all
        (·.holds c) = true ↔ c ≤ inner.last := by
      split
      next => simp [Test.holds, Relation.holds]
      next hle =>
        have hbound := UInt32.le_trans hlast (UInt32.not_lt.mp hle)
        simpa using hbound
    rw [List.all_append, Bool.and_eq_true, hlow, hhigh]

/-! ## Forms -/

namespace Form

open Code

variable {program : Code} {sink : Sink} {c v : Codepoint} {jumps : Nat} {span : Span}

/-- The code for one deviating codepoint makes one test and adds the distance to all others. -/
theorem yields_deltaException (d : Int) (exception result : Codepoint) :
    Yields program sink c jumps ((deltaException d exception result).code sink span)
      (if c = exception then result else offset c d) 1 := by
  have htest : [(⟨.eq, exception⟩ : Test)].all (·.holds c) = (c == exception) := by
    simp [Test.holds, Relation.holds]
  by_cases heq : c = exception
  · rw [if_pos heq]
    refine Yields.guarded_true ?_ (yields_deliver fun _ => rfl)
    rw [htest, beq_iff_eq]
    exact heq
  · rw [if_neg heq]
    refine Yields.guarded_false ?_ (yields_deliver fun tables => Value.eval?_offset tables c d)
    rw [htest, beq_eq_false_iff_ne]
    exact heq

/-- The code for an inner span tests its bounds as far as the outer span leaves them open, and goes
on with the code for the form of its own or sets the lowest bit. -/
theorem yields_setException {inner : Span} {patch : Form} (hc : span.contains c = true)
    (hin : inner.contains c = true →
      Yields program sink c jumps (patch.code sink inner) v (patch.guards inner))
    (hout : ¬ inner.contains c = true → c ||| 1 = v) :
    Yields program sink c jumps ((setException inner patch).code sink span) v
      ((setException inner patch).guards span) := by
  have htests := Span.all_innerTests inner hc
  rw [code, guards]
  split
  next hnil =>
    -- no test is left to make: the inner span is all of the outer one
    have hinner : inner.contains c = true := by rw [← htests, hnil, List.all_nil]
    exact (hin hinner).mono_made (Nat.le_add_left _ _)
  next =>
    by_cases hinner : inner.contains c = true
    · exact Yields.guarded_true (htests.trans hinner) (hin hinner)
    · have hfails : (span.innerTests inner).all (·.holds c) = false := by
        rw [htests, Bool.eq_false_iff]
        exact hinner
      rcases hout hinner
      refine (Yields.guarded_false hfails (yields_deliver fun _ => rfl)).mono_made ?_
      exact Nat.add_le_add_left (Nat.zero_le _) _

/-- The code for a form that fits its span delivers what the form computes. -/
theorem yields_code {form : Form} (hfits : form.Fits span) (hc : span.contains c = true)
    (hv : form.apply span.first c = .ok v) :
    Yields program sink c jumps (form.code sink span) v (form.guards span) := by
  -- a patch is code for a span of its own, so the span varies in the induction
  induction form generalizing span with
  | single result =>
    rcases Except.ok.inj hv with rfl
    exact yields_deliver fun _ => rfl
  | delta d =>
    rcases Except.ok.inj hv with rfl
    exact yields_deliver fun tables => Value.eval?_offset tables c d
  | deltaException d exception result =>
    rcases Except.ok.inj hv with rfl
    exact yields_deltaException d exception result
  | set =>
    rcases Except.ok.inj hv with rfl
    exact yields_deliver fun _ => rfl
  | reset values =>
    rcases lookup_eq_ok hfits hc with ⟨w, hw, hlookup⟩
    rcases Except.ok.inj (hv.symm.trans hlookup) with rfl
    exact yields_lookup hw
  | table values =>
    rcases lookup_eq_ok hfits hc with ⟨w, hw, hlookup⟩
    rcases Except.ok.inj (hv.symm.trans hlookup) with rfl
    exact yields_lookup hw
  | setException inner patch ih =>
    rw [apply] at hv
    refine yields_setException hc ?_ ?_
    · intro hinner
      rw [if_pos hinner] at hv
      exact ih hfits hinner hv
    · intro hinner
      rw [if_neg hinner] at hv
      exact Except.ok.inj hv

end Form

end CaseFolding

import CaseFolding.Interval.Scan
import CaseFolding.Proofs.Interval.Basic
import CaseFolding.Proofs.Table.Basic
import Mathlib.Data.List.TakeWhile
import Mathlib.Tactic.ByContra

namespace CaseFolding

/-! # What a scan finds

The intervals of ascending entries hold all of these entries, and between them
nothing but codepoints that keep their own value. They start and end at entries
and lie apart. One entry after the other, from the highest to the lowest, is put
in front of them, and each step keeps all of this.
-/

namespace Interval

/-! ## Filling up -/

variable {lo hi c : Codepoint} {e : Entry} {i : Interval}

theorem mem_strictlyBetween : c ∈ strictlyBetween lo hi ↔ lo < c ∧ c < hi := by
  have hsize : hi.toNat < UInt32.size := hi.toNat_lt
  rw [strictlyBetween, List.mem_map, UInt32.lt_iff_toNat_lt, UInt32.lt_iff_toNat_lt]
  simp only [List.mem_range, ← add_ofNat_succ]
  constructor
  · rintro ⟨k, hk, rfl⟩
    rw [toNat_add_ofNat (by omega)]
    omega
  · rintro ⟨hlo, hhi⟩
    have hadd : c.toNat = lo.toNat + (c.toNat - lo.toNat - 1 + 1) := by omega
    exact ⟨_, by omega, (eq_add_ofNat hadd).symm⟩

theorem length_strictlyBetween (lo hi : Codepoint) :
    (strictlyBetween lo hi).length = hi.toNat - lo.toNat - 1 := by
  simp [strictlyBetween]

theorem strictlyBetween_of_next {lo hi : Codepoint} (h : hi.toNat ≤ lo.toNat + 1) :
    strictlyBetween lo hi = [] := by
  rw [strictlyBetween, Nat.sub_sub, Nat.sub_eq_zero_of_le h]
  rfl

theorem strictlyBetween_cons {lo hi : Codepoint} (h : lo.toNat + 1 < hi.toNat) :
    strictlyBetween lo hi = (lo + 1) :: strictlyBetween (lo + 1) hi := by
  have hhi : hi.toNat < UInt32.size := hi.toNat_lt
  have hnext : (lo + 1).toNat = lo.toNat + 1 := toNat_add_ofNat (k := 1) (by omega)
  have hlength : hi.toNat - lo.toNat - 1 = hi.toNat - (lo + 1).toNat - 1 + 1 := by omega
  rw [strictlyBetween, hlength, List.range_succ_eq_map, List.map_cons, List.map_map]
  refine congrArg₂ List.cons (UInt32.add_zero _) (List.map_congr_left ?_)
  intro k _
  exact add_ofNat_succ (lo + 1) k

theorem ascending_strictlyBetween (lo hi : Codepoint) : (strictlyBetween lo hi).Pairwise (· < ·) := by
  have hsize : hi.toNat < UInt32.size := hi.toNat_lt
  rw [strictlyBetween, List.pairwise_map]
  refine List.pairwise_lt_range.imp_of_mem ?_
  intro j k hj hk hjk
  rw [List.mem_range] at hj hk
  rw [UInt32.lt_iff_toNat_lt, ← add_ofNat_succ, ← add_ofNat_succ, toNat_add_ofNat (by omega),
    toNat_add_ofNat (by omega)]
  omega

theorem pairs_strictlyBetween (lo hi : Codepoint) :
    (⟨lo + 1, strictlyBetween lo hi⟩ : Interval).pairs =
      (strictlyBetween lo hi).map fun c => (c, c) := by
  apply List.ext_getElem
  · simp [size]
  · intro k hk _
    simp [pairs, strictlyBetween]

/-- An entry and the values of an interval above it, with the codepoints between. -/
def joined (e : Entry) (i : Interval) : Interval :=
  ⟨e.1, e.2 :: (strictlyBetween e.1 i.first ++ i.values)⟩

/-- Nothing but identities comes between the entry and the interval. -/
theorem pairs_joined (h : e.1 < i.first) :
    (joined e i).pairs = e :: ((strictlyBetween e.1 i.first).map fun c => (c, c)) ++ i.pairs := by
  have hstart : e.1 + 1 + UInt32.ofNat (strictlyBetween e.1 i.first).length = i.first := by
    rw [UInt32.lt_iff_toNat_lt] at h
    rw [length_strictlyBetween, ← add_ofNat_succ]
    exact (eq_add_ofNat (by omega)).symm
  rw [joined, pairs_cons, pairs_append, pairs_strictlyBetween, hstart]
  rfl

theorem size_joined (h : e.1 < i.first) :
    (joined e i).size = i.first.toNat - e.1.toNat + i.size := by
  rw [UInt32.lt_iff_toNat_lt] at h
  rw [size, joined, List.length_cons, List.length_append, length_strictlyBetween, size]
  omega

theorem isValid_joined (h : e.1 < i.first) (hi : i.IsValid) : (joined e i).IsValid := by
  have hsize := size_joined h
  have hbound := hi.bound
  rw [UInt32.lt_iff_toNat_lt] at h
  have hfirst : (joined e i).first.toNat = e.1.toNat := rfl
  constructor <;> omega

/-- Filling up does not move the end. -/
theorem last_joined (h : e.1 < i.first) (hi : i.IsValid) : (joined e i).last = i.last := by
  have hjoined := (isValid_joined h hi).toNat_last
  have hlast := hi.toNat_last
  have hsize := size_joined h
  have hfirst : (joined e i).first.toNat = e.1.toNat := rfl
  rw [UInt32.lt_iff_toNat_lt] at h
  apply UInt32.toNat.inj
  omega

theorem isValid_single (e : Entry) : (⟨e.1, [e.2]⟩ : Interval).IsValid :=
  ⟨Nat.one_pos, e.1.toNat_lt⟩

theorem pairs_single (e : Entry) : (⟨e.1, [e.2]⟩ : Interval).pairs = [e] := by
  rw [pairs_cons]
  rfl

theorem last_single (e : Entry) : (⟨e.1, [e.2]⟩ : Interval).last = e.1 := by
  apply UInt32.toNat.inj
  have hlast := (isValid_single e).toNat_last
  exact Nat.succ.inj hlast

/-! ## One step -/

/-- The intervals hold the entries and identities between them, start and end at entries, and lie
apart. -/
structure IsCut (es : List Entry) (is : List Interval) : Prop where
  valid : ∀ i ∈ is, i.IsValid
  apart : is.Pairwise fun a b => a.last < b.first
  first_mem : ∀ i ∈ is, ∃ e ∈ es, e.1 = i.first
  last_mem : ∀ i ∈ is, ∃ e ∈ es, e.1 = i.last
  covers : ∀ e ∈ es, ∃ i ∈ is, e ∈ i.pairs
  sound : ∀ i ∈ is, ∀ e ∈ i.pairs, e ∈ es ∨ isIdentity e = true ∧ ∀ d ∈ es, d.1 ≠ e.1

variable {es : List Entry} {is : List Interval}

theorem IsCut.lt_first (h : IsCut es is) (hlow : ∀ d ∈ es, c < d.1) {j : Interval}
    (hj : j ∈ is) : c < j.first := by
  rcases h.first_mem j hj with ⟨d, hd, hfirst⟩
  rw [← hfirst]
  exact hlow d hd

theorem IsCut.lt_of_mem_pairs (h : IsCut es is) (hlow : ∀ d ∈ es, c < d.1) {j : Interval}
    (hj : j ∈ is) {d : Entry} (hd : d ∈ j.pairs) : c < d.1 := by
  have hcontains := ((h.valid j hj).mem_pairs_iff.mp hd).1
  exact UInt32.lt_of_lt_of_le (h.lt_first hlow hj) (Span.contains_iff.mp hcontains).1

/-- Below the first interval there is no entry. -/
theorem IsCut.first_le (h : IsCut es (i :: is)) {d : Entry} (hd : d ∈ es) : i.first ≤ d.1 := by
  rcases h.covers d hd with ⟨j, hj, hpair⟩
  have hcontains := ((h.valid j hj).mem_pairs_iff.mp hpair).1
  have hfirst := (Span.contains_iff.mp hcontains).1
  rcases List.mem_cons.mp hj with rfl | hj
  · exact hfirst
  · have hapart := (List.pairwise_cons.mp h.apart).1 j hj
    have hvalid := (h.valid i (by simp)).first_le_last
    exact UInt32.le_of_lt (UInt32.lt_of_le_of_lt hvalid (UInt32.lt_of_lt_of_le hapart hfirst))

/-- What is sound stays so when an entry comes below all of it. -/
theorem IsCut.sound_above (h : IsCut es is) (hlow : ∀ d ∈ es, e.1 < d.1) {j : Interval}
    (hj : j ∈ is) {d : Entry} (hd : d ∈ j.pairs) :
    d ∈ e :: es ∨ isIdentity d = true ∧ ∀ k ∈ e :: es, k.1 ≠ d.1 := by
  rcases h.sound j hj d hd with hmem | ⟨hidentity, hne⟩
  · exact .inl (List.mem_cons_of_mem e hmem)
  · refine .inr ⟨hidentity, List.forall_mem_cons.mpr ⟨?_, hne⟩⟩
    exact UInt32.ne_of_lt (h.lt_of_mem_pairs hlow hj hd)

theorem exists_mem_cons {b : Codepoint} (e : Entry) (h : ∃ d ∈ es, d.1 = b) :
    ∃ d ∈ e :: es, d.1 = b := by
  rcases h with ⟨d, hd, heq⟩
  exact ⟨d, List.mem_cons_of_mem e hd, heq⟩

/-- An entry of its own stands in front of the intervals above it. -/
theorem IsCut.cons (h : IsCut es is) (hlow : ∀ d ∈ es, e.1 < d.1) :
    IsCut (e :: es) (⟨e.1, [e.2]⟩ :: is) where
  valid := List.forall_mem_cons.mpr ⟨isValid_single e, h.valid⟩
  apart := by
    refine List.pairwise_cons.mpr ⟨?_, h.apart⟩
    intro j hj
    rw [last_single]
    exact h.lt_first hlow hj
  first_mem := by
    refine List.forall_mem_cons.mpr ⟨⟨e, List.mem_cons_self, rfl⟩, ?_⟩
    intro j hj
    exact exists_mem_cons e (h.first_mem j hj)
  last_mem := by
    refine List.forall_mem_cons.mpr ⟨⟨e, List.mem_cons_self, (last_single e).symm⟩, ?_⟩
    intro j hj
    exact exists_mem_cons e (h.last_mem j hj)
  covers := by
    refine List.forall_mem_cons.mpr ⟨⟨_, List.mem_cons_self, by simp [pairs_single]⟩, ?_⟩
    intro d hd
    rcases h.covers d hd with ⟨j, hj, hpair⟩
    exact ⟨j, List.mem_cons_of_mem _ hj, hpair⟩
  sound := by
    refine List.forall_mem_cons.mpr ⟨?_, ?_⟩
    · intro d hd
      rw [pairs_single, List.mem_singleton] at hd
      rw [hd]
      exact .inl List.mem_cons_self
    · intro j hj d hd
      exact h.sound_above hlow hj hd

/-- Between an entry and the first interval above it no entry is passed over. -/
theorem IsCut.sound_joined (h : IsCut es (i :: is)) (hlow : ∀ d ∈ es, e.1 < d.1) {d : Entry}
    (hd : d ∈ (joined e i).pairs) :
    d ∈ e :: es ∨ isIdentity d = true ∧ ∀ k ∈ e :: es, k.1 ≠ d.1 := by
  rw [pairs_joined (h.lt_first hlow List.mem_cons_self), List.cons_append, List.mem_cons,
    List.mem_append, List.mem_map] at hd
  rcases hd with rfl | ⟨c, hc, rfl⟩ | hd
  · exact .inl List.mem_cons_self
  · -- a codepoint that was filled in
    rcases mem_strictlyBetween.mp hc with ⟨hec, hci⟩
    refine .inr ⟨by simp [isIdentity], List.forall_mem_cons.mpr ⟨UInt32.ne_of_lt hec, ?_⟩⟩
    intro k hk
    exact (UInt32.ne_of_lt (UInt32.lt_of_lt_of_le hci (h.first_le hk))).symm
  · exact h.sound_above hlow List.mem_cons_self hd

/-- An entry is joined to the first of the intervals above it. -/
theorem IsCut.join (h : IsCut es (i :: is)) (hlow : ∀ d ∈ es, e.1 < d.1) :
    IsCut (e :: es) (joined e i :: is) := by
  have hi : i.IsValid := h.valid i List.mem_cons_self
  have hlt : e.1 < i.first := h.lt_first hlow List.mem_cons_self
  have hlast := last_joined hlt hi
  rcases List.pairwise_cons.mp h.apart with ⟨hapart, hrest⟩
  constructor
  case valid =>
    refine List.forall_mem_cons.mpr ⟨isValid_joined hlt hi, ?_⟩
    intro j hj
    exact h.valid j (List.mem_cons_of_mem i hj)
  case apart =>
    refine List.pairwise_cons.mpr ⟨?_, hrest⟩
    intro j hj
    rw [hlast]
    exact hapart j hj
  case first_mem =>
    refine List.forall_mem_cons.mpr ⟨⟨e, List.mem_cons_self, rfl⟩, ?_⟩
    intro j hj
    exact exists_mem_cons e (h.first_mem j (List.mem_cons_of_mem i hj))
  case last_mem =>
    refine List.forall_mem_cons.mpr ⟨?_, ?_⟩
    · rw [hlast]
      exact exists_mem_cons e (h.last_mem i List.mem_cons_self)
    · intro j hj
      exact exists_mem_cons e (h.last_mem j (List.mem_cons_of_mem i hj))
  case covers =>
    have hpairs := pairs_joined hlt
    refine List.forall_mem_cons.mpr ⟨⟨_, List.mem_cons_self, by simp [hpairs]⟩, ?_⟩
    intro d hd
    rcases h.covers d hd with ⟨j, hj, hpair⟩
    rcases List.mem_cons.mp hj with rfl | hj
    · exact ⟨_, List.mem_cons_self, by simp [hpairs, hpair]⟩
    · exact ⟨j, List.mem_cons_of_mem _ hj, hpair⟩
  case sound =>
    refine List.forall_mem_cons.mpr ⟨fun d hd => h.sound_joined hlow hd, ?_⟩
    intro j hj d hd
    exact h.sound_above hlow (List.mem_cons_of_mem i hj) hd

/-! ## The scan -/

/-- The scan of ascending entries. -/
theorem isCut_scan (gap : UInt32) {es : List Entry} (h : es.Pairwise fun a b => a.1 < b.1) :
    IsCut es (scan gap es) := by
  -- on the entries from the lowest on, so that each one meets the intervals of those above it
  induction es with
  | nil => exact ⟨nofun, .nil, nofun, nofun, nofun, nofun⟩
  | cons e es ih =>
    rcases List.pairwise_cons.mp h with ⟨hlow, hes⟩
    have ih := ih hes
    have hstep : scan gap (e :: es) = Interval.join gap e (scan gap es) := rfl
    rw [hstep]
    cases hscan : scan gap es with
    | nil => exact (hscan ▸ ih).cons hlow
    | cons i is =>
      rw [hscan] at ih
      unfold Interval.join
      dsimp only
      split
      · exact ih.join hlow
      · exact ih.cons hlow

/-! ## Identities at the ends -/

/-- Nothing but identities is dropped. -/
theorem exists_trimIdentity (es : List Entry) : ∃ before after,
    es = before ++ trimIdentity es ++ after ∧
      ∀ e ∈ before ++ after, isIdentity e = true := by
  let rest := es.dropWhile isIdentity
  have hfront : es.takeWhile isIdentity ++ rest = es := List.takeWhile_append_dropWhile
  have hback : rest = trimIdentity es ++ (rest.reverse.takeWhile isIdentity).reverse := by
    have hsplit := List.takeWhile_append_dropWhile (p := isIdentity) (l := rest.reverse)
    have hreverse := congrArg List.reverse hsplit
    rw [List.reverse_append, List.reverse_reverse] at hreverse
    exact hreverse.symm
  refine ⟨es.takeWhile isIdentity, (rest.reverse.takeWhile isIdentity).reverse, ?_, ?_⟩
  · rw [List.append_assoc, ← hback, hfront]
  · intro e he
    rw [List.mem_append, List.mem_reverse] at he
    rcases he with he | he
    · exact List.mem_takeWhile_imp he
    · exact List.mem_takeWhile_imp he

theorem mem_of_mem_trimIdentity {es : List Entry} {e : Entry} (h : e ∈ trimIdentity es) :
    e ∈ es := by
  rcases exists_trimIdentity es with ⟨before, after, heq, -⟩
  rw [heq]
  simp [h]

/-- Every other entry stays. -/
theorem mem_trimIdentity {es : List Entry} {e : Entry} (h : e ∈ es)
    (he : isIdentity e = false) : e ∈ trimIdentity es := by
  rcases exists_trimIdentity es with ⟨before, after, heq, hidentity⟩
  rw [heq, List.append_assoc, List.mem_append, List.mem_append] at h
  rcases h with h | h | h
  · exact absurd (hidentity e (by simp [h])) (by simp [he])
  · exact h
  · exact absurd (hidentity e (by simp [h])) (by simp [he])

theorem ascending_trimIdentity {es : List Entry} (h : es.Pairwise fun a b => a.1 < b.1) :
    (trimIdentity es).Pairwise fun a b => a.1 < b.1 := by
  rcases exists_trimIdentity es with ⟨before, after, heq, -⟩
  rw [heq, List.append_assoc, List.pairwise_append, List.pairwise_append] at h
  exact h.2.1.1

end Interval

/-! ## The intervals of a table -/

open CaseFolding.Interval

namespace Table

variable {t : Table} {s : Span} {gap : UInt32} {i : Interval} {c v : Codepoint}

/-- The intervals cut the entries within the span, but for identities at the ends. -/
theorem isCut_intervals (t : Table) (s : Span) (gap : UInt32) :
    IsCut (trimIdentity (t.within s)) (t.intervals s gap) :=
  isCut_scan gap (ascending_trimIdentity (t.ascending.filter _))

theorem isValid_of_mem_intervals (hi : i ∈ t.intervals s gap) : i.IsValid :=
  (t.isCut_intervals s gap).valid i hi

theorem intervals?_eq_ok (t : Table) (hs : s.first ≤ s.last) (gap : UInt32) :
    t.intervals? s gap = .ok (t.intervals s gap) := by
  rw [intervals?, t.query_eq_ok hs]
  rfl

theorem mem_within {e : Entry} : e ∈ t.within s ↔ e ∈ t.entries ∧ s.contains e.1 = true := by
  rw [within, List.mem_filter]

/-- No interval reaches out of the span. -/
theorem contains_of_mem_intervals (hi : i ∈ t.intervals s gap) (hc : i.contains c = true) :
    s.contains c = true := by
  have hcut := t.isCut_intervals s gap
  rcases hcut.first_mem i hi with ⟨d, hd, hfirst⟩
  rcases hcut.last_mem i hi with ⟨e, he, hlast⟩
  have hd := (mem_within.mp (mem_of_mem_trimIdentity hd)).2
  have he := (mem_within.mp (mem_of_mem_trimIdentity he)).2
  rw [hfirst, Span.contains_iff] at hd
  rw [hlast, Span.contains_iff] at he
  rcases Span.contains_iff.mp hc with ⟨hle, hge⟩
  exact Span.contains_iff.mpr ⟨UInt32.le_trans hd.1 hle, UInt32.le_trans hge he.2⟩

/-- The values of an interval are what its codepoints fold to. -/
theorem fold_of_mem_pairs (hi : i ∈ t.intervals s gap) (h : (c, v) ∈ i.pairs) : t.fold c = v := by
  have hcut := t.isCut_intervals s gap
  rcases hcut.sound i hi _ h with hmem | ⟨hidentity, hne⟩
  · -- the codepoint has an entry
    exact fold_of_mem (mem_within.mp (mem_of_mem_trimIdentity hmem)).1
  · -- the codepoint has no entry, or one that was dropped as an identity
    have hv : c = v := by simpa [isIdentity] using hidentity
    rw [← hv]
    by_contra hfold
    have hs := contains_of_mem_intervals hi ((hcut.valid i hi).mem_pairs_iff.mp h).1
    have hwithin : (c, t.fold c) ∈ t.within s := mem_within.mpr ⟨mem_of_fold_ne hfold, hs⟩
    have hkept := mem_trimIdentity hwithin (by simpa [isIdentity] using Ne.symm hfold)
    exact hne _ hkept rfl

/-- A codepoint of the span that folds to something else is in an interval. -/
theorem exists_interval_of_fold_ne (gap : UInt32) (hs : s.contains c = true)
    (h : t.fold c ≠ c) : ∃ i ∈ t.intervals s gap, i.contains c = true := by
  have hcut := t.isCut_intervals s gap
  have hwithin : (c, t.fold c) ∈ t.within s := mem_within.mpr ⟨mem_of_fold_ne h, hs⟩
  have hkept := mem_trimIdentity hwithin (by simpa [isIdentity] using Ne.symm h)
  rcases hcut.covers _ hkept with ⟨i, hi, hpair⟩
  exact ⟨i, hi, ((hcut.valid i hi).mem_pairs_iff.mp hpair).1⟩

end Table

end CaseFolding

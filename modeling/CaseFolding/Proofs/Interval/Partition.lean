import CaseFolding.Proofs.Interval.Gather
import Mathlib.Data.List.Pairwise

namespace CaseFolding

/-! # Intervals are the runs of near codepoints

Of the codepoints with an entry in a span, those count that lie between the first and
the last one that fold to something else. Where two of them that follow each other
are near, they share an interval, and where they are not, one interval ends and the
next one starts. So the intervals are the runs into which wide gaps cut these
codepoints, and gathering them goes through without a fault.
-/

namespace Interval

/-! ## The entries that count -/

/-- In an ordered list, elements are dropped until one comes that has to stay. -/
theorem mem_dropWhile_iff {α : Type} {p : α → Bool} {r : α → α → Prop}
    (hasymm : ∀ a b, r a b → ¬ r b a) {as : List α} (h : as.Pairwise r) {b : α} :
    b ∈ as.dropWhile p ↔ b ∈ as ∧ ∃ a ∈ as, p a = false ∧ (a = b ∨ r a b) := by
  induction as with
  | nil => simp
  | cons d ds ih =>
    rcases List.pairwise_cons.mp h with ⟨hd, hds⟩
    cases hp : p d with
    | true =>
      rw [List.dropWhile_cons_of_pos hp, ih hds]
      constructor
      · rintro ⟨hb, a, ha, hpa, hab⟩
        exact ⟨List.mem_cons_of_mem d hb, a, List.mem_cons_of_mem d ha, hpa, hab⟩
      · rintro ⟨hb, a, ha, hpa, hab⟩
        rcases List.mem_cons.mp ha with rfl | hads
        · exact absurd (hp.symm.trans hpa) nofun
        · refine ⟨?_, a, hads, hpa, hab⟩
          rcases List.mem_cons.mp hb with rfl | hbds
          · rcases hab with rfl | hab
            · exact hads
            · exact absurd hab (hasymm _ _ (hd a hads))
          · exact hbds
    | false =>
      rw [List.dropWhile_cons_of_neg (by simp [hp])]
      constructor
      · intro hb
        refine ⟨hb, d, List.mem_cons_self, hp, ?_⟩
        rcases List.mem_cons.mp hb with rfl | hb
        · exact .inl rfl
        · exact .inr (hd b hb)
      · exact And.left

/-- In an ordered list, the search for a property ends at the first element that has it. -/
theorem eq_or_rel_of_find? {α : Type} {p : α → Bool} {r : α → α → Prop} {as : List α}
    (h : as.Pairwise r) {a b : α} (ha : as.find? p = some a) (hb : b ∈ as) (hp : p b = true) :
    b = a ∨ r a b := by
  rcases List.find?_eq_some_iff_append.mp ha with ⟨-, before, after, rfl, hbefore⟩
  rcases List.mem_append.mp hb with hmem | hmem
  · exact absurd hp (by simpa using hbefore b hmem)
  · rcases List.mem_cons.mp hmem with rfl | hmem
    · exact .inl rfl
    · exact .inr ((List.pairwise_cons.mp (List.pairwise_append.mp h).2.1).1 b hmem)

theorem rel_or_rel_of_pairwise {α : Type} {r : α → α → Prop} {as : List α} (h : as.Pairwise r)
    {a b : α} (ha : a ∈ as) (hb : b ∈ as) (hab : a ≠ b) : r a b ∨ r b a := by
  have hsymm : Std.Symm fun a b => r a b ∨ r b a := ⟨fun _ _ => Or.symm⟩
  have hor : as.Pairwise fun a b => r a b ∨ r b a := h.imp .inl
  exact hor.forall ha hb hab

variable {es : List Entry} {is : List Interval} {i : Interval} {e : Entry} {gap : UInt32}

/-- Between entries that do not fold to themselves all entries stay, and all others are dropped. -/
theorem mem_trimIdentity_iff (h : es.Pairwise fun a b => a.1 < b.1) :
    e ∈ trimIdentity es ↔ e ∈ es ∧ (∃ a ∈ es, isIdentity a = false ∧ a.1 ≤ e.1) ∧
      ∃ b ∈ es, isIdentity b = false ∧ e.1 ≤ b.1 := by
  have hasymm : ∀ a b : Entry, a.1 < b.1 → ¬ b.1 < a.1 := fun _ _ => UInt32.lt_asymm
  have hle : ∀ {a b : Entry}, a ∈ es → b ∈ es → ((a = b ∨ a.1 < b.1) ↔ a.1 ≤ b.1) := by
    intro a b ha hb
    constructor
    · rintro (rfl | hlt)
      · exact UInt32.le_refl _
      · exact UInt32.le_of_lt hlt
    · intro hle
      rcases UInt32.lt_or_eq_of_le hle with hlt | heq
      · exact .inr hlt
      · exact .inl (Table.eq_of_ascending h ha hb heq)
  have hfront : ∀ {a : Entry}, a ∈ es.dropWhile isIdentity ↔
      a ∈ es ∧ ∃ d ∈ es, isIdentity d = false ∧ (d = a ∨ d.1 < a.1) :=
    mem_dropWhile_iff hasymm h
  have hback : (es.dropWhile isIdentity).reverse.Pairwise fun a b => b.1 < a.1 := by
    rw [List.pairwise_reverse]
    exact h.sublist (List.dropWhile_sublist _)
  rw [trimIdentity, List.mem_reverse, mem_dropWhile_iff (fun a b => hasymm b a) hback,
    List.mem_reverse, hfront]
  constructor
  · rintro ⟨⟨he, a, ha, hpa, hae⟩, b, hb, hpb, hbe⟩
    have hb := (hfront.mp (List.mem_reverse.mp hb)).1
    exact ⟨he, ⟨a, ha, hpa, (hle ha he).mp hae⟩, b, hb, hpb, (hle he hb).mp (hbe.imp_left Eq.symm)⟩
  · rintro ⟨he, ⟨a, ha, hpa, hae⟩, b, hb, hpb, hbe⟩
    refine ⟨⟨he, a, ha, hpa, (hle ha he).mpr hae⟩, b, ?_, hpb,
      ((hle he hb).mpr hbe).imp_left Eq.symm⟩
    exact List.mem_reverse.mpr (hfront.mpr ⟨hb, b, hb, hpb, .inl rfl⟩)

/-! ## Runs -/

/-- Intervals lie further apart than the gap, and in each of them entries that follow each other
are near. -/
structure IsSpaced (gap : UInt32) (es : List Entry) (is : List Interval) : Prop where
  apart : is.Pairwise fun a b => a.last.toNat + gap.toNat < b.first.toNat
  near : ∀ i ∈ is, ∀ a ∈ es, ∀ b ∈ es, i.contains a.1 = true → i.contains b.1 = true →
    a.1 < b.1 → (∀ d ∈ es, ¬ (a.1 < d.1 ∧ d.1 < b.1)) → isNear gap a.1 b.1 = true

/-- An entry in an interval above a further entry is not that one. -/
theorem IsCut.mem_of_contains (hcut : IsCut es is) (hlow : ∀ d ∈ es, e.1 < d.1) {j : Interval}
    (hj : j ∈ is) {a : Entry} (ha : a ∈ e :: es) (hcontains : j.contains a.1 = true) : a ∈ es := by
  rcases List.mem_cons.mp ha with rfl | ha
  · have hfirst := (Span.contains_iff.mp hcontains).1
    exact absurd (hcut.lt_first hlow hj) (UInt32.not_lt.mpr hfirst)
  · exact ha

/-- In the intervals above, an entry further down changes nothing. -/
theorem IsSpaced.near_above (h : IsSpaced gap es is) (hcut : IsCut es is)
    (hlow : ∀ d ∈ es, e.1 < d.1) {j : Interval} (hj : j ∈ is) {a b : Entry} (ha : a ∈ e :: es)
    (hb : b ∈ e :: es) (hja : j.contains a.1 = true) (hjb : j.contains b.1 = true)
    (hab : a.1 < b.1) (hnone : ∀ d ∈ e :: es, ¬ (a.1 < d.1 ∧ d.1 < b.1)) :
    isNear gap a.1 b.1 = true := by
  have ha := hcut.mem_of_contains hlow hj ha hja
  have hb := hcut.mem_of_contains hlow hj hb hjb
  exact h.near j hj a ha b hb hja hjb hab fun d hd => hnone d (List.mem_cons_of_mem e hd)

/-- An entry of its own, out of reach of the first interval above. -/
theorem IsSpaced.cons (h : IsSpaced gap es is) (hcut : IsCut es is) (hlow : ∀ d ∈ es, e.1 < d.1)
    (hfar : ∀ j ∈ is, e.1.toNat + gap.toNat < j.first.toNat) :
    IsSpaced gap (e :: es) (⟨e.1, [e.2]⟩ :: is) := by
  constructor
  case apart =>
    refine List.pairwise_cons.mpr ⟨?_, h.apart⟩
    intro j hj
    rw [last_single]
    exact hfar j hj
  case near =>
    refine List.forall_mem_cons.mpr ⟨?_, fun j hj a ha b hb => h.near_above hcut hlow hj ha hb⟩
    intro a _ b _ hja hjb hab
    -- one codepoint alone has no other one above it
    have hvalid := isValid_single e
    rw [hvalid.contains_iff] at hja hjb
    rw [UInt32.lt_iff_toNat_lt] at hab
    have hsize : (⟨e.1, [e.2]⟩ : Interval).size = 1 := rfl
    omega

/-- An entry that is joined to the first interval above. -/
theorem IsSpaced.join (h : IsSpaced gap es (i :: is)) (hcut : IsCut es (i :: is))
    (hlow : ∀ d ∈ es, e.1 < d.1) (hnear : isNear gap e.1 i.first = true) :
    IsSpaced gap (e :: es) (joined e i :: is) := by
  have hi : i.IsValid := hcut.valid i List.mem_cons_self
  have hlt : e.1 < i.first := hcut.lt_first hlow List.mem_cons_self
  have hlast := last_joined hlt hi
  rcases List.pairwise_cons.mp h.apart with ⟨hapart, hrest⟩
  -- above the entry, the joined interval has nothing but the interval
  have hinside : ∀ {d : Entry}, d ∈ es → (joined e i).contains d.1 = true →
      i.contains d.1 = true := by
    intro d hd hcontains
    have hle := (Span.contains_iff.mp hcontains).2
    change d.1 ≤ (joined e i).last at hle
    rw [hlast] at hle
    exact Span.contains_iff.mpr ⟨hcut.first_le hd, hle⟩
  constructor
  case apart =>
    refine List.pairwise_cons.mpr ⟨?_, hrest⟩
    intro j hj
    rw [hlast]
    exact hapart j hj
  case near =>
    refine List.forall_mem_cons.mpr ⟨?_, ?_⟩
    · intro a ha b hb hja hjb hab hnone
      rcases List.mem_cons.mp hb with rfl | hbes
      · rcases List.mem_cons.mp ha with rfl | haes
        · exact absurd hab (UInt32.lt_irrefl _)
        · exact absurd hab (UInt32.lt_asymm (hlow a haes))
      · rcases List.mem_cons.mp ha with rfl | haes
        · -- the next entry is the first one of the interval
          rcases hcut.first_mem i List.mem_cons_self with ⟨d, hd, hfirst⟩
          have hle : ¬ i.first < b.1 := by
            intro hib
            refine hnone d (List.mem_cons_of_mem a hd) ?_
            rw [hfirst]
            exact ⟨hlt, hib⟩
          rw [UInt32.le_antisymm (UInt32.not_lt.mp hle) (hcut.first_le hbes)]
          exact hnear
        · exact h.near i List.mem_cons_self a haes b hbes (hinside haes hja) (hinside hbes hjb) hab
            fun d hd => hnone d (List.mem_cons_of_mem e hd)
    · intro j hj a ha b hb
      exact h.near_above hcut hlow (List.mem_cons_of_mem i hj) ha hb

/-- The scan of ascending entries finds their runs. -/
theorem isSpaced_scan (gap : UInt32) (h : es.Pairwise fun a b => a.1 < b.1) :
    IsSpaced gap es (scan gap es) := by
  induction es with
  | nil => exact ⟨.nil, nofun⟩
  | cons e es ih =>
    rcases List.pairwise_cons.mp h with ⟨hlow, hes⟩
    have ih := ih hes
    have hcut := isCut_scan gap hes
    have hstep : scan gap (e :: es) = Interval.join gap e (scan gap es) := rfl
    rw [hstep]
    cases hscan : scan gap es with
    | nil =>
      rw [hscan] at ih hcut
      exact ih.cons hcut hlow nofun
    | cons i is =>
      rw [hscan] at ih hcut
      unfold Interval.join
      dsimp only
      split
      next hnear => exact ih.join hcut hlow hnear
      next hfar =>
        have hfar : e.1.toNat + gap.toNat < i.first.toNat := by simpa [isNear] using hfar
        refine ih.cons hcut hlow (List.forall_mem_cons.mpr ⟨hfar, ?_⟩)
        intro j hj
        have hapart := (List.pairwise_cons.mp ih.apart).1 j hj
        have hle := UInt32.le_iff_toNat_le.mp (hcut.valid i List.mem_cons_self).first_le_last
        omega

end Interval

/-! ## The intervals of a table -/

open CaseFolding.Interval

namespace Table

variable {t : Table} {s : Span} {gap : UInt32} {c d : Codepoint}

/-- A codepoint of a span with an entry, between the first and the last one there that fold to
something else. -/
structure IsScanned (t : Table) (s : Span) (c : Codepoint) : Prop where
  entry : ∃ v, t.get? c = some v
  within : s.contains c = true
  above : ∃ a, s.contains a = true ∧ t.fold a ≠ a ∧ a ≤ c
  below : ∃ b, s.contains b = true ∧ t.fold b ≠ b ∧ c ≤ b

theorem ascending_within (t : Table) (s : Span) :
    (t.within s).Pairwise fun a b => a.1 < b.1 :=
  t.ascending.filter _

/-- Among the entries of a span, one that is no identity tells of a codepoint that folds to
something else. -/
theorem exists_mem_within_iff {p : Codepoint → Prop} :
    (∃ a ∈ t.within s, isIdentity a = false ∧ p a.1) ↔
      ∃ a, s.contains a = true ∧ t.fold a ≠ a ∧ p a := by
  constructor
  · rintro ⟨a, ha, hidentity, hp⟩
    rcases mem_within.mp ha with ⟨hmem, hcontains⟩
    have hne : a.1 ≠ a.2 := by simpa [isIdentity] using hidentity
    refine ⟨a.1, hcontains, ?_, hp⟩
    rw [fold_of_mem hmem]
    exact hne.symm
  · rintro ⟨a, hcontains, hfold, hp⟩
    refine ⟨(a, t.fold a), mem_within.mpr ⟨mem_of_fold_ne hfold, hcontains⟩, ?_, hp⟩
    simpa [isIdentity] using hfold.symm

/-- The codepoints of the entries that are scanned. -/
theorem exists_mem_trimIdentity_iff :
    (∃ e ∈ trimIdentity (t.within s), e.1 = c) ↔ t.IsScanned s c := by
  constructor
  · rintro ⟨e, he, rfl⟩
    obtain ⟨hmem, habove, hbelow⟩ := (mem_trimIdentity_iff (t.ascending_within s)).mp he
    rcases mem_within.mp hmem with ⟨hentry, hcontains⟩
    exact ⟨⟨e.2, get?_eq_some_iff.mpr hentry⟩, hcontains,
      exists_mem_within_iff.mp habove, exists_mem_within_iff.mp hbelow⟩
  · rintro ⟨⟨v, hv⟩, hcontains, habove, hbelow⟩
    have hmem : (c, v) ∈ t.within s := mem_within.mpr ⟨get?_eq_some_iff.mp hv, hcontains⟩
    exact ⟨(c, v), (mem_trimIdentity_iff (t.ascending_within s)).mpr
      ⟨hmem, exists_mem_within_iff.mpr habove, exists_mem_within_iff.mpr hbelow⟩, rfl⟩

/-- The search from below ends at the lowest codepoint that folds to something else, and the one
from above at the highest. So what lies between them is scanned. -/
theorem within_eq_trimIdentity {a b : Entry}
    (ha : (t.within s).find? (!isIdentity ·) = some a)
    (hb : (t.within s).reverse.find? (!isIdentity ·) = some b) :
    a.1 ≤ b.1 ∧ t.within ⟨a.1, b.1⟩ = trimIdentity (t.within s) := by
  have hes := t.ascending_within s
  have hreverse : (t.within s).reverse.Pairwise fun a b => b.1 < a.1 :=
    List.pairwise_reverse.mpr hes
  have hamem : a ∈ t.within s := List.mem_of_find?_eq_some ha
  have hbmem : b ∈ t.within s := List.mem_reverse.mp (List.mem_of_find?_eq_some hb)
  have hap : isIdentity a = false := by simpa using List.find?_some ha
  have hbp : isIdentity b = false := by simpa using List.find?_some hb
  have hlowest : ∀ d ∈ t.within s, isIdentity d = false → a.1 ≤ d.1 := by
    intro d hd hp
    rcases eq_or_rel_of_find? hes ha hd (by simp [hp]) with rfl | hlt
    · exact UInt32.le_refl _
    · exact UInt32.le_of_lt hlt
  have hhighest : ∀ d ∈ t.within s, isIdentity d = false → d.1 ≤ b.1 := by
    intro d hd hp
    rcases eq_or_rel_of_find? hreverse hb (List.mem_reverse.mpr hd) (by simp [hp]) with rfl | hlt
    · exact UInt32.le_refl _
    · exact UInt32.le_of_lt hlt
  refine ⟨hlowest b hbmem hbp, eq_of_mem_iff (t.ascending_within _) (ascending_trimIdentity hes) ?_⟩
  intro e
  rw [mem_trimIdentity_iff hes, mem_within, Span.contains_iff]
  constructor
  · rintro ⟨he, hae, heb⟩
    have hcontains : s.contains e.1 = true := by
      have hafirst := (Span.contains_iff.mp (mem_within.mp hamem).2).1
      have hblast := (Span.contains_iff.mp (mem_within.mp hbmem).2).2
      exact Span.contains_iff.mpr ⟨UInt32.le_trans hafirst hae, UInt32.le_trans heb hblast⟩
    exact ⟨mem_within.mpr ⟨he, hcontains⟩, ⟨a, hamem, hap, hae⟩, b, hbmem, hbp, heb⟩
  · rintro ⟨he, ⟨a', ha', hap', hae⟩, b', hb', hbp', heb⟩
    exact ⟨(mem_within.mp he).1, UInt32.le_trans (hlowest a' ha' hap') hae,
      UInt32.le_trans heb (hhighest b' hb' hbp')⟩

/-- Gathering goes through within a span whose bounds are in order, and finds its intervals. -/
theorem gather?_eq_ok (t : Table) (hs : s.first ≤ s.last) (gap : UInt32) :
    t.gather? s gap = .ok (t.intervals s gap) := by
  have hes := t.ascending_within s
  have hquery : t.query s = .ok (t.within s) := t.query_eq_ok hs
  unfold gather?
  rw [hquery]
  dsimp only [bind, Except.bind]
  split
  next a b ha hb =>
    rcases within_eq_trimIdentity ha hb with ⟨hab, hwithin⟩
    have hquery : t.query ⟨a.1, b.1⟩ = .ok (t.within ⟨a.1, b.1⟩) := t.query_eq_ok hab
    rw [hquery, hwithin]
    exact Interval.gather?_eq_ok gap (ascending_trimIdentity hes)
  next hnone =>
    -- there is nothing but identities
    have hidentity : ∀ e ∈ t.within s, isIdentity e = true := by
      intro e he
      cases hp : isIdentity e with
      | true => rfl
      | false =>
        have hsome : ∀ as : List Entry, e ∈ as → ∃ a, as.find? (!isIdentity ·) = some a := by
          intro as he
          exact Option.isSome_iff_exists.mp (List.find?_isSome.mpr ⟨e, he, by simp [hp]⟩)
        rcases hsome _ he with ⟨a, ha⟩
        rcases hsome _ (List.mem_reverse.mpr he) with ⟨b, hb⟩
        exact (hnone a b ha hb).elim
    have hempty : trimIdentity (t.within s) = [] := by
      refine List.eq_nil_iff_forall_not_mem.mpr ?_
      intro e he
      obtain ⟨-, ⟨a, ha, hap, -⟩, -⟩ := (mem_trimIdentity_iff hes).mp he
      exact absurd ((hidentity a ha).symm.trans hap) nofun
    rw [intervals, hempty]
    rfl

/-! ## The intervals of a table are runs -/

/-- The intervals of a table cut what is scanned of it into runs. -/
theorem isSpaced_intervals (t : Table) (s : Span) (gap : UInt32) :
    IsSpaced gap (trimIdentity (t.within s)) (t.intervals s gap) :=
  isSpaced_scan gap (ascending_trimIdentity (t.ascending_within s))

/-- Two intervals that hold codepoints no further apart than the gap are one. -/
theorem eq_of_near {i j : Interval} (hi : i ∈ t.intervals s gap) (hj : j ∈ t.intervals s gap)
    (hc : i.contains c = true) (hd : j.contains d = true) (hcd : c ≤ d)
    (hnear : d.toNat ≤ c.toNat + gap.toNat) : i = j := by
  by_contra hne
  have hapart := rel_or_rel_of_pairwise (t.isSpaced_intervals s gap).apart hi hj hne
  rcases Span.contains_iff.mp hc with ⟨hic, hci⟩
  rcases Span.contains_iff.mp hd with ⟨hjd, hdj⟩
  change i.first ≤ c at hic
  change c ≤ i.last at hci
  change j.first ≤ d at hjd
  change d ≤ j.last at hdj
  simp only [UInt32.le_iff_toNat_le] at hic hci hjd hdj hcd
  omega

/-- The value of each codepoint of an interval is what the codepoint folds to. -/
theorem getElem_values {i : Interval} (hi : i ∈ t.intervals s gap) {k : Nat}
    (hk : k < i.values.length) : i.values[k] = t.fold (i.first + UInt32.ofNat k) := by
  have hpair : (i.first + UInt32.ofNat k, i.values[k]) ∈ i.pairs :=
    mem_pairs.mpr ⟨k, List.getElem?_eq_getElem hk, rfl⟩
  exact (fold_of_mem_pairs hi hpair).symm

/-- Within a span whose bounds are in order, gathering goes through and finds the runs of the
codepoints that are scanned: each interval starts and ends at one of them, each of them lies in one
interval, and two that follow each other share it just if they are no further apart than the gap.
The intervals ascend and lie further apart than that, and hold what their codepoints fold to. -/
theorem intervals_are_runs (t : Table) {s : Span} (hs : s.first ≤ s.last) (gap : UInt32) :
    ∃ is, t.gather? s gap = .ok is ∧ t.intervals? s gap = .ok is ∧
      (∀ i ∈ is, t.IsScanned s i.first ∧ t.IsScanned s i.last) ∧
      (∀ c, t.IsScanned s c → ∃! i, i ∈ is ∧ i.contains c = true) ∧
      (∀ c d, t.IsScanned s c → t.IsScanned s d → c < d →
        (∀ k, t.IsScanned s k → ¬ (c < k ∧ k < d)) →
          ((∃ i ∈ is, i.contains c = true ∧ i.contains d = true) ↔
            d.toNat - c.toNat ≤ gap.toNat)) ∧
      (is.Pairwise fun a b => a.last < b.first ∧ gap.toNat < b.first.toNat - a.last.toNat) ∧
      ∀ i ∈ is, i.first ≤ i.last ∧ i.values.length = i.last.toNat - i.first.toNat + 1 ∧
        ∀ (k : Nat) (hk : k < i.values.length), i.values[k] = t.fold (i.first + UInt32.ofNat k) := by
  have hcut := t.isCut_intervals s gap
  have hspaced := t.isSpaced_intervals s gap
  have hcovers : ∀ {c : Codepoint}, t.IsScanned s c →
      ∃ i ∈ t.intervals s gap, i.contains c = true := by
    intro c hc
    rcases exists_mem_trimIdentity_iff.mpr hc with ⟨e, he, rfl⟩
    rcases hcut.covers e he with ⟨i, hi, hpair⟩
    exact ⟨i, hi, ((hcut.valid i hi).mem_pairs_iff.mp hpair).1⟩
  refine ⟨_, t.gather?_eq_ok hs gap, t.intervals?_eq_ok hs gap, ?_, ?_, ?_, ?_, ?_⟩
  · intro i hi
    exact ⟨exists_mem_trimIdentity_iff.mp (hcut.first_mem i hi),
      exists_mem_trimIdentity_iff.mp (hcut.last_mem i hi)⟩
  · intro c hc
    rcases hcovers hc with ⟨i, hi, hic⟩
    refine ⟨i, ⟨hi, hic⟩, ?_⟩
    rintro j ⟨hj, hjc⟩
    exact eq_of_near hj hi hjc hic (UInt32.le_refl _) (Nat.le_add_right _ _)
  · intro c d hc hd hcd hnone
    constructor
    · rintro ⟨i, hi, hic, hid⟩
      rcases exists_mem_trimIdentity_iff.mpr hc with ⟨a, ha, rfl⟩
      rcases exists_mem_trimIdentity_iff.mpr hd with ⟨b, hb, rfl⟩
      have hnear := hspaced.near i hi a ha b hb hic hid hcd
        fun e he => hnone e.1 (exists_mem_trimIdentity_iff.mp ⟨e, he, rfl⟩)
      have hnear : b.1.toNat ≤ a.1.toNat + gap.toNat := by simpa [isNear] using hnear
      omega
    · intro hnear
      rcases hcovers hc with ⟨i, hi, hic⟩
      rcases hcovers hd with ⟨j, hj, hjd⟩
      rw [← eq_of_near hi hj hic hjd (UInt32.le_of_lt hcd) (by omega)] at hjd
      exact ⟨i, hi, hic, hjd⟩
  · refine hspaced.apart.imp ?_
    intro a b hab
    rw [UInt32.lt_iff_toNat_lt]
    omega
  · intro i hi
    have hvalid := hcut.valid i hi
    have hlast := hvalid.toNat_last
    have hpos := hvalid.pos
    rw [Interval.size] at hlast hpos
    refine ⟨hvalid.first_le_last, by omega, ?_⟩
    intro k hk
    exact getElem_values hi hk

/-- Two runs, the upper one up to the largest codepoint of all, with identities that are dropped,
that join their neighbours, and that lie outside of the span. -/
theorem intervals_are_runs_high :
    let t := ofList [(0x20, 0x21), (0x41, 0x41), (0x42, 0x62), (0x45, 0x45), (0x47, 0x67),
      (0xFFFFFFFC, 0xFFFFFFFD), (0xFFFFFFFF, 0)]
    let s : Span := ⟨0x41, 0xFFFFFFFF⟩
    let low : Interval := ⟨0x42, [0x62, 0x43, 0x44, 0x45, 0x46, 0x67]⟩
    let high : Interval := ⟨0xFFFFFFFC, [0xFFFFFFFD, 0xFFFFFFFD, 0xFFFFFFFE, 0]⟩
    s.first ≤ s.last ∧ t.gather? s 3 = .ok [low, high] ∧
      t.IsScanned s 0x45 ∧ t.IsScanned s 0x47 ∧ (∀ k, t.IsScanned s k → ¬ (0x45 < k ∧ k < 0x47)) ∧
      ((∃ i ∈ [low, high], i.contains 0x45 = true ∧ i.contains 0x47 = true) ↔
        (0x47 : Codepoint).toNat - (0x45 : Codepoint).toNat ≤ (3 : UInt32).toNat) ∧
      ∃! i, i ∈ [low, high] ∧ i.contains 0x45 = true := by
  intro t s low high
  have hs : s.first ≤ s.last := by decide
  have hfound : t.intervals? s 3 = .ok [low, high] := by decide
  have h45 : t.IsScanned s 0x45 :=
    ⟨⟨0x45, by decide⟩, by decide, ⟨0x42, by decide⟩, 0x47, by decide⟩
  have h47 : t.IsScanned s 0x47 :=
    ⟨⟨0x67, by decide⟩, by decide, ⟨0x47, by decide⟩, 0x47, by decide⟩
  have hnone : ∀ k, t.IsScanned s k → ¬ (0x45 < k ∧ k < 0x47) := by
    intro k hk
    have hentries : t.entries.all (fun e => ¬ (0x45 < e.1 ∧ e.1 < 0x47)) = true := by decide
    rcases hk.entry with ⟨v, hv⟩
    exact of_decide_eq_true (List.all_eq_true.mp hentries (k, v) (get?_eq_some_iff.mp hv))
  obtain ⟨is, hgather, hintervals, -, hone, hshare, -, -⟩ := t.intervals_are_runs hs 3
  rcases Except.ok.inj (hintervals.symm.trans hfound) with rfl
  exact ⟨hs, hgather, h45, h47, hnone, hshare 0x45 0x47 h45 h47 (by decide) hnone, hone 0x45 h45⟩

end Table

end CaseFolding

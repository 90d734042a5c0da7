import CaseFolding.Code.Block
import CaseFolding.Code.Run
import Mathlib.Tactic.Common

namespace CaseFolding

/-! # Code that delivers a value

Code delivers a value if its run ends the way the sink says, whatever follows
the code and whatever has happened before. The code for a closed form delivers
what the form computes, and for that it makes no more comparisons than the form
has exceptions to tell.
-/

/-! ## Deliveries -/

/-- How a run ends that has delivered a value. -/
def Sink.ending : Sink → Codepoint → Ending
  | .toCaller, v => .returned v
  | .toVariable _, _ => .left

/-- The assignments that deliver a value. -/
def Sink.assignments : Sink → Codepoint → List (String × Codepoint)
  | .toCaller, _ => []
  | .toVariable target, v => [(target, v)]

/-- The outcome of a run that has delivered `v`, and has assigned nothing else on the way. -/
def Sink.Delivers (sink : Sink) (v : Codepoint) (outcome : Ending × Trace) : Prop :=
  outcome.1 = sink.ending v ∧ outcome.2.assigned = sink.assignments v

theorem Sink.ending_ne_fell (sink : Sink) (v : Codepoint) : sink.ending v ≠ .fell := by
  cases sink <;> exact Ending.noConfusion

theorem Sink.ending_ne_jumped (sink : Sink) (v : Codepoint) (l : String) :
    sink.ending v ≠ .jumped l := by
  cases sink <;> exact Ending.noConfusion

namespace Code

/-- Whatever comes after it and has happened before, a piece of a program delivers `v` on `c` with
at most `jumps` jumps and `made` comparisons. -/
def Yields (program : Code) (sink : Sink) (c : Codepoint) (jumps : Nat) (piece : Code)
    (v : Codepoint) (made : Nat) : Prop :=
  ∀ rest s, ∃ s', runFrom program c jumps (piece ++ rest) s = (sink.ending v, s') ∧
    s'.assigned = s.assigned ++ sink.assignments v ∧ s'.comparisons ≤ s.comparisons + made

variable {program piece body rest : Code} {sink : Sink} {c v : Codepoint} {jumps made : Nat}

/-! ## Runs -/

/-- Where the first stretch of two runs is the same, so are the runs. -/
theorem runFrom_congr {p q : Code} {s t : Trace} (h : p.walk c s = q.walk c t) :
    runFrom program c jumps p s = runFrom program c jumps q t := by
  unfold runFrom
  rw [h]

/-- A run that does not jump is its first stretch. -/
theorem runFrom_of_walk {p : Code} {s s' : Trace} {e : Ending} (h : p.walk c s = (e, s'))
    (he : ∀ l, e ≠ .jumped l) : runFrom program c jumps p s = (e, s') := by
  unfold runFrom
  rw [h]
  cases e with
  | jumped l => exact absurd rfl (he l)
  | fell => rfl
  | returned v => rfl
  | left => rfl
  | stuck => rfl

/-- A jump goes on behind its label. -/
theorem Yields.goto {l : String} (hl : program.after? l = some (piece ++ rest))
    (h : Yields program sink c jumps piece v made) :
    Yields program sink c (jumps + 1) (.next (.goto l) .done) v made := by
  intro rest' s
  rcases h rest s with ⟨s', hrun, hs'⟩
  refine ⟨s', ?_, hs'⟩
  -- the first stretch is the jump alone, and one jump less is left for the piece
  have hwalk : (next (.goto l) done ++ rest').walk c s = (.jumped l, s) := rfl
  unfold runFrom
  rw [hwalk]
  simp only [hl]
  exact hrun

/-- More jumps and comparisons may be allowed. -/
theorem Yields.mono_made {more : Nat} (h : Yields program sink c jumps piece v made)
    (hle : made ≤ more) : Yields program sink c jumps piece v more := by
  intro rest s
  rcases h rest s with ⟨s', hrun, hassigned, hmade⟩
  exact ⟨s', hrun, hassigned, Nat.le_trans hmade (Nat.add_le_add_left hle _)⟩

/-! ## Tests -/

/-- All tests are made one after the other. -/
theorem evalTests_fst (c : Codepoint) (ts : List Test) :
    (evalTests c ts).1 = ts.all (·.holds c) := by
  induction ts with
  | nil => rfl
  | cons t ts ih =>
    rw [evalTests, List.all_cons]
    cases ht : t.holds c with
    | false => rfl
    | true => exact ih

/-- No test is made twice. -/
theorem evalTests_snd_le (c : Codepoint) (ts : List Test) :
    (evalTests c ts).2 ≤ ts.length := by
  induction ts with
  | nil => exact Nat.le_refl 0
  | cons t ts ih =>
    rw [evalTests, List.length_cons]
    cases ht : t.holds c with
    | false => exact Nat.le_add_left 1 ts.length
    | true => exact Nat.succ_le_succ ih

/-- A block whose tests all hold is entered. -/
theorem Yields.guarded_true {ts : List Test} (hts : ts.all (·.holds c) = true)
    (h : Yields program sink c jumps body v made) :
    Yields program sink c jumps (.guarded ts body rest) v (ts.length + made) := by
  intro rest' s
  let s₁ : Trace := { s with comparisons := s.comparisons + (evalTests c ts).2 }
  -- the body stands alone: what follows the block does not follow it
  rcases h .done s₁ with ⟨s', hrun, hassigned, hmade⟩
  rw [append_done] at hrun
  refine ⟨s', ?_, hassigned, ?_⟩
  · have hfell : (body.walk c s₁).1 ≠ .fell := by
      -- otherwise the run of the body would end there
      intro hfell
      have hwalk : body.walk c s₁ = (.fell, (body.walk c s₁).2) := by rw [← hfell]
      rw [runFrom_of_walk hwalk fun l => Ending.noConfusion] at hrun
      exact sink.ending_ne_fell v (Prod.mk.inj hrun).1.symm
    have hwalk : (guarded ts body rest ++ rest').walk c s = body.walk c s₁ := by
      change (guarded ts body (rest.append rest')).walk c s = _
      rw [walk]
      simp only [evalTests_fst, hts, if_true]
      split
      next heq => exact absurd (congrArg Prod.fst heq) hfell
      next => rfl
    rw [runFrom_congr hwalk, hrun]
  · have hle := evalTests_snd_le c ts
    have hstart : s₁.comparisons = s.comparisons + (evalTests c ts).2 := rfl
    omega

/-- A block one of whose tests fails is passed over. -/
theorem Yields.guarded_false {ts : List Test} (hts : ts.all (·.holds c) = false)
    (h : Yields program sink c jumps rest v made) :
    Yields program sink c jumps (.guarded ts body rest) v (ts.length + made) := by
  intro rest' s
  let s₁ : Trace := { s with comparisons := s.comparisons + (evalTests c ts).2 }
  rcases h rest' s₁ with ⟨s', hrun, hassigned, hmade⟩
  refine ⟨s', ?_, hassigned, ?_⟩
  · have hwalk : (guarded ts body rest ++ rest').walk c s = (rest ++ rest').walk c s₁ := by
      change (guarded ts body (rest.append rest')).walk c s = _
      rw [walk]
      simp only [evalTests_fst, hts]
      rfl
    rw [runFrom_congr hwalk, hrun]
  · have hle := evalTests_snd_le c ts
    have hstart : s₁.comparisons = s.comparisons + (evalTests c ts).2 := rfl
    omega

/-! ## Results -/

/-- Delivering an expression that can be evaluated. -/
theorem walk_deliver {e : Value} {s : Trace} (he : e.eval? s.tables c = some v) (rest : Code) :
    (sink.deliver e ++ rest).walk c s =
      (sink.ending v, { s with assigned := s.assigned ++ sink.assignments v }) := by
  cases sink with
  | toCaller =>
    change (next (.ret e) (done.append rest)).walk c s = _
    rw [walk, he]
    simp [Sink.ending, Sink.assignments]
  | toVariable target =>
    change (next (.assign target e) (next .leave (done.append rest))).walk c s = _
    rw [walk, he]
    rfl

theorem yields_deliver {e : Value} (he : ∀ tables, e.eval? tables c = some v) :
    Yields program sink c jumps (sink.deliver e) v 0 := by
  intro rest s
  have hwalk : (sink.deliver e ++ rest).walk c s =
      (sink.ending v, { s with assigned := s.assigned ++ sink.assignments v }) :=
    walk_deliver (he s.tables) rest
  exact ⟨_, runFrom_of_walk hwalk (sink.ending_ne_jumped v), rfl, Nat.le_refl _⟩

end Code

end CaseFolding

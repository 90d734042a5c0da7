import CaseFolding.Proofs.Code.Dispatch

namespace CaseFolding

/-! # The flow of control

The code for a tree is the block of its root and a labelled block for each of
the other nodes. A block ends by itself, and the jumps from it lead to the blocks
of its children, which stand further on. So each label is reached by one jump,
and all jumps go forward.
-/

/-! ## Statements -/

/-- The label that a statement sets. -/
def Stmt.label? : Stmt → Option String
  | .label l => some l
  | _ => none

/-- The label that a statement jumps to. -/
def Stmt.target? : Stmt → Option String
  | .goto l => some l
  | _ => none

/-- A jump points to the statement that sets its label. -/
def Stmt.JumpsTo (s s' : Stmt) : Prop :=
  ∃ l, s = .goto l ∧ s' = .label l

namespace Code

/-- The statements of code in the order of its text, those inside of blocks included. -/
def statements : Code → List Stmt
  | done => []
  | next s rest => s :: rest.statements
  | guarded _ body rest => body.statements ++ rest.statements

/-- What a view shows of the statements. -/
def collect {α : Type} (f : Stmt → Option α) (a : Code) : List α :=
  a.statements.filterMap f

/-- Control does not reach the end, whatever the tests come to. -/
def IsClosed : Code → Prop
  | done => False
  | next (.goto _) _ => True
  | next (.ret _) _ => True
  | next .leave _ => True
  | next _ rest => rest.IsClosed
  | guarded _ _ rest => rest.IsClosed

/-- No label is set and none is jumped to. -/
def IsStraight (a : Code) : Prop :=
  ∀ s ∈ a.statements, s.label? = none ∧ s.target? = none

/-- The statements of a piece of code come before those of what follows it. -/
theorem statements_append (a b : Code) : (a ++ b).statements = a.statements ++ b.statements := by
  induction a with
  | done => rfl
  | next s rest ih => exact congrArg (s :: ·) ih
  | guarded tests body rest _ ih =>
    have happend : (guarded tests body rest ++ b).statements =
        body.statements ++ (rest ++ b).statements := rfl
    rw [happend, ih, statements, List.append_assoc]

section Collect

variable {α : Type} (f : Stmt → Option α)

theorem collect_append (a b : Code) : (a ++ b).collect f = a.collect f ++ b.collect f := by
  rw [collect, statements_append, List.filterMap_append, ← collect, ← collect]

theorem collect_guarded (tests : List Test) (body rest : Code) :
    (guarded tests body rest).collect f = body.collect f ++ rest.collect f :=
  List.filterMap_append

theorem collect_concat (pieces : List Code) :
    (concat pieces).collect f = pieces.flatMap (collect f) :=
  concat_eq_flatMap rfl (collect_append f) pieces

end Collect

variable {a body rest : Code}

theorem IsStraight.collect_label? (h : a.IsStraight) : a.collect Stmt.label? = [] :=
  List.filterMap_eq_nil_iff.mpr fun s hs => (h s hs).1

theorem IsStraight.collect_target? (h : a.IsStraight) : a.collect Stmt.target? = [] :=
  List.filterMap_eq_nil_iff.mpr fun s hs => (h s hs).2

theorem IsStraight.guarded (hbody : body.IsStraight) (hrest : rest.IsStraight)
    (tests : List Test) : (Code.guarded tests body rest).IsStraight :=
  List.forall_mem_append.mpr ⟨hbody, hrest⟩

/-- No run of closed code ends by falling off its end. -/
theorem IsClosed.walk_ne_fell (h : a.IsClosed) (c : Codepoint) (s : Trace) :
    (a.walk c s).1 ≠ .fell := by
  induction a generalizing s with
  | done => exact h.elim
  | next stmt rest ih =>
    cases stmt with
    | label l => exact ih h s
    | goto l => exact Ending.noConfusion
    | ret v =>
      rw [walk]
      split <;> exact Ending.noConfusion
    | assign target v =>
      rw [walk]
      split
      · exact ih h _
      · exact Ending.noConfusion
    | leave => exact Ending.noConfusion
    | declare t => exact ih h _
  | guarded tests body rest _ ih =>
    rw [walk]
    dsimp only
    split
    · split
      next => exact ih h _
      next hbody => exact fun hfell => hbody _ (Prod.ext hfell rfl)
    · exact ih h _

end Code

/-! ## Forms -/

theorem Sink.isClosed_deliver (sink : Sink) (e : Value) : (sink.deliver e).IsClosed := by
  cases sink <;> trivial

theorem Sink.isStraight_deliver (sink : Sink) (e : Value) : (sink.deliver e).IsStraight := by
  cases sink <;> simp [deliver, Code.IsStraight, Code.statements, Stmt.label?, Stmt.target?]

theorem Sink.isStraight_lookup (sink : Sink) (span : Span) (values : List Codepoint) :
    (sink.lookup span values).IsStraight :=
  List.forall_mem_cons.mpr ⟨⟨rfl, rfl⟩, sink.isStraight_deliver _⟩

/-- The code for a form ends by delivering a result. -/
theorem Form.isClosed_code (sink : Sink) (form : Form) (span : Span) :
    (form.code sink span).IsClosed := by
  induction form generalizing span with
  | setException inner patch ih =>
    rw [code]
    split
    · exact ih inner
    · exact sink.isClosed_deliver _
  | _ => exact sink.isClosed_deliver _

/-- The code for a form takes no label. -/
theorem Form.isStraight_code (sink : Sink) (form : Form) (span : Span) :
    (form.code sink span).IsStraight := by
  induction form generalizing span with
  | deltaException d exception result =>
    exact (sink.isStraight_deliver _).guarded (sink.isStraight_deliver _) _
  | reset values => exact sink.isStraight_lookup span values
  | table values => exact sink.isStraight_lookup span values
  | setException inner patch ih =>
    rw [code]
    split
    · exact ih inner
    · exact (ih inner).guarded (sink.isStraight_deliver _) _
  | _ => exact sink.isStraight_deliver _

/-! ## Blocks -/

namespace Tree

variable {sink : Sink} {t u : Tree} {ts : List Tree} {l : String}

/-- The code that comes first. -/
def opening (sink : Sink) (t : Tree) : Code :=
  if t = leaf then sink.deliver .same else t.block sink

/-- The block of a root together with its label. -/
def blockWithLabel? (sink : Sink) (t : Tree) : Option (String × Code) :=
  t.root?.map fun m => (m.span.label, t.block sink)

theorem collect_label?_enter (sink : Sink) (t : Tree) :
    (t.enter sink).collect Stmt.label? = [] := by
  cases t with
  | leaf => exact (sink.isStraight_deliver .same).collect_label?
  | node h l m r => rfl

theorem collect_target?_enter (sink : Sink) (t : Tree) :
    (t.enter sink).collect Stmt.target? = t.rootLabels := by
  cases t with
  | leaf => exact (sink.isStraight_deliver .same).collect_target?
  | node h l m r => rfl

/-- A block sets no label. -/
theorem collect_label?_block (sink : Sink) (t : Tree) :
    (t.block sink).collect Stmt.label? = [] := by
  cases t with
  | leaf => rfl
  | node h l m r =>
    rw [block, Code.collect_guarded, Code.collect_guarded, collect_label?_enter,
      collect_label?_enter, (m.form.isStraight_code sink m.span).collect_label?]
    rfl

/-- A block jumps to the labels of the subtrees. -/
theorem collect_target?_block (sink : Sink) (t : Tree) :
    (t.block sink).collect Stmt.target? = t.left.rootLabels ++ t.right.rootLabels := by
  cases t with
  | leaf => rfl
  | node h l m r =>
    rw [block, Code.collect_guarded, Code.collect_guarded, collect_target?_enter,
      collect_target?_enter, (m.form.isStraight_code sink m.span).collect_target?,
      List.append_nil]
    rfl

theorem collect_label?_labelledBlock (sink : Sink) (t : Tree) :
    (t.labelledBlock sink).collect Stmt.label? = t.rootLabels := by
  cases t with
  | leaf => rfl
  | node h l m r => exact congrArg (m.span.label :: ·) (collect_label?_block sink (node h l m r))

theorem collect_target?_labelledBlock (sink : Sink) (t : Tree) :
    (t.labelledBlock sink).collect Stmt.target? = t.left.rootLabels ++ t.right.rootLabels := by
  rw [← collect_target?_block sink t]
  cases t <;> rfl

theorem isClosed_block (hne : t ≠ leaf) : (t.block sink).IsClosed := by
  cases t with
  | leaf => exact absurd rfl hne
  | node h l m r => exact m.form.isClosed_code sink m.span

theorem isClosed_opening (sink : Sink) (t : Tree) : (t.opening sink).IsClosed := by
  unfold opening
  split
  next => exact sink.isClosed_deliver .same
  next hne => exact isClosed_block hne

theorem collect_label?_opening (sink : Sink) (t : Tree) :
    (t.opening sink).collect Stmt.label? = [] := by
  unfold opening
  split
  · exact (sink.isStraight_deliver .same).collect_label?
  · exact collect_label?_block sink t

/-- The code that comes first jumps to the labels of the subtrees. -/
theorem collect_target?_opening (sink : Sink) (t : Tree) :
    (t.opening sink).collect Stmt.target? = t.left.rootLabels ++ t.right.rootLabels := by
  unfold opening
  split
  next hleaf =>
    rw [hleaf]
    exact (sink.isStraight_deliver .same).collect_target?
  next => exact collect_target?_block sink t

/-! ## Several blocks -/

/-- Labelled blocks are told by their labels and what stands behind these. -/
theorem concat_labelledBlock (sink : Sink) (ts : List Tree) :
    Code.concat (ts.map (labelledBlock sink)) =
      Code.concat ((ts.filterMap (blockWithLabel? sink)).map fun b => .next (.label b.1) b.2) := by
  induction ts with
  | nil => rfl
  | cons t ts ih =>
    cases t with
    | leaf => exact ih
    | node h l m r => exact congrArg ((node h l m r).labelledBlock sink ++ ·) ih

/-- Their labels are those of the roots. -/
theorem map_fst_blockWithLabel? (sink : Sink) (ts : List Tree) :
    (ts.filterMap (blockWithLabel? sink)).map (·.1) = ts.flatMap rootLabels := by
  induction ts with
  | nil => rfl
  | cons t ts ih =>
    cases t with
    | leaf => exact ih
    | node h l m r => exact congrArg (m.span.label :: ·) ih

theorem collect_label?_concat (sink : Sink) (ts : List Tree) :
    (Code.concat (ts.map (labelledBlock sink))).collect Stmt.label? = ts.flatMap rootLabels := by
  rw [Code.collect_concat, List.flatMap_map]
  exact congrArg (ts.flatMap ·) (funext (collect_label?_labelledBlock sink))

theorem collect_target?_concat (sink : Sink) (ts : List Tree) :
    (Code.concat (ts.map (labelledBlock sink))).collect Stmt.target? =
      (nextRow ts).flatMap rootLabels := by
  rw [Code.collect_concat, List.flatMap_map, nextRow, List.flatMap_assoc]
  refine congrArg (ts.flatMap ·) (funext fun t => ?_)
  simp [collect_target?_labelledBlock]

/-- The labels of the children are set further on, if the children stand there. -/
theorem label_mem_of_child (hchildren : ∀ u, t.IsChild u → u ∈ ts)
    (hl : l ∈ t.left.rootLabels ++ t.right.rootLabels) :
    .label l ∈ (Code.concat (ts.map (labelledBlock sink))).statements := by
  obtain ⟨u, hu, hl⟩ : ∃ u, (u = t.left ∨ u = t.right) ∧ l ∈ u.rootLabels := by
    rcases List.mem_append.mp hl with hl | hl
    · exact ⟨t.left, .inl rfl, hl⟩
    · exact ⟨t.right, .inr rfl, hl⟩
  have hne : u ≠ leaf := by
    rintro rfl
    exact absurd hl List.not_mem_nil
  have hset : l ∈ (Code.concat (ts.map (labelledBlock sink))).collect Stmt.label? := by
    rw [collect_label?_concat]
    exact List.mem_flatMap.mpr ⟨u, hchildren u ⟨hne, hu⟩, hl⟩
  rcases List.mem_filterMap.mp hset with ⟨s, hs, hlabel⟩
  cases s with
  | label k =>
    rcases Option.some.inj hlabel with rfl
    exact hs
  | _ => exact absurd hlabel nofun

/-- Where subtrees stand before their children, their blocks jump forward. -/
theorem pointsAhead_concat (sink : Sink) (h : PointsAhead IsChild ts) :
    PointsAhead Stmt.JumpsTo (Code.concat (ts.map (labelledBlock sink))).statements := by
  induction ts with
  | nil => exact pointsAhead_nil
  | cons t ts ih =>
    have hcons : Code.concat ((t :: ts).map (labelledBlock sink)) =
        t.labelledBlock sink ++ Code.concat (ts.map (labelledBlock sink)) := rfl
    rw [hcons, Code.statements_append]
    refine (ih h.tail).append ?_
    rintro s hs s' ⟨l, rfl, rfl⟩
    apply label_mem_of_child (h t ts List.suffix_rfl)
    rw [← collect_target?_labelledBlock sink]
    exact List.mem_filterMap.mpr ⟨_, hs, rfl⟩

/-! ## The code for a tree -/

/-- Control flows through the code for a tree as it should. -/
structure IsFlow (t : Tree) (sink : Sink) (program : Code) (blocks : List (String × Code)) :
    Prop where
  /-- The block of the root comes first, and then come blocks with labels. -/
  code_eq : program =
    t.opening sink ++ Code.concat (blocks.map fun b => .next (.label b.1) b.2)
  /-- There is one such block for each subtree below the root. -/
  blocks_perm : blocks.Perm ((t.left.subtrees ++ t.right.subtrees).filterMap (blockWithLabel? sink))
  /-- No label is set but those in front of the blocks. -/
  labels : program.collect Stmt.label? = blocks.map (·.1)
  /-- No label is set twice. -/
  nodup : (blocks.map (·.1)).Nodup
  /-- Each label is the target of one jump, and no other label is. -/
  targets : (program.collect Stmt.target?).Perm (blocks.map (·.1))
  /-- Each jump goes to a label further on. -/
  forward : PointsAhead Stmt.JumpsTo program.statements
  /-- Control does not run from one block into the next. -/
  closed : ∀ p ∈ t.opening sink :: blocks.map (·.2),
    p.IsClosed ∧ ∀ c s, (p.walk c s).1 ≠ .fell

theorem code_eq_opening_append (sink : Sink) (hheight : t.height = t.depth) :
    t.code sink = t.opening sink ++ Code.concat (t.descendants.map (labelledBlock sink)) := by
  by_cases hne : t = leaf
  · subst hne
    exact (Code.append_done _).symm
  · rw [opening, if_neg hne]
    exact code_eq_append hheight hne

/-- What is jumped to, block after block, are the labels below the root. -/
theorem rootLabels_nextRow_perm (hheight : t.height = t.depth) :
    ((nextRow (t :: t.descendants)).flatMap rootLabels).Perm (t.descendants.flatMap rootLabels) := by
  have hperm := ((filter_nextRow_descendants hheight).filterMap root?).map (·.span.label)
  rw [filterMap_filter_ne_leaf rfl, filterMap_filter_ne_leaf rfl] at hperm
  rw [flatMap_rootLabels, flatMap_rootLabels]
  exact hperm

/-- In the code for an ordered tree control flows as it should. -/
theorem isFlow_code (sink : Sink) (ht : t.Ordered) (hheight : t.height = t.depth) :
    t.IsFlow sink (t.code sink) (t.descendants.filterMap (blockWithLabel? sink)) := by
  have hcode := code_eq_opening_append sink hheight
  constructor
  case code_eq => rw [hcode, concat_labelledBlock]
  case blocks_perm =>
    have hperm := (subtrees_descendants hheight).filterMap (blockWithLabel? sink)
    rw [filterMap_filter_ne_leaf rfl] at hperm
    exact hperm
  case labels =>
    rw [hcode, Code.collect_append, collect_label?_opening, collect_label?_concat,
      map_fst_blockWithLabel?]
    rfl
  case nodup =>
    rw [map_fst_blockWithLabel?]
    exact nodup_rootLabels_descendants ht hheight
  case targets =>
    rw [hcode, Code.collect_append, collect_target?_opening, collect_target?_concat,
      map_fst_blockWithLabel?]
    simpa [nextRow] using rootLabels_nextRow_perm hheight
  case forward =>
    have hahead := pointsAhead_descendants hheight
    rw [hcode, Code.statements_append]
    refine (pointsAhead_concat sink hahead.tail).append ?_
    rintro s hs s' ⟨l, rfl, rfl⟩
    apply label_mem_of_child (hahead t t.descendants List.suffix_rfl)
    rw [← collect_target?_opening sink]
    exact List.mem_filterMap.mpr ⟨_, hs, rfl⟩
  case closed =>
    have hclosed : ∀ p ∈ t.opening sink ::
        (t.descendants.filterMap (blockWithLabel? sink)).map (·.2), p.IsClosed := by
      refine List.forall_mem_cons.mpr ⟨isClosed_opening sink t, ?_⟩
      intro p hp
      rcases List.mem_map.mp hp with ⟨b, hb, rfl⟩
      rcases List.mem_filterMap.mp hb with ⟨u, -, hu⟩
      rcases Option.map_eq_some_iff.mp hu with ⟨m, hm, rfl⟩
      refine isClosed_block ?_
      rintro rfl
      simp [root?] at hm
    intro p hp
    exact ⟨hclosed p hp, (hclosed p hp).walk_ne_fell⟩

end Tree

end CaseFolding

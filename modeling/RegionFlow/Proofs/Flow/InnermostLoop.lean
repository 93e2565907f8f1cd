import RegionFlow.Proofs.Analysis.BreakRouting
set_option autoImplicit false

namespace RegionFlow

variable {d : Dialect}

theorem Op.regions_of_isLoop {o : Op d} (h : o.isLoop = true) :
    ∃ b, o.regions = [(.body, b)] := by
  cases o <;> simp [isLoop, regions] at h ⊢

theorem PlacedOp.own?_of_isLoop {o : PlacedOp d} (h : o.op.isLoop = true) :
    o.own? = some (.entry o.path) := by
  obtain ⟨path, op⟩ := o
  cases op <;> simp [Op.isLoop] at h
  rfl

namespace Context

theorem depth_lt_of_parent? {c x : Context d} (h : c.parent? = some x) : x.depth < c.depth := by
  obtain ⟨root, frames⟩ := c
  cases frames with
  | nil => simp [parent?] at h
  | cons f outer =>
    rw [parent?, Option.some.injEq] at h
    rw [← h]
    exact Nat.lt_succ_self _

/-- Climbs from parent to parent until an owner is a loop; gives the parent that has been reached,
and the loop. -/
def climbToLoop? (c : Context d) : Option (Context d × PlacedOp d) :=
  match _h : c.parent? with
  | none => none
  | some x =>
    match c.owner? with
    | none => x.climbToLoop?
    | some o => if o.op.isLoop then some (x, o) else x.climbToLoop?
termination_by c.depth
decreasing_by all_goals exact depth_lt_of_parent? _h

theorem climbToLoop?_root (root : PlacedSequence d) : (Context.mk root []).climbToLoop? = none := by
  rw [climbToLoop?]
  rfl

theorem climbToLoop?_frame (root : PlacedSequence d) (f : Frame d) (outer : List (Frame d)) :
    (Context.mk root (f :: outer)).climbToLoop? =
      match (Context.mk root outer).get? f.owner with
      | none => (Context.mk root outer).climbToLoop?
      | some o =>
        if o.op.isLoop then some (Context.mk root outer, o)
        else (Context.mk root outer).climbToLoop? := by
  conv_lhs => rw [climbToLoop?]
  rfl

theorem enclosingLoop?_eq_climb (c : Context d) : c.enclosingLoop? = c.climbToLoop? := by
  obtain ⟨root, frames⟩ := c
  induction frames with
  | nil => rw [climbToLoop?_root]; rfl
  | cons f outer ih =>
    rw [climbToLoop?_frame, ← ih, enclosingLoop?, loopAmong, get?]
    cases (Context.mk root outer).ops[f.owner]? with
    | none => rfl
    | some o => rfl

end Context

theorem Located.mem_preorderOf_iff {a l : Located d} :
    l ∈ preorderOf a.context a.index a.op ↔
      l = a ∨ a.Around l ∧ l.context.ops[l.index]? = some l.op := by
  rw [mem_preorderOf]
  refine or_congr_right ?_
  simp only [Context.mem_preorder_iff, Around]
  constructor
  · rintro ⟨q, hq, hbelow, hl⟩
    exact ⟨⟨q, hq, hbelow⟩, hl⟩
  · rintro ⟨⟨q, hq, hbelow⟩, hl⟩
    exact ⟨q, hq, hbelow, hl⟩

namespace Program

variable {p : Program d} {h : Home} {a l : Located d}

/-- A walk hands out the tree of an operation in one stretch, the operation first, and the successor
of the operation is a point of nothing in that tree. -/
theorem tree_split (ha : a ∈ p.operations h) : ∃ pre inside post,
    p.operations h = pre ++ (a :: inside ++ post) ∧
    (∀ l ∈ p.operations h, a.Around l → l ∈ inside) ∧
    ∀ l ∈ a :: inside, l.placed.own? ≠ some (a.context.successor a.index) := by
  obtain ⟨hc, ho⟩ := mem_operations.mp ha
  obtain ⟨pre, post, heq, hexit⟩ := hc.successor_owned ho
  rw [← operations_eq] at heq
  refine ⟨pre, _, post, by rw [heq, preorderOf_eq], ?_, ?_⟩
  · intro l hl hin
    have htree := Located.mem_preorderOf_iff.mpr (.inr ⟨hin, (mem_operations.mp hl).2⟩)
    rw [preorderOf_eq, List.mem_cons] at htree
    rcases htree with rfl | hinside
    · exact absurd hin.depth_lt (Nat.lt_irrefl _)
    · exact hinside
  · rw [← preorderOf_eq]
    intro l htree hown
    rcases hexit with hexit | ⟨m, hm, hownm⟩
    · rw [hexit] at hown
      exact OpPath.enter_ne_body (PlacedOp.own?_eq_exit_iff.mp hown).2.symm
    · have hl : l ∈ p.operations h := by
        rw [heq]
        exact List.mem_append_right _ (List.mem_append_left _ htree)
      have hmem : m ∈ p.operations h := by
        rw [heq]
        exact List.mem_append_right _ (List.mem_append_right _ hm)
      have hnodup := p.operations_nodup h
      rw [heq] at hnodup
      obtain rfl := eq_of_own? hl hmem hown hownm
      exact List.disjoint_of_nodup_append hnodup.of_append_right htree hm

/-- The loop queries agree.  In every context that navigation gets to, the innermost loop is the one
that climbing from parent to parent finds.  Where there is none, a break has no target and there is
no header.  Otherwise the loop is an element of the context given with it.  The header is the entry
of the loop, which belongs to the loop itself, and a walk hands out the loop before all that stands
in or below the sequence of the context.  A break goes on where the loop does, and this is where the
body of the loop completes; the point belongs neither to the loop nor to anything in its body. -/
theorem loop_queries (p : Program d) (h : Home) : ∀ c, p.Navigates h c →
    c.enclosingLoop? = c.climbToLoop? ∧
    (c.enclosingLoop? = none → c.breakTarget? = none ∧ c.loopHeader? = none) ∧
    ∀ x l, c.enclosingLoop? = some (x, l) →
      p.Navigates h x ∧ x.get? l.path.index = some l ∧ l.op.isLoop = true ∧
      c.loopHeader? = some l.entry ∧ l.entry = .entry l.path ∧ l.own? = some l.entry ∧
      (∃ pre a post, p.operations h = pre ++ a :: post ∧ a.placed = l ∧
        ∀ m ∈ p.operations h, c.Below m.context → m ∈ post) ∧
      ∃ q b body, l.regions = [(.body, b)] ∧ x.enter l b = .ok body ∧ body.Below c ∧
        c.breakTarget? = some q ∧ x.exitOf l = .ok (some q) ∧ body.exit = q ∧
        ∀ m ∈ p.operations h, m.placed = l ∨ body.Below m.context → m.placed.own? ≠ some q := by
  intro c hc
  refine ⟨c.enclosingLoop?_eq_climb, ?_, ?_⟩
  · intro hnone
    simp [Context.breakTarget?, Context.loopHeader?, hnone]
  · intro x l hx
    obtain ⟨a, ha, rfl, rfl, hloop, htarget, hheader⟩ := located_of_enclosingLoop? hc hx
    obtain ⟨hbelow, hget⟩ := mem_operations.mp ha
    obtain ⟨s, hs⟩ := Op.regions_of_isLoop hloop
    have hr : (Region.body, s) ∈ a.op.regions := by simp [hs]
    obtain ⟨q, hq, hinside⟩ := (below_of_navigates hc).below_enclosingLoop? rfl hx
    obtain rfl : q = (.body, s) := List.mem_singleton.mp (hs ▸ hq)
    obtain ⟨pre, inside, post, heq, haround, hown⟩ := tree_split ha
    have hentry : a.placed.own? = some (.entry a.placed.path) := PlacedOp.own?_of_isLoop hloop
    refine ⟨navigates_iff_below.mpr hbelow, Context.get?_eq_some_iff.mpr ⟨rfl, hget⟩, hloop,
      hheader, PlacedOp.entry_of_own? hentry, ?_, ?_, ?_⟩
    · rw [hentry, PlacedOp.entry_of_own? hentry]
    · refine ⟨pre, a, inside ++ post, heq, rfl, ?_⟩
      intro m hm hcm
      exact List.mem_append_left _ (haround m hm ⟨_, hr, hinside.trans hcm⟩)
    · refine ⟨_, ⟨a.placed.path.enter .body, s⟩, a.context.descend a.index .body s, ?_, ?_, hinside,
        htarget, ?_, rfl, ?_⟩
      · simp [PlacedOp.regions, Located.placed, hs]
      · exact Context.enter_element hget hr
      · rw [Located.exitOf_placed ha, Located.exit?, Op.fallsThrough_of_region hr, if_pos rfl]
      · intro m hm hin
        apply hown m
        rcases hin with hplaced | hbelow
        · obtain rfl := eq_of_path hm ha (congrArg PlacedOp.path hplaced)
          exact List.mem_cons_self
        · exact List.mem_cons_of_mem _ (haround m hm ⟨_, hr, hbelow⟩)

theorem loop_queries_sample :
    let c := sampleBreak.context
    let loop : PlacedOp .imp := ⟨⟨.body .main, 0⟩, .whileLoop (.constant (.bool true))
      [.scope rfl [.conditional (.constant (.bool true)) [] [.breakLoop], .scope rfl []]]⟩
    sample.Navigates .main c ∧ c.enclosingLoop? = some (sample.context .main, loop) ∧
    c.climbToLoop? = some (sample.context .main, loop) ∧ c.loopHeader? = some loop.entry ∧
    ∃ q, c.breakTarget? = some q ∧ (sample.context .main).exitOf loop = .ok (some q) := by
  intro c loop
  have hc : sample.Navigates .main c :=
    navigates_iff_below.mpr (mem_operations.mp sampleBreak_mem).1
  have hx : c.enclosingLoop? = some (sample.context .main, loop) := rfl
  obtain ⟨hclimb, -, hloop⟩ := loop_queries sample .main c hc
  obtain ⟨-, -, -, hheader, -, -, -, q, -, -, -, -, -, htarget, hexit, -⟩ := hloop _ _ hx
  exact ⟨hc, hx, by rw [← hclimb, hx], hheader, q, htarget, hexit⟩

end Program

end RegionFlow

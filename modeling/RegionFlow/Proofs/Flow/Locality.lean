import RegionFlow.Proofs.Flow.Forward
set_option autoImplicit false

namespace RegionFlow

variable {d : Dialect}

def Point.replace (old new q : Point) : Point := if q = old then new else q

@[simp] theorem Point.replace_self (old new : Point) : old.replace new old = new := if_pos rfl

theorem Point.replace_of_ne {old new q : Point} (h : q ≠ old) : old.replace new q = q := if_neg h

theorem length_lt_of_entryOf_eq_exit (o : Op d) : ∀ (path : OpPath) (q : SequencePath),
    entryOf path o = .exit q → path.sequence.steps.length < q.steps.length := by
  induction o using Op.region_induction with
  | step o ih =>
    intro path q hq
    cases o with
    | scope g b =>
      have hlen : (path.enter .body).steps.length = path.sequence.steps.length + 1 := rfl
      cases b with
      | nil =>
        simp only [entryOf, sequenceEntryOf, Point.exit.injEq] at hq
        rw [← hq]
        omega
      | cons e rest =>
        simp only [entryOf, sequenceEntryOf] at hq
        have := ih _ (Op.body_mem_regions g (e :: rest)) e List.mem_cons_self _ q hq
        simp only at this
        omega
    | _ => simp [entryOf] at hq

namespace Context

/-- The contexts that navigation from a context gets to, by any finite run of moves. -/
inductive Reaches (base : Context d) : Context d → Prop where
  | here : Reaches base base
  | enter {c c' : Context d} {i : Nat} {o : PlacedOp d} {s : PlacedSequence d}
      (hc : Reaches base c) (ho : c.get? i = some o) (he : c.enter o s = .ok c') : Reaches base c'
  | parent {c c' : Context d} (hc : Reaches base c) (hp : c.parent? = some c') : Reaches base c'
  | enclosingLoop {c : Context d} {l : Context d × PlacedOp d} (hc : Reaches base c)
      (hl : c.enclosingLoop? = some l) : Reaches base l.1
  | walk {c : Context d} {l : Located d} (hc : Reaches base c)
      (hl : l ∈ (Walk.start c).toList) : Reaches base l.context

theorem below_of_reaches {s : PlacedSequence d} {x : Context d} (hx : (ofRoot s).Reaches x) :
    (ofRoot s).Below x := by
  induction hx with
  | here => exact .here
  | enter _ ho he ih => exact ih.of_enter ho he
  | parent _ hp ih => exact ih.of_parent? rfl hp
  | enclosingLoop _ hl ih => exact (ih.of_enclosingLoop? rfl hl).1
  | walk _ hl ih => exact ih.of_walk hl

/-- The context that the regions entered on the way to one context lead to from another. -/
def graft (c x : Context d) : Context d := ⟨c.root, x.frames ++ c.frames⟩

variable {c x : Context d} {i : Nat}

theorem graft_descend (c x : Context d) (i : Nat) (r : Region) (s : Sequence d) :
    c.graft (x.descend i r s) = (c.graft x).descend i r s := rfl

theorem ops_graft (hx : (ofRoot c.sequence).Below x) : (c.graft x).ops = x.ops := by
  cases hx with
  | here => rfl
  | region _ _ _ => rfl

theorem path_graft (hx : (ofRoot c.sequence).Below x) : (c.graft x).path = x.path := by
  simp [path, graft, hx.root_eq, ofRoot, sequence]

theorem graft_below (hx : (ofRoot c.sequence).Below x) : c.Below (c.graft x) := by
  induction hx with
  | here => exact .here
  | region hx ho hr ih =>
    rw [← ops_graft hx] at ho
    exact ih.region ho hr

theorem follow?_graft {w : List Step} {base : Context d} (hbase : (ofRoot c.sequence).Below base)
    (hw : base.follow? w = some x) : (c.graft base).follow? w = some (c.graft x) := by
  induction w generalizing base with
  | nil =>
    rw [follow?, Option.some.injEq] at hw
    rw [follow?, hw]
  | cons s w ih =>
    obtain ⟨o, ops, ho, hr, hw⟩ := follow?_cons_eq_some_iff.mp hw
    rw [follow?_cons_eq_some_iff]
    exact ⟨o, ops, by rw [ops_graft hbase, ho], hr, ih (hbase.region ho hr) hw⟩

theorem point_graft (hx : (ofRoot c.sequence).Below x)
    (hexit : (c.graft x).exit = c.sequence.exit.replace c.exit x.exit) (i : Nat) :
    (c.graft x).point i = c.sequence.exit.replace c.exit (x.point i) := by
  refine point_of_rel hexit ?_
  rw [ops_graft hx]
  cases x.ops[i]? with
  | none => exact .none
  | some o =>
    -- The entry of an element below the sequence is not the point after the sequence.
    have hne : entryOf ⟨x.path, i⟩ o ≠ c.sequence.exit := by
      intro heq
      have hlt := length_lt_of_entryOf_eq_exit o _ _ heq
      simp only [path, hx.root_eq, ofRoot, sequence, List.length_append] at hlt
      omega
    refine .some ?_
    rw [path_graft hx, Point.replace_of_ne hne]

theorem exit_graft (hx : (ofRoot c.sequence).Below x) :
    (c.graft x).exit = c.sequence.exit.replace c.exit x.exit := by
  induction hx with
  | here => exact (Point.replace_self _ _).symm
  | region hx _ _ ih =>
    rw [graft_descend, exit_descend, exit_descend, successor_eq_point, successor_eq_point]
    exact point_graft hx ih _

theorem successor_graft (hx : (ofRoot c.sequence).Below x) (i : Nat) :
    (c.graft x).successor i = c.sequence.exit.replace c.exit (x.successor i) := by
  rw [successor_eq_point, successor_eq_point]
  exact point_graft hx (exit_graft hx) _

/-- A loop of the sequence is found first, and otherwise the loop around the sequence. -/
theorem enclosingLoop?_graft (hx : (ofRoot c.sequence).Below x) :
    (c.graft x).enclosingLoop? =
      (x.enclosingLoop?.map fun l => (c.graft l.1, l.2)).or c.enclosingLoop? := by
  induction hx with
  | here => rfl
  | @region x i o r s hx ho hr ih =>
    have ho' : (c.graft x).ops[i]? = some o := by rw [ops_graft hx, ho]
    rw [graft_descend, enclosingLoop?_descend r s ho', enclosingLoop?_descend r s ho,
      path_graft hx, ih]
    split
    · rfl
    · rfl

theorem exitOf_graft {o : PlacedOp d} (hx : (ofRoot c.sequence).Below x)
    (ho : x.get? i = some o) : ∃ q?, x.exitOf o = .ok q? ∧
      (c.graft x).exitOf o = .ok (q?.map (c.sequence.exit.replace c.exit)) := by
  have ho' : (c.graft x).get? i = some o := by rw [get?, path_graft hx, ops_graft hx]; exact ho
  refine ⟨_, exitOf_of_get? ho, ?_⟩
  rw [exitOf_of_get? ho', successor_graft hx]
  split
  · rfl
  · rfl

theorem breakTarget?_graft {l : Context d × PlacedOp d} (hx : (ofRoot c.sequence).Below x)
    (hl : x.enclosingLoop? = some l) :
    (c.graft x).breakTarget? = x.breakTarget?.map (c.sequence.exit.replace c.exit) ∧
      (c.graft x).loopHeader? = x.loopHeader? := by
  have hin := (hx.of_enclosingLoop? rfl hl).1
  simp [breakTarget?, loopHeader?, enclosingLoop?_graft hx, hl, successor_graft hin]

theorem breakTarget?_graft_of_none (hx : (ofRoot c.sequence).Below x)
    (hl : x.enclosingLoop? = none) :
    (c.graft x).breakTarget? = c.breakTarget? ∧ (c.graft x).loopHeader? = c.loopHeader? := by
  simp [breakTarget?, loopHeader?, enclosingLoop?_graft hx, hl]

end Context

namespace Program

/-- A nested sequence behaves as a root whose point after it is replaced.  Whatever context
navigation gets to from the sequence taken by itself, the steps that lead there lead in the program
to a context about the same sequence.  There an operation goes on, and a sequence completes, at the
point that they have in the sequence alone, with the point after the sequence replaced by the exit
of its context.  If a loop of the sequence is around, its target is replaced likewise and its header
is the same; otherwise target and header are those of the context of the sequence. -/
theorem queries_local (p : Program d) (h : Home) : ∀ c, p.Navigates h c →
    ∀ x, (Context.ofRoot c.sequence).Reaches x →
      (∃ w, (Context.ofRoot c.sequence).follow? w = some x) ∧
      ∀ w, (Context.ofRoot c.sequence).follow? w = some x →
        ∃ y, c.follow? w = some y ∧ p.Navigates h y ∧ y.sequence = x.sequence ∧
          (∀ i o, x.get? i = some o → ∃ q?, x.exitOf o = .ok q? ∧
            y.exitOf o = .ok (q?.map (c.sequence.exit.replace c.exit))) ∧
          y.exit = c.sequence.exit.replace c.exit x.exit ∧
          (∀ l, x.enclosingLoop? = some l →
            y.breakTarget? = x.breakTarget?.map (c.sequence.exit.replace c.exit) ∧
            y.loopHeader? = x.loopHeader?) ∧
          (x.enclosingLoop? = none →
            y.breakTarget? = c.breakTarget? ∧ y.loopHeader? = c.loopHeader?) := by
  intro c hc x hreach
  have hx := Context.below_of_reaches hreach
  have hy : p.Navigates h (c.graft x) :=
    navigates_iff_below.mpr ((below_of_navigates hc).trans (Context.graft_below hx))
  have hsequence : (c.graft x).sequence = x.sequence := by
    rw [Context.sequence, Context.path_graft hx, Context.ops_graft hx]
    rfl
  refine ⟨Context.below_iff_follow?.mp hx, fun w hw => ?_⟩
  refine ⟨c.graft x, Context.follow?_graft .here hw, hy, hsequence, ?_,
    Context.exit_graft hx, ?_, ?_⟩
  · exact fun i o ho => Context.exitOf_graft hx ho
  · exact fun l hl => Context.breakTarget?_graft hx hl
  · exact fun hl => Context.breakTarget?_graft_of_none hx hl

/-- The empty scope at the end of the loop body of the sample: taken by itself, the body ends there,
and in the program control goes on after the loop. -/
theorem queries_local_sample :
    let c := (sample.context .main).descend 0 .body
      [.scope rfl [.conditional (.constant (.bool true)) [] [.breakLoop], .scope rfl []]]
    let x := (Context.ofRoot c.sequence).descend 0 .body
      [.conditional (.constant (.bool true)) [] [.breakLoop], .scope rfl []]
    sample.Navigates .main c ∧ (Context.ofRoot c.sequence).Reaches x ∧
    ∃ w y, c.follow? w = some y ∧ x.exit = c.sequence.exit ∧ y.exit = c.exit := by
  intro c x
  have hc : sample.Navigates .main c :=
    navigates_iff_below.mpr (.region .here rfl (List.mem_singleton.mpr rfl))
  have hx : (Context.ofRoot c.sequence).Reaches x := by
    have ho : (Context.ofRoot c.sequence).get? 0 = some ⟨⟨c.path, 0⟩, .scope rfl x.ops⟩ := rfl
    exact .enter (s := x.sequence) .here ho
      (Context.enter_element rfl (Op.body_mem_regions rfl _))
  obtain ⟨⟨w, hw⟩, hlocal⟩ := queries_local sample .main c hc x hx
  obtain ⟨y, hy, -, -, -, hexit, -⟩ := hlocal w hw
  exact ⟨hc, hx, w, y, hy, rfl, hexit⟩

end Program

end RegionFlow

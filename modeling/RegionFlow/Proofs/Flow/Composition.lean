import Mathlib.Data.List.Forall2
import RegionFlow.Proofs.Flow.Identity
import RegionFlow.Proofs.Flow.Locality
set_option autoImplicit false

namespace RegionFlow

variable {d : Dialect}

def shiftSteps (n : Nat) : List Step → List Step
  | [] => []
  | [s] => [⟨s.owner + n, s.region⟩]
  | s :: t :: rest => s :: shiftSteps n (t :: rest)

def SequencePath.shift (n : Nat) (p : SequencePath) : SequencePath :=
  { p with steps := shiftSteps n p.steps }

/-- The place of an operation once a number of elements stand before the body of its program: the
first index on the way to it has moved up. -/
def OpPath.shift (n : Nat) (p : OpPath) : OpPath :=
  ⟨p.sequence.shift n, if p.sequence.steps.isEmpty then p.index + n else p.index⟩

def Point.shift (n : Nat) : Point → Point
  | .entry p => .entry (p.shift n)
  | .exit s => .exit (s.shift n)

theorem OpPath.shift_enter (n : Nat) (p : OpPath) (r : Region) :
    (p.enter r).shift n = (p.shift n).enter r := by
  obtain ⟨⟨h, steps⟩, i⟩ := p
  cases steps <;> rfl

theorem OpPath.shift_inner (n : Nat) (p : OpPath) (r : Region) (i : Nat) :
    OpPath.shift n ⟨p.enter r, i⟩ = ⟨(p.shift n).enter r, i⟩ := by
  rw [← shift_enter]
  rfl

theorem OpPath.index_shift_succ (n : Nat) (s : SequencePath) (i : Nat) :
    (OpPath.shift n ⟨s, i + 1⟩).index = (OpPath.shift n ⟨s, i⟩).index + 1 := by
  simp only [shift]
  split
  · omega
  · rfl

theorem shiftSteps_zero (steps : List Step) : shiftSteps 0 steps = steps := by
  fun_induction shiftSteps 0 steps with
  | case1 => rfl
  | case2 s => rfl
  | case3 s t rest ih => rw [ih]

theorem OpPath.shift_zero (p : OpPath) : p.shift 0 = p := by
  simp [shift, SequencePath.shift, shiftSteps_zero]

theorem Point.shift_zero (q : Point) : q.shift 0 = q := by
  cases q with
  | entry p => rw [shift, OpPath.shift_zero]
  | exit s => simp [shift, SequencePath.shift, shiftSteps_zero]

theorem entryOf_shift (n : Nat) (o : Op d) :
    ∀ path : OpPath, entryOf (path.shift n) o = (entryOf path o).shift n := by
  induction o using Op.region_induction with
  | step o ih =>
    intro path
    cases o with
    | scope g b =>
      cases b with
      | nil => simp [entryOf, sequenceEntryOf, Point.shift, OpPath.shift_enter]
      | cons e rest =>
        have he := ih _ (Op.body_mem_regions g (e :: rest)) e List.mem_cons_self
          ⟨path.enter .body, 0⟩
        rw [OpPath.shift_inner] at he
        exact he
    | _ => rfl

def Program.between (pre post : Sequence d) (p : Program d) : Program d := ⟨pre ++ p.body ++ post⟩

def Program.seam (pre post : Sequence d) (p : Program d) (h : Home) : Point :=
  ((p.between pre post).context h).point (pre.length + p.body.length)

def Program.carry (pre post : Sequence d) (p : Program d) (h : Home) (q : Point) : Point :=
  if q = p.exit h then p.seam pre post h else q.shift pre.length

section

variable {pre post : Sequence d} {p : Program d} {h : Home}

theorem Program.carry_exit : p.carry pre post h (p.exit h) = p.seam pre post h := if_pos rfl

theorem Program.carry_entryOf (path : OpPath) (o : Op d) :
    p.carry pre post h (entryOf path o) = (entryOf path o).shift pre.length := by
  refine if_neg fun heq => ?_
  have hlt := length_lt_of_entryOf_eq_exit o _ _ heq
  exact Nat.not_lt_zero _ hlt

/-- The context of a sequence of the given program, and the context of the same sequence between the
other operations. -/
inductive Context.CarriedTo (pre post : Sequence d) (p : Program d) (h : Home) :
    Context d → Context d → Prop where
  | body : CarriedTo pre post p h (p.context h) ((p.between pre post).context h)
  | region {c c' : Context d} {i : Nat} {o : Op d} {r : Region} {s : Sequence d}
      (hc : CarriedTo pre post p h c c') (ho : c.ops[i]? = some o) (hr : (r, s) ∈ o.regions) :
      CarriedTo pre post p h (c.descend i r s)
        (c'.descend (OpPath.shift pre.length ⟨c.path, i⟩).index r s)

namespace Context.CarriedTo

variable {c c' : Context d} {i : Nat} {o : Op d}

theorem path_eq (hc : CarriedTo pre post p h c c') : c'.path = c.path.shift pre.length := by
  induction hc with
  | body => rfl
  | region _ _ _ ih =>
    rw [path_descend, path_descend, OpPath.shift_enter, ih]
    rfl

theorem opPath_eq (hc : CarriedTo pre post p h c c') (i : Nat) :
    (⟨c'.path, (OpPath.shift pre.length ⟨c.path, i⟩).index⟩ : OpPath) =
      OpPath.shift pre.length ⟨c.path, i⟩ := by
  rw [hc.path_eq]
  rfl

theorem element (hc : CarriedTo pre post p h c c') (ho : c.ops[i]? = some o) :
    c'.ops[(OpPath.shift pre.length ⟨c.path, i⟩).index]? = some o := by
  cases hc with
  | body =>
    have hi : i < p.body.length := (List.getElem?_eq_some_iff.mp ho).1
    have hindex : (OpPath.shift pre.length ⟨(p.context h).path, i⟩).index = i + pre.length := rfl
    rw [Program.ops_context] at ho
    rw [hindex, Program.ops_context, Program.between, List.append_assoc,
      List.getElem?_append_right (by omega), Nat.add_sub_cancel, List.getElem?_append_left hi, ho]
  | region hc _ _ =>
    rw [path_descend, OpPath.shift_inner]
    exact ho

theorem point_of_end (hc : CarriedTo pre post p h c c')
    (hend : c'.point (OpPath.shift pre.length ⟨c.path, c.ops.length⟩).index =
      p.carry pre post h c.exit) (hi : i ≤ c.ops.length) :
    c'.point (OpPath.shift pre.length ⟨c.path, i⟩).index = p.carry pre post h (c.point i) := by
  cases ho : c.ops[i]? with
  | some o =>
    rw [point_of_some (hc.element ho), point_of_some ho, hc.opPath_eq, entryOf_shift,
      Program.carry_entryOf]
  | none =>
    have hlast : i = c.ops.length := Nat.le_antisymm hi (List.getElem?_eq_none_iff.mp ho)
    rw [point_of_none ho, ← hend, hlast]

/-- Past the last element of a sequence, control is at what becomes of the exit of its context: in
the body of the program this is the seam, and a region goes on where its owner does. -/
theorem end_eq (hc : CarriedTo pre post p h c c') :
    c'.point (OpPath.shift pre.length ⟨c.path, c.ops.length⟩).index =
      p.carry pre post h c.exit := by
  induction hc with
  | body =>
    rw [Program.exit_context, Program.carry_exit, Program.seam, Nat.add_comm]
    rfl
  | @region c c' i o r s hc ho hr ih =>
    have hnext : i + 1 ≤ c.ops.length := (List.getElem?_eq_some_iff.mp ho).1
    have hpoint := hc.point_of_end ih hnext
    rw [OpPath.index_shift_succ] at hpoint
    rw [path_descend, OpPath.shift_inner, point_of_none (by simp), exit_descend, exit_descend,
      successor_eq_point, successor_eq_point]
    exact hpoint

theorem successor_eq (hc : CarriedTo pre post p h c c') (ho : c.ops[i]? = some o) :
    c'.successor (OpPath.shift pre.length ⟨c.path, i⟩).index =
      p.carry pre post h (c.successor i) := by
  have hnext : i + 1 ≤ c.ops.length := (List.getElem?_eq_some_iff.mp ho).1
  rw [successor_eq_point, successor_eq_point, ← OpPath.index_shift_succ]
  exact hc.point_of_end hc.end_eq hnext

theorem loop_eq (hc : CarriedTo pre post p h c c') :
    c'.breakTarget? = c.breakTarget?.map (p.carry pre post h) ∧
      c'.loopHeader? = c.loopHeader?.map (Point.shift pre.length) := by
  refine loops_of_rel ?_
  induction hc with
  | body => exact .none
  | @region c c' i o r s hc ho hr ih =>
    rw [enclosingLoop?_descend r s ho, enclosingLoop?_descend r s (hc.element ho)]
    split
    · refine .some ⟨hc.successor_eq ho, ?_⟩
      rw [hc.opPath_eq]
      exact entryOf_shift _ o _
    · exact ih

end Context.CarriedTo

structure Located.CarriedTo (pre post : Sequence d) (p : Program d) (h : Home)
    (l m : Located d) : Prop where
  context : l.context.CarriedTo pre post p h m.context
  index : m.index = (OpPath.shift pre.length ⟨l.context.path, l.index⟩).index
  op : m.op = l.op
  element : l.context.ops[l.index]? = some l.op

theorem preorderFrom_carried {c c' : Context d} {i : Nat} {s : List (Op d)}
    (hs : c.ops.drop i = s)
    (ho : ∀ e ∈ s, ∀ j, c.ops[j]? = some e →
      List.Forall₂ (Located.CarriedTo pre post p h) (preorderOf c j e)
        (preorderOf c' (OpPath.shift pre.length ⟨c.path, j⟩).index e)) :
    List.Forall₂ (Located.CarriedTo pre post p h) (preorderFrom c i s)
      (preorderFrom c' (OpPath.shift pre.length ⟨c.path, i⟩).index s) := by
  induction s generalizing i with
  | nil => exact .nil
  | cons o rest ih =>
    rw [List.forall_mem_cons] at ho
    obtain ⟨hi, hrest⟩ := getElem?_of_drop hs
    have htail := ih hrest ho.2
    rw [OpPath.index_shift_succ] at htail
    exact List.rel_append (ho.1 i hi) htail

theorem preorderOf_carried (o : Op d) : ∀ (c c' : Context d) (i : Nat),
    c.CarriedTo pre post p h c' → c.ops[i]? = some o →
      List.Forall₂ (Located.CarriedTo pre post p h) (preorderOf c i o)
        (preorderOf c' (OpPath.shift pre.length ⟨c.path, i⟩).index o) := by
  induction o using Op.region_induction with
  | step o ih =>
    intro c c' i hc ho
    rw [preorderOf_eq, preorderOf_eq]
    refine .cons ⟨hc, rfl, rfl, ho⟩ ?_
    apply List.rel_flatMap (R := fun q q' => q = q' ∧ q ∈ o.regions)
    · exact List.forall₂_same.mpr fun q hq => ⟨rfl, hq⟩
    · rintro q _ ⟨rfl, hq⟩
      have hin := hc.region ho hq
      have hregion := preorderFrom_carried (c := c.descend i q.1 q.2) (i := 0) rfl
        fun e he j hj => ih q hq e he _ _ j hin hj
      rw [Context.path_descend, OpPath.shift_inner] at hregion
      exact hregion

/-- What the queries answer at an operation, given what becomes of its place, of its entry and of
the points where control goes on. -/
structure Located.AnswersBy (place : OpPath → OpPath) (before after : Point → Point)
    (l m : Located d) : Prop where
  op : m.op = l.op
  path : m.placed.path = place l.placed.path
  entry : m.entry = before l.entry
  exit? : m.exit? = l.exit?.map after
  breakTarget? : m.context.breakTarget? = l.context.breakTarget?.map after
  loopHeader? : m.context.loopHeader? = l.context.loopHeader?.map before

theorem Located.CarriedTo.answersBy {l m : Located d} (hlm : l.CarriedTo pre post p h m) :
    l.AnswersBy (OpPath.shift pre.length) (Point.shift pre.length) (p.carry pre post h) m := by
  obtain ⟨c, i, o⟩ := l
  obtain ⟨c', j, o'⟩ := m
  obtain ⟨hc, hindex, hop, ho⟩ := hlm
  simp only at hc hindex hop ho
  subst hindex hop
  refine ⟨rfl, hc.opPath_eq i, ?_, ?_, hc.loop_eq.1, hc.loop_eq.2⟩
  · rw [Located.entry, Located.placed, PlacedOp.entry, hc.opPath_eq i]
    exact entryOf_shift _ _ _
  · simp only [Located.exit?, hc.successor_eq ho]
    split
    · rfl
    · rfl

/-- A walk hands out the operations of the program in one stretch, in their order. -/
theorem Program.between_answers (pre post : Sequence d) (p : Program d) (h : Home) :
    List.Forall₂ (Located.AnswersBy (OpPath.shift pre.length) (Point.shift pre.length)
      (p.carry pre post h)) (p.operations h)
      (preorderFrom ((p.between pre post).context h) pre.length p.body) := by
  have hbody : (p.context h).CarriedTo pre post p h ((p.between pre post).context h) := .body
  have hcarried := preorderFrom_carried (c := p.context h) (i := 0) rfl
    fun e _ j hj => preorderOf_carried e _ _ j hbody hj
  have hindex : (OpPath.shift pre.length ⟨(p.context h).path, 0⟩).index = pre.length :=
    Nat.zero_add _
  rw [hindex] at hcarried
  rw [operations_eq]
  exact hcarried.imp fun l m hlm => hlm.answersBy

end

namespace Program

def append (p q : Program d) : Program d := ⟨p.body ++ q.body⟩

variable {p q : Program d} {h : Home}

theorem between_nil_left : p.between [] q.body = p.append q := rfl

theorem between_nil_right : q.between p.body [] = p.append q := by
  simp [between, append]

theorem carry_right : q.carry p.body [] h = Point.shift p.body.length := by
  funext x
  rw [carry]
  split
  · rename_i hx
    -- Past the last element of the second program nothing follows.
    rw [hx, seam, between_nil_right, Context.point_of_none (by simp [append])]
    rfl
  · rfl

theorem seam_left : p.seam [] q.body h = (q.entry h).shift p.body.length := by
  have hbody : (q.context h).CarriedTo p.body [] q h ((q.between p.body []).context h) := .body
  have hstart := hbody.point_of_end (i := 0) hbody.end_eq (Nat.zero_le _)
  rw [carry_right, between_nil_right, ← entry_eq_point] at hstart
  rw [seam, between_nil_left, ← hstart]
  rfl

theorem carry_left :
    p.carry [] q.body h = (p.exit h).replace ((q.entry h).shift p.body.length) := by
  funext x
  rw [carry, Point.replace, seam_left]
  split
  · rfl
  · exact Point.shift_zero x

theorem entry_append (p q : Program d) (h : Home) : (p.append q).entry h =
    if p.body = [] then (q.entry h).shift p.body.length else p.entry h := by
  have hbody : (p.context h).CarriedTo [] q.body p h ((p.between [] q.body).context h) := .body
  have hstart := hbody.point_of_end (i := 0) hbody.end_eq (Nat.zero_le _)
  have hindex : (OpPath.shift ([] : Sequence d).length ⟨(p.context h).path, 0⟩).index = 0 := rfl
  rw [hindex, between_nil_left, carry_left, ← entry_eq_point, ← entry_eq_point] at hstart
  simp only [hstart, Point.replace, entry_eq_exit_iff]

theorem shift_entry_of_nil (n : Nat) (hq : q.body = []) : (q.entry h).shift n = q.exit h := by
  rw [entry_eq_exit_iff.mpr hq]
  rfl

/-- Composition of flow.  A walk over two programs one after the other hands out the operations of
the first and then those of the second.  Those of the first stand where they stood and answer as
they answered, except that control which would end the program goes on to the entry of the second,
if that has operations.  Those of the second answer as they answered, with the first index in every
place moved up by the number of elements of the first; the end of the program stays what it is. -/
theorem append_flow (p q : Program d) (h : Home) :
    let n := p.body.length
    let next := if q.body = [] then p.exit h else (q.entry h).shift n
    (∃ front back, (p.append q).operations h = front ++ back ∧
      List.Forall₂ (Located.AnswersBy id id ((p.exit h).replace next)) (p.operations h) front ∧
      List.Forall₂ (Located.AnswersBy (OpPath.shift n) (Point.shift n) (Point.shift n))
        (q.operations h) back) ∧
    (p.append q).entry h = (if p.body = [] then (q.entry h).shift n else p.entry h) ∧
    (p.append q).exit h = p.exit h ∧ (q.exit h).shift n = (p.append q).exit h := by
  intro n next
  refine ⟨?_, p.entry_append q h, rfl, rfl⟩
  have hnext : next = (q.entry h).shift n := by
    simp only [next]
    split
    · rename_i hq
      exact (shift_entry_of_nil n hq).symm
    · rfl
  have hfront := between_answers [] q.body p h
  have hback := between_answers p.body [] q h
  have hplace : OpPath.shift ([] : Sequence d).length = id := funext OpPath.shift_zero
  have hpoint : Point.shift ([] : Sequence d).length = id := funext Point.shift_zero
  rw [carry_left, hplace, hpoint, ← hnext] at hfront
  rw [carry_right, between_nil_right] at hback
  refine ⟨preorderFrom ((p.append q).context h) 0 p.body, _, ?_, hfront, hback⟩
  rw [operations_eq, Context.preorder, append, ops_context, preorderFrom_append, Nat.zero_add]

end Program

end RegionFlow

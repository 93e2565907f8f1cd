import RegionFlow.Analysis.Validation
import RegionFlow.Proofs.Flow.Forward
set_option autoImplicit false

/-!
Escapes are found from above, by a recursion that stops at loops, and the loop that a break leaves
is found from below, by a search through the regions around it.  Both are the same question: whether
there is a loop on the way down to the break.
-/

namespace RegionFlow

variable {d : Dialect}

namespace Located

def Around (a l : Located d) : Prop :=
  ∃ p ∈ a.op.regions, (a.context.descend a.index p.1 p.2).Below l.context

/-- An operation is reached from another by going down through regions, and no operation on the way
is a loop, the first and the last included. -/
inductive LoopFree (l : Located d) : Located d → Prop where
  | here (hl : l.op.isLoop = false) : LoopFree l l
  | region {m : Located d} {r : Region} {s : Sequence d} {i : Nat} {o : Op d}
      (hm : LoopFree l m) (hr : (r, s) ∈ m.op.regions) (ho : s[i]? = some o)
      (hl : o.isLoop = false) : LoopFree l ⟨m.context.descend m.index r s, i, o⟩

theorem Around.depth_lt {a l : Located d} (h : a.Around l) : a.depth < l.depth := by
  obtain ⟨p, -, hbelow⟩ := h
  exact hbelow.depth_le

theorem Around.below {a l : Located d} (h : a.Around l)
    (ha : a.context.ops[a.index]? = some a.op) : a.context.Below l.context := by
  obtain ⟨p, hp, hbelow⟩ := h
  exact (Context.Below.here.region ha hp).trans hbelow

namespace LoopFree

variable {l m b : Located d}

theorem head_not_loop (h : l.LoopFree m) : l.op.isLoop = false := by
  induction h with
  | here hl => exact hl
  | region _ _ _ _ ih => exact ih

theorem trans (hlm : l.LoopFree m) (hmb : m.LoopFree b) : l.LoopFree b := by
  induction hmb with
  | here => exact hlm
  | region _ hr ho hl ih => exact ih.region hr ho hl

theorem cases_head (h : l.LoopFree b) : b = l ∨ ∃ p ∈ l.op.regions, ∃ j e, p.2[j]? = some e ∧
    LoopFree ⟨l.context.descend l.index p.1 p.2, j, e⟩ b := by
  induction h with
  | here => exact .inl rfl
  | @region m r s i o hm hr ho hl ih =>
    right
    rcases ih with rfl | ⟨p, hp, j, e, he, hway⟩
    · exact ⟨(r, s), hr, i, o, ho, .here hl⟩
    · exact ⟨p, hp, j, e, he, hway.region hr ho hl⟩

theorem inside (h : l.LoopFree m) (hl : l.context.ops[l.index]? = some l.op) :
    (m = l ∨ l.Around m) ∧ m.context.ops[m.index]? = some m.op := by
  induction h with
  | here => exact ⟨.inl rfl, hl⟩
  | @region m r s i o _ hr ho _ ih =>
    obtain ⟨haround, hm⟩ := ih
    refine ⟨.inr ?_, ho⟩
    rcases haround with rfl | ⟨p, hp, hbelow⟩
    · exact ⟨(r, s), hr, .here⟩
    · exact ⟨p, hp, hbelow.region hm hr⟩

theorem enclosingLoop?_eq (h : l.LoopFree m) (hl : l.context.ops[l.index]? = some l.op) :
    m.context.enclosingLoop? = l.context.enclosingLoop? := by
  induction h with
  | here => rfl
  | @region m r s i o hm _ _ _ ih =>
    rw [Context.enclosingLoop?_descend r s (hm.inside hl).2, ih]
    have hnot : m.op.isLoop = false := by
      cases hm with
      | here hl => exact hl
      | region _ _ _ hl => exact hl
    simp [hnot]

end LoopFree

end Located

theorem sequenceEscapes_iff {s : Sequence d} :
    sequenceEscapes s = true ↔ ∃ (i : Nat) (o : Op d), s[i]? = some o ∧ o.escapes = true := by
  induction s with
  | nil => simp [sequenceEscapes]
  | cons o s ih =>
    rw [sequenceEscapes, Bool.or_eq_true, ih]
    constructor
    · rintro (h | ⟨i, e, he, h⟩)
      · exact ⟨0, o, rfl, h⟩
      · exact ⟨i + 1, e, he, h⟩
    · rintro ⟨i, e, he, h⟩
      cases i with
      | zero => simp_all
      | succ i => exact .inr ⟨i, e, he, h⟩

theorem Op.escapes_iff {o : Op d} : o.escapes = true ↔ o.isLoop = false ∧
    (o.isBreak = true ∨ ∃ p ∈ o.regions, sequenceEscapes p.2 = true) := by
  cases o <;> simp [escapes, isLoop, isBreak, regions]

theorem Op.not_isLoop_of_isBreak {o : Op d} (h : o.isBreak = true) : o.isLoop = false := by
  cases o <;> simp_all [isBreak, isLoop]

/-- An operation escapes exactly if it holds a break with no loop on the way down to it. -/
theorem Op.escapes_iff_loopFree (o : Op d) : ∀ (c : Context d) (i : Nat),
    o.escapes = true ↔ ∃ b, Located.LoopFree ⟨c, i, o⟩ b ∧ b.op.isBreak = true := by
  induction o using Op.region_induction with
  | step o ih =>
    intro c i
    rw [Op.escapes_iff]
    constructor
    · rintro ⟨hl, hbreak | ⟨p, hp, hs⟩⟩
      · exact ⟨⟨c, i, o⟩, .here hl, hbreak⟩
      · obtain ⟨j, e, he, hesc⟩ := sequenceEscapes_iff.mp hs
        have hmem := List.mem_of_getElem? he
        obtain ⟨b, hb, hbreak⟩ := (ih p hp e hmem (c.descend i p.1 p.2) j).mp hesc
        have hfirst : Located.LoopFree ⟨c, i, o⟩ ⟨c.descend i p.1 p.2, j, e⟩ :=
          .region (.here hl) hp he hb.head_not_loop
        exact ⟨b, hfirst.trans hb, hbreak⟩
    · rintro ⟨b, hb, hbreak⟩
      refine ⟨hb.head_not_loop, ?_⟩
      rcases hb.cases_head with rfl | ⟨p, hp, j, e, he, hway⟩
      · exact .inl hbreak
      · have hmem := List.mem_of_getElem? he
        have hesc := (ih p hp e hmem (c.descend i p.1 p.2) j).mpr ⟨b, hway, hbreak⟩
        exact .inr ⟨p, hp, sequenceEscapes_iff.mpr ⟨j, e, he, hesc⟩⟩

namespace Context

variable {base c : Context d}

theorem Below.below_enclosingLoop? {x : Context d × PlacedOp d} (h : base.Below c)
    (hroot : base.enclosingLoop? = none) (hx : c.enclosingLoop? = some x) :
    ∃ p ∈ x.2.op.regions, (x.1.descend x.2.path.index p.1 p.2).Below c := by
  induction h with
  | here => simp [hroot] at hx
  | @region c i o r s _ ho hr ih =>
    rw [enclosingLoop?_descend r s ho] at hx
    split at hx
    · rw [Option.some.injEq] at hx
      subst hx
      exact ⟨(r, s), hr, .here⟩
    · obtain ⟨p, hp, hbelow⟩ := ih hx
      exact ⟨p, hp, hbelow.region ho hr⟩

end Context

/-- Going down from an operation, either no loop is met, or the innermost loop around the sequence
is one that was met. -/
theorem Located.loopFree_or_enclosed {l : Located d} {p : Region × Sequence d} {c : Context d}
    (hl : l.context.ops[l.index]? = some l.op) (hp : p ∈ l.op.regions)
    (hc : (l.context.descend l.index p.1 p.2).Below c) :
    (∀ i o, c.ops[i]? = some o → o.isLoop = false → l.LoopFree ⟨c, i, o⟩) ∨
      ∃ x, c.enclosingLoop? = some x ∧ l.context.Below x.1 := by
  induction hc with
  | here =>
    cases hloop : l.op.isLoop with
    | true =>
      refine .inr ⟨(l.context, l.placed), ?_, .here⟩
      rw [Context.enclosingLoop?_descend _ _ hl, if_pos hloop]
      rfl
    | false => exact .inl fun i o ho hnot => .region (.here hloop) hp ho hnot
  | @region c i o r s hc ho hr ih =>
    rw [Context.enclosingLoop?_descend r s ho]
    cases hloop : o.isLoop with
    | true =>
      have hbelow := (Context.Below.here.region hl hp).trans hc
      exact .inr ⟨_, if_pos rfl, hbelow⟩
    | false =>
      rcases ih with hfree | hx
      · exact .inl fun j e he hnot => .region (hfree i o ho hloop) hr he hnot
      · exact .inr hx

theorem Context.exists_element {c : Context d} {m : Located d} (hm : m ∈ c.preorder) :
    ∃ i o, c.ops[i]? = some o ∧ (m = ⟨c, i, o⟩ ∨ Located.Around ⟨c, i, o⟩ m) := by
  obtain ⟨i, o, ho, hm⟩ := mem_preorder.mp hm
  refine ⟨i, o, ho, ?_⟩
  rcases mem_preorderOf.mp hm with rfl | ⟨p, hp, hm⟩
  · exact .inl rfl
  · exact .inr ⟨p, hp, (mem_preorder_iff.mp hm).1⟩

namespace Program

variable {p : Program d} {h : Home} {l b : Located d}

theorem depth_lt_of_enclosingLoop? {c : Context d} {x : Context d × PlacedOp d}
    (hc : (p.context h).Below c) (hx : c.enclosingLoop? = some x) : x.1.depth < c.depth := by
  obtain ⟨q, -, hin⟩ := hc.below_enclosingLoop? rfl hx
  exact hin.depth_le

theorem around_of_enclosingLoop? {x : Context d × PlacedOp d} (hl : l ∈ p.operations h)
    (hx : l.context.enclosingLoop? = some x) : ∃ a ∈ p.operations h, a.context = x.1 ∧
      a.placed = x.2 ∧ a.op.isLoop = true ∧ a.Around l := by
  have hbelow := (mem_operations.mp hl).1
  obtain ⟨a, ha, hcontext, hplaced, hloop, -⟩ :=
    located_of_enclosingLoop? (navigates_iff_below.mpr hbelow) hx
  refine ⟨a, ha, hcontext, hplaced, hloop, ?_⟩
  obtain ⟨q, hq, hin⟩ := hbelow.below_enclosingLoop? rfl hx
  rw [← hcontext, ← hplaced] at hin
  rw [← hplaced] at hq
  exact ⟨q, hq, hin⟩

/-- Where the innermost loop around a break, if any, is less deep than an operation above the break,
no loop is met on the way down from there. -/
theorem loopFree_of_depth_lt (hl : l ∈ p.operations h) (hb : b ∈ p.operations h)
    (hbreak : b.op.isBreak = true) (hin : b = l ∨ l.Around b)
    (hloops : ∀ x, b.context.enclosingLoop? = some x → x.1.depth < l.depth) : l.LoopFree b := by
  have hnot := Op.not_isLoop_of_isBreak hbreak
  rcases hin with rfl | ⟨q, hq, hbelow⟩
  · exact .here hnot
  · rcases Located.loopFree_or_enclosed (mem_operations.mp hl).2 hq hbelow with hfree | ⟨x, hx, hle⟩
    · exact hfree b.index b.op (mem_operations.mp hb).2 hnot
    · exact absurd (hloops x hx) (Nat.not_lt.mpr hle.depth_le)

/-- A break has no loop on the way down to it exactly if no loop is around it, or one around the
operation where the way begins. -/
theorem loopFree_iff_enclosingLoop? (hl : l ∈ p.operations h) (hb : b ∈ p.operations h)
    (hbreak : b.op.isBreak = true) : l.LoopFree b ↔ (b = l ∨ l.Around b) ∧
      (b.context.enclosingLoop? = none ∨ ∃ a ∈ p.operations h, a.op.isLoop = true ∧
        b.context.enclosingLoop? = some (a.context, a.placed) ∧ a.Around l) := by
  have hlget := (mem_operations.mp hl).2
  constructor
  · intro hfree
    refine ⟨(hfree.inside hlget).1, ?_⟩
    rw [hfree.enclosingLoop?_eq hlget]
    cases hx : l.context.enclosingLoop? with
    | none => exact .inl rfl
    | some x =>
      obtain ⟨a, ha, hcontext, hplaced, hloop, haround⟩ := around_of_enclosingLoop? hl hx
      refine .inr ⟨a, ha, hloop, ?_, haround⟩
      rw [hcontext, hplaced]
  · rintro ⟨hin, hloops⟩
    apply loopFree_of_depth_lt hl hb hbreak hin
    intro x hx
    rcases hloops with hnone | ⟨a, -, -, hsome, haround⟩
    · simp [hnone] at hx
    · rw [hsome, Option.some.injEq] at hx
      rw [← hx]
      exact haround.depth_lt

theorem mem_operations_of_loopFree (hl : l ∈ p.operations h) (hfree : l.LoopFree b) :
    b ∈ p.operations h := by
  obtain ⟨hbelow, hget⟩ := mem_operations.mp hl
  obtain ⟨rfl | haround, hbget⟩ := hfree.inside hget
  · exact hl
  · exact mem_operations.mpr ⟨hbelow.trans (haround.below hget), hbget⟩

theorem escapes_iff_loopFree (hl : l ∈ p.operations h) : l.op.escapes = true ↔
    ∃ b ∈ p.operations h, b.op.isBreak = true ∧ l.LoopFree b := by
  rw [Op.escapes_iff_loopFree l.op l.context l.index]
  constructor
  · rintro ⟨b, hfree, hbreak⟩
    exact ⟨b, mem_operations_of_loopFree hl hfree, hbreak, hfree⟩
  · rintro ⟨b, -, hbreak, hfree⟩
    exact ⟨b, hfree, hbreak⟩

theorem sequenceEscapes_iff_break {c : Context d} (hc : (p.context h).Below c) :
    sequenceEscapes c.ops = true ↔ ∃ b ∈ p.operations h, c.Below b.context ∧
      b.op.isBreak = true ∧ b.context.enclosingLoop? = c.enclosingLoop? := by
  constructor
  · intro hs
    obtain ⟨i, o, ho, hesc⟩ := sequenceEscapes_iff.mp hs
    have hl : (⟨c, i, o⟩ : Located d) ∈ p.operations h := mem_operations.mpr ⟨hc, ho⟩
    obtain ⟨b, hb, hbreak, hfree⟩ := (escapes_iff_loopFree hl).mp hesc
    refine ⟨b, hb, ?_, hbreak, hfree.enclosingLoop?_eq ho⟩
    rcases (hfree.inside ho).1 with rfl | haround
    · exact .here
    · exact haround.below ho
  · rintro ⟨b, hb, hbelow, hbreak, heq⟩
    have hmem : b ∈ c.preorder := Context.mem_preorder_iff.mpr ⟨hbelow, (mem_operations.mp hb).2⟩
    obtain ⟨i, o, ho, hin⟩ := Context.exists_element hmem
    have hl : (⟨c, i, o⟩ : Located d) ∈ p.operations h := mem_operations.mpr ⟨hc, ho⟩
    have hfree : Located.LoopFree ⟨c, i, o⟩ b := by
      apply loopFree_of_depth_lt hl hb hbreak hin
      intro x hx
      rw [heq] at hx
      exact depth_lt_of_enclosingLoop? hc hx
    exact sequenceEscapes_iff.mpr ⟨i, o, ho, (escapes_iff_loopFree hl).mpr ⟨b, hb, hbreak, hfree⟩⟩

theorem escapes_iff_stray (p : Program d) (h : Home) : p.escapes = true ↔
    ∃ b ∈ p.operations h, b.op.isBreak = true ∧ b.context.enclosingLoop? = none := by
  have hbody : p.escapes = sequenceEscapes (p.context h).ops := rfl
  have hroot : (p.context h).enclosingLoop? = none := rfl
  rw [hbody, sequenceEscapes_iff_break .here, hroot]
  constructor
  · rintro ⟨b, hb, -, hstray⟩
    exact ⟨b, hb, hstray⟩
  · rintro ⟨b, hb, hstray⟩
    exact ⟨b, hb, (mem_operations.mp hb).1, hstray⟩

theorem escapes_iff_no_target (p : Program d) (h : Home) : p.escapes = true ↔
    ∃ b ∈ p.operations h, b.op.isBreak = true ∧ b.context.breakTarget? = none := by
  have htarget : ∀ b : Located d,
      b.context.breakTarget? = none ↔ b.context.enclosingLoop? = none :=
    fun _ => Option.map_eq_none_iff
  simp only [htarget]
  exact p.escapes_iff_stray h

end Program

/-- Escapes agree with where breaks go.  An operation escapes exactly if its tree holds a break with
no loop on the way down to it, and a break of the tree is one of these exactly if the loop that it
leaves, if any, is a proper ancestor of the operation.  A sequence escapes exactly if this holds of
an element, and a program exactly if some break in it has no loop around it, and so no target. -/
theorem Program.escapes_agree_with_breaks (p : Program d) (h : Home) :
    (∀ l ∈ p.operations h,
      (l.op.escapes = true ↔ ∃ b ∈ p.operations h, b.op.isBreak = true ∧ l.LoopFree b) ∧
      ∀ b ∈ p.operations h, b.op.isBreak = true →
        (l.LoopFree b ↔ (b = l ∨ l.Around b) ∧
          (b.context.enclosingLoop? = none ∨ ∃ a ∈ p.operations h, a.op.isLoop = true ∧
            b.context.enclosingLoop? = some (a.context, a.placed) ∧ a.Around l))) ∧
    (∀ c, p.Navigates h c → (sequenceEscapes c.ops = true ↔
      ∃ l ∈ p.operations h, l.context = c ∧ l.op.escapes = true)) ∧
    (p.escapes = true ↔
      ∃ b ∈ p.operations h, b.op.isBreak = true ∧ b.context.enclosingLoop? = none) ∧
    (p.escapes = true ↔
      ∃ b ∈ p.operations h, b.op.isBreak = true ∧ b.context.breakTarget? = none) := by
  refine ⟨?_, ?_, p.escapes_iff_stray h, p.escapes_iff_no_target h⟩
  · intro l hl
    exact ⟨escapes_iff_loopFree hl, fun b hb hbreak => loopFree_iff_enclosingLoop? hl hb hbreak⟩
  · intro c hc
    rw [sequenceEscapes_iff]
    constructor
    · rintro ⟨i, o, ho, hesc⟩
      exact ⟨⟨c, i, o⟩, mem_operations.mpr ⟨below_of_navigates hc, ho⟩, rfl, hesc⟩
    · rintro ⟨l, hl, rfl, hesc⟩
      exact ⟨l.index, l.op, (mem_operations.mp hl).2, hesc⟩

theorem Program.escapes_agree_with_breaks_sample :
    let arms : Located .imp :=
      ⟨sampleScope, 0, .conditional (.constant (.bool true)) [] [.breakLoop]⟩
    arms ∈ sample.operations .main ∧
    ∃ b ∈ sample.operations .main, b.op.isBreak = true ∧ arms.LoopFree b := by
  intro arms
  have hl : arms ∈ sample.operations .main := mem_operations.mpr ⟨sampleScope_below, rfl⟩
  exact ⟨hl, ((escapes_agree_with_breaks sample .main).1 arms hl).1.mp rfl⟩

end RegionFlow

import RegionFlow.Proofs.Flow.Preorder
set_option autoImplicit false

/-!
From the context of a program one moves by entering a region, to the parent, to the innermost loop,
and along walks.  However the moves are mixed, the contexts reached are those below the context of
the program.
-/

namespace RegionFlow

variable {d : Dialect}

theorem OpPath.enter_inj {p q : OpPath} {r t : Region} : p.enter r = q.enter t ↔ p = q ∧ r = t := by
  obtain ⟨⟨h, s⟩, i⟩ := p
  obtain ⟨⟨h', s'⟩, j⟩ := q
  simp only [enter, SequencePath.mk.injEq, List.cons.injEq, Step.mk.injEq, OpPath.mk.injEq]
  constructor
  · rintro ⟨rfl, ⟨rfl, rfl⟩, rfl⟩
    exact ⟨⟨⟨rfl, rfl⟩, rfl⟩, rfl⟩
  · rintro ⟨⟨⟨rfl, rfl⟩, rfl⟩, rfl⟩
    exact ⟨rfl, ⟨rfl, rfl⟩, rfl⟩

theorem OpPath.enter_ne_body {q : OpPath} {r : Region} {h : Home} : q.enter r ≠ .body h := by
  simp [enter, SequencePath.body]

theorem PlacedOp.find?_regions {o : PlacedOp d} {q : SequencePath} {x : Region × PlacedSequence d} :
    (o.regions.find? fun p => p.2.path == q) = some x ↔
      ∃ s, (x.1, s) ∈ o.op.regions ∧ x.2 = ⟨o.path.enter x.1, s⟩ ∧ q = o.path.enter x.1 := by
  obtain ⟨r, path, ops⟩ := x
  constructor
  · intro h
    have hmem := List.mem_of_find?_eq_some h
    have hpath := List.find?_some h
    simp only [regions, List.mem_map, Prod.mk.injEq, Prod.exists] at hmem
    obtain ⟨r', s, hr, rfl, hs⟩ := hmem
    rw [PlacedSequence.mk.injEq] at hs
    obtain ⟨rfl, rfl⟩ := hs
    exact ⟨_, hr, rfl, (beq_iff_eq.mp hpath).symm⟩
  · rintro ⟨s, hr, hs, rfl⟩
    obtain ⟨path', op⟩ := o
    simp only [PlacedSequence.mk.injEq] at hs
    obtain ⟨rfl, rfl⟩ := hs
    cases op <;> simp [Op.regions] at hr
    case conditional =>
      rcases hr with ⟨rfl, rfl⟩ | ⟨rfl, rfl⟩ <;>
        simp [regions, Op.regions, List.find?, OpPath.enter_inj]
    case whileLoop => simp [regions, Op.regions, hr]
    case scope => simp [regions, Op.regions, hr]

namespace Context

/-- A region is entered exactly if its owner is an element and the region is one of its own. -/
theorem enter_eq_ok_iff {c c' : Context d} {o : PlacedOp d} {s : PlacedSequence d} :
    c.enter o s = .ok c' ↔ ∃ i, o.path = ⟨c.path, i⟩ ∧ i < c.ops.length ∧ ∃ r t,
      (r, t) ∈ o.op.regions ∧ s.path = o.path.enter r ∧ c' = c.descend i r t := by
  rw [enter]
  constructor
  · intro h
    cases hindex : c.sequence.indexOf? o with
    | none => simp [hindex] at h
    | some i =>
      cases hregion : o.regions.find? fun p => p.2.path == s.path with
      | none => simp [hindex, hregion] at h
      | some x =>
        obtain ⟨hpath, hi⟩ := PlacedSequence.indexOf?_eq_some_iff.mp hindex
        obtain ⟨t, ht, hx, hs⟩ := PlacedOp.find?_regions.mp hregion
        simp only [hindex, hregion, hx, Except.ok.injEq] at h
        exact ⟨i, hpath, hi, x.1, t, ht, hs, h.symm⟩
  · rintro ⟨i, hpath, hi, r, t, ht, hs, rfl⟩
    have hindex : c.sequence.indexOf? o = some i :=
      PlacedSequence.indexOf?_eq_some_iff.mpr ⟨hpath, hi⟩
    have hregion := PlacedOp.find?_regions (x := ⟨r, ⟨o.path.enter r, t⟩⟩) |>.mpr ⟨t, ht, rfl, hs⟩
    rw [hindex, hregion]

theorem enter_element {c : Context d} {i : Nat} {o : Op d} {r : Region} {s : Sequence d}
    (ho : c.ops[i]? = some o) (hr : (r, s) ∈ o.regions) :
    c.enter ⟨⟨c.path, i⟩, o⟩ ⟨OpPath.enter ⟨c.path, i⟩ r, s⟩ = .ok (c.descend i r s) :=
  enter_eq_ok_iff.mpr ⟨i, rfl, (List.getElem?_eq_some_iff.mp ho).1, r, s, hr, rfl, rfl⟩

namespace Below

variable {base c c' : Context d}

theorem of_enter {i : Nat} {o : PlacedOp d} {s : PlacedSequence d} (h : base.Below c)
    (ho : c.get? i = some o) (he : c.enter o s = .ok c') : base.Below c' := by
  obtain ⟨hpath, hop⟩ := get?_eq_some_iff.mp ho
  obtain ⟨j, hj, -, r, t, ht, -, rfl⟩ := enter_eq_ok_iff.mp he
  rw [hpath, OpPath.mk.injEq] at hj
  rw [← hj.2]
  exact h.region hop ht

theorem of_parent? (h : base.Below c) (hbase : base.isRoot = true) (hp : c.parent? = some c') :
    base.Below c' := by
  cases h with
  | here =>
    have hframes : base.frames = [] := List.isEmpty_iff.mp hbase
    simp [parent?, hframes] at hp
  | region hc _ _ =>
    rw [parent?, descend, Option.some.injEq] at hp
    rwa [← hp]

theorem of_walk {l : Located d} (h : base.Below c) (hl : l ∈ (Walk.start c).toList) :
    base.Below l.context := by
  rw [Walk.toList_start, mem_preorder_iff] at hl
  exact h.trans hl.1

end Below

end Context

/-- The contexts that navigation in a program gets to, by any finite run of moves. -/
inductive Program.Navigates (p : Program d) (h : Home) : Context d → Prop where
  | context : p.Navigates h (p.context h)
  | enter {c c' : Context d} {l : Located d} {s : PlacedSequence d} (hc : p.Navigates h c)
      (hl : l ∈ p.operations h) (he : c.enter l.placed s = .ok c') : p.Navigates h c'
  | parent {c c' : Context d} (hc : p.Navigates h c) (hp : c.parent? = some c') : p.Navigates h c'
  | enclosingLoop {c : Context d} {l : Context d × PlacedOp d} (hc : p.Navigates h c)
      (hl : c.enclosingLoop? = some l) : p.Navigates h l.1
  | walk {c : Context d} {l : Located d} (hc : p.Navigates h c)
      (hl : l ∈ (Walk.start c).toList) : p.Navigates h l.context

theorem Program.below_of_navigates {p : Program d} {h : Home} {c : Context d}
    (hc : p.Navigates h c) : (p.context h).Below c := by
  induction hc with
  | context => exact .here
  | @enter c c' l s _ hl he ih =>
    obtain ⟨i, hpath, -⟩ := Context.enter_eq_ok_iff.mp he
    rw [mem_operations] at hl
    obtain rfl := hl.1.eq_of_path ih (congrArg OpPath.sequence hpath)
    exact ih.of_enter (Context.get?_eq_some_iff.mpr ⟨rfl, hl.2⟩) he
  | parent _ hp ih => exact ih.of_parent? rfl hp
  | enclosingLoop _ hl ih => exact (ih.of_enclosingLoop? rfl hl).1
  | walk _ hl ih => exact ih.of_walk hl

theorem Program.navigates_iff_below {p : Program d} {h : Home} {c : Context d} :
    p.Navigates h c ↔ (p.context h).Below c := by
  constructor
  · exact below_of_navigates
  · intro hc
    induction hc with
    | here => exact .context
    | @region c i o r s hc ho hr ih =>
      exact .enter (l := ⟨c, i, o⟩) (s := ⟨OpPath.enter ⟨c.path, i⟩ r, s⟩) ih
        (mem_operations.mpr ⟨hc, ho⟩) (Context.enter_element ho hr)

theorem Program.located_of_get? {p : Program d} {h : Home} {c : Context d} {i : Nat}
    {o : PlacedOp d} (hc : p.Navigates h c) (ho : c.get? i = some o) :
    ∃ l ∈ p.operations h, l.context = c ∧ l.index = i ∧ l.placed = o := by
  obtain ⟨path, op⟩ := o
  obtain ⟨rfl, hop⟩ := Context.get?_eq_some_iff.mp ho
  exact ⟨⟨c, i, op⟩, mem_operations.mpr ⟨below_of_navigates hc, hop⟩, rfl, rfl, rfl⟩

theorem Context.exitOf_of_get? {c : Context d} {i : Nat} {o : PlacedOp d} (ho : c.get? i = some o) :
    c.exitOf o = .ok (if o.op.fallsThrough then some (c.successor i) else none) := by
  obtain ⟨hpath, hop⟩ := get?_eq_some_iff.mp ho
  have hindex : c.sequence.indexOf? o = some i :=
    PlacedSequence.indexOf?_eq_some_iff.mpr ⟨hpath, (List.getElem?_eq_some_iff.mp hop).1⟩
  rw [exitOf, hindex]

theorem Located.exitOf_placed {p : Program d} {h : Home} {l : Located d}
    (hl : l ∈ p.operations h) : l.context.exitOf l.placed = .ok l.exit? :=
  Context.exitOf_of_get? (Context.get?_eq_some_iff.mpr ⟨rfl, (Program.mem_operations.mp hl).2⟩)

/-- A loop around a scope that holds a conditional with one empty arm and a scope without elements;
then a scope with an element, and the end of the program. -/
def Program.sample : Program .imp :=
  ⟨[.whileLoop (.constant (.bool true))
      [.scope rfl [.conditional (.constant (.bool true)) [] [.breakLoop], .scope rfl []]],
    .scope rfl [.skip], .terminate]⟩

def Program.sampleScope : Context .imp :=
  let inner := [.conditional (.constant (.bool true)) [] [.breakLoop], .scope rfl []]
  ((Program.sample.context .main).descend 0 .body [.scope rfl inner]).descend 0 .body inner

theorem Program.sampleScope_below : (Program.sample.context .main).Below Program.sampleScope :=
  .region (.region .here rfl (List.mem_singleton.mpr rfl)) rfl (Op.body_mem_regions rfl _)

def Program.sampleBreak : Located .imp :=
  ⟨sampleScope.descend 0 .elseArm [.breakLoop], 0, .breakLoop⟩

theorem Program.sampleBreak_mem : sampleBreak ∈ sample.operations .main := by
  have hr : (Region.elseArm, [Op.breakLoop]) ∈
      (Op.conditional (d := .imp) (.constant (.bool true)) [] [.breakLoop]).regions :=
    List.mem_cons_of_mem _ List.mem_cons_self
  exact mem_operations.mpr ⟨sampleScope_below.region rfl hr, rfl⟩

namespace Context

/-- Each region on the way is a region of the element at the index of its frame, in the sequence
around that region; and control that leaves the region goes on after this element. -/
def WellFramed (c : Context d) : Prop :=
  ∀ inner f outer, c.frames = inner ++ f :: outer →
    ∃ o, (Context.mk c.root outer).ops[f.owner]? = some o ∧ (f.region, f.ops) ∈ o.regions ∧
      o.fallsThrough = true

variable {base c : Context d} {i : Nat} {o : Op d} {r : Region} {s : Sequence d}

theorem WellFramed.descend (hc : c.WellFramed) (ho : c.ops[i]? = some o)
    (hr : (r, s) ∈ o.regions) : (c.descend i r s).WellFramed := by
  intro inner f outer hsplit
  cases inner with
  | nil =>
    simp only [Context.descend, List.nil_append, List.cons.injEq] at hsplit
    obtain ⟨rfl, rfl⟩ := hsplit
    exact ⟨o, ho, hr, Op.fallsThrough_of_region hr⟩
  | cons g inner =>
    have houter : c.frames = inner ++ f :: outer := (List.cons.inj hsplit).2
    exact hc inner f outer houter

theorem Below.wellFramed (hbase : base.WellFramed) (h : base.Below c) : c.WellFramed := by
  induction h with
  | here => exact hbase
  | region _ ho hr ih => exact ih.descend ho hr

theorem enter_region {o : PlacedOp d} {x : Region × PlacedSequence d} (ho : c.get? i = some o)
    (hx : x ∈ o.regions) : ∃ c', c.enter o x.2 = .ok c' ∧ c'.sequence = x.2 ∧
      c'.parent? = some c ∧ c'.owner? = some o := by
  obtain ⟨path, op⟩ := o
  obtain ⟨⟨r, s⟩, hr, rfl⟩ := List.mem_map.mp hx
  obtain ⟨rfl, hop⟩ := get?_eq_some_iff.mp ho
  exact ⟨_, enter_element hop hr, rfl, rfl, ho⟩

theorem Below.enter_parent (h : base.Below c) (hbase : base.isRoot = true)
    (hc : c.isRoot = false) : ∃ c' o, c.parent? = some c' ∧ c.owner? = some o ∧
      c'.enter o c.sequence = .ok c := by
  cases h with
  | here => simp [hbase] at hc
  | @region c i o r s _ ho hr =>
    have hget : c.get? i = some ⟨⟨c.path, i⟩, o⟩ := get?_eq_some_iff.mpr ⟨rfl, ho⟩
    exact ⟨c, _, rfl, hget, enter_element ho hr⟩

end Context

namespace Program

variable {p : Program d} {h : Home} {c c' : Context d}

theorem Navigates.wellFramed (hc : p.Navigates h c) : c.WellFramed := by
  have hroot : (p.context h).WellFramed := by
    intro inner f outer hsplit
    have hnil : [] = inner ++ f :: outer := hsplit
    simp at hnil
  exact (below_of_navigates hc).wellFramed hroot

theorem Navigates.eq_of_path (hc : p.Navigates h c) (hc' : p.Navigates h c')
    (hp : c.path = c'.path) : c = c' :=
  (below_of_navigates hc).eq_of_path (below_of_navigates hc') hp

/-- Contexts are well framed and do not depend on the way to them.  In every context that
navigation gets to, the indices kept are indices of elements that own the regions entered; two such
contexts about the same sequence are the same context, so that all queries agree on them; entering
a region of an element leads to a context with the old one as its parent and the element as its
owner; and a context that is not at the root is what entering its sequence from its parent gives. -/
theorem contexts_well_framed (p : Program d) (h : Home) :
    (∀ c, p.Navigates h c → c.root = p.placed h ∧ c.WellFramed) ∧
    (∀ c c', p.Navigates h c → p.Navigates h c' → c.sequence.path = c'.sequence.path →
      c = c') ∧
    (∀ c, p.Navigates h c → ∀ i o, c.get? i = some o → ∀ x ∈ o.regions,
      ∃ c', c.enter o x.2 = .ok c' ∧ c'.sequence = x.2 ∧ c'.parent? = some c ∧
        c'.owner? = some o) ∧
    ∀ c, p.Navigates h c → c.isRoot = false →
      ∃ c' o, c.parent? = some c' ∧ c.owner? = some o ∧ c'.enter o c.sequence = .ok c := by
  refine ⟨fun c hc => ⟨(below_of_navigates hc).root_eq, hc.wellFramed⟩, ?_, ?_, ?_⟩
  · intro c c' hc hc' hp
    exact hc.eq_of_path hc' hp
  · intro c _ i o ho x hx
    exact Context.enter_region ho hx
  · intro c hc hroot
    exact (below_of_navigates hc).enter_parent rfl hroot

theorem contexts_well_framed_sample :
    sample.Navigates .main sampleBreak.context ∧ sampleBreak.context.isRoot = false ∧
    ∃ c' o, sampleBreak.context.parent? = some c' ∧ sampleBreak.context.owner? = some o ∧
      c'.enter o sampleBreak.context.sequence = .ok sampleBreak.context := by
  have hc : sample.Navigates .main sampleBreak.context :=
    navigates_iff_below.mpr (mem_operations.mp sampleBreak_mem).1
  exact ⟨hc, rfl, (contexts_well_framed sample .main).2.2.2 _ hc rfl⟩

end Program

end RegionFlow

import RegionFlow.Flow.Context
set_option autoImplicit false

namespace RegionFlow

namespace Context

variable {d : Dialect}

@[simp] theorem ops_descend (c : Context d) (i : Nat) (r : Region) (s : Sequence d) :
    (c.descend i r s).ops = s := rfl

@[simp] theorem path_descend (c : Context d) (i : Nat) (r : Region) (s : Sequence d) :
    (c.descend i r s).path = OpPath.enter ⟨c.path, i⟩ r := rfl

@[simp] theorem depth_descend (c : Context d) (i : Nat) (r : Region) (s : Sequence d) :
    (c.descend i r s).depth = c.depth + 1 := rfl

@[simp] theorem exit_descend (c : Context d) (i : Nat) (r : Region) (s : Sequence d) :
    (c.descend i r s).exit = c.successor i := rfl

/-- Every context is that of a root, or of a region entered from another context. -/
theorem descend_induction {motive : Context d → Prop} (root : ∀ s, motive (ofRoot s))
    (region : ∀ c i r s, motive c → motive (c.descend i r s)) : ∀ c, motive c := by
  rintro ⟨s, frames⟩
  induction frames with
  | nil => exact root s
  | cons f outer ih => exact region ⟨s, outer⟩ f.owner f.region f.ops ih

theorem get?_eq_some_iff {c : Context d} {i : Nat} {o : PlacedOp d} :
    c.get? i = some o ↔ o.path = ⟨c.path, i⟩ ∧ c.ops[i]? = some o.op := by
  obtain ⟨path, op⟩ := o
  simp only [get?, Option.map_eq_some_iff, PlacedOp.mk.injEq]
  constructor
  · rintro ⟨e, he, rfl, rfl⟩
    exact ⟨rfl, he⟩
  · rintro ⟨rfl, he⟩
    exact ⟨op, he, rfl, rfl⟩

/-- Where control is once the elements before an index have run: before the element at the index,
or, past the last one, where the whole sequence goes on. -/
def point (c : Context d) (i : Nat) : Point :=
  match c.get? i with
  | some o => o.entry
  | none => c.exit

theorem point_of_some {c : Context d} {i : Nat} {o : Op d} (ho : c.ops[i]? = some o) :
    c.point i = entryOf ⟨c.path, i⟩ o := by
  simp [point, get?, ho, PlacedOp.entry]

theorem point_of_none {c : Context d} {i : Nat} (ho : c.ops[i]? = none) : c.point i = c.exit := by
  simp [point, get?, ho]

/-- Where corresponding elements have corresponding entries, or both sequences are at their end, and
the exits correspond, so do the points. -/
theorem point_of_rel {d' : Dialect} {c : Context d} {c' : Context d'} {i j : Nat}
    {carry : Point → Point} (hexit : c'.exit = carry c.exit)
    (h : Option.Rel (fun o o' => entryOf ⟨c'.path, j⟩ o' = carry (entryOf ⟨c.path, i⟩ o))
      c.ops[i]? c'.ops[j]?) : c'.point j = carry (c.point i) := by
  cases ho : c.ops[i]? with
  | none =>
    cases ho' : c'.ops[j]? with
    | none => rw [point_of_none ho, point_of_none ho', hexit]
    | some o' => simp [ho, ho'] at h
  | some o =>
    cases ho' : c'.ops[j]? with
    | none => simp [ho, ho'] at h
    | some o' =>
      rw [ho, ho', Option.rel_some_some] at h
      rw [point_of_some ho, point_of_some ho', h]

theorem successor_eq_point (c : Context d) (i : Nat) : c.successor i = c.point (i + 1) := by
  obtain ⟨root, frames⟩ := c
  cases frames <;> rfl

/-- The loop around a region is the owner of the region, or else the loop around the owner. -/
theorem enclosingLoop?_descend {c : Context d} {i : Nat} {o : Op d} (r : Region) (s : Sequence d)
    (ho : c.ops[i]? = some o) :
    (c.descend i r s).enclosingLoop? =
      if o.isLoop then some (c, ⟨⟨c.path, i⟩, o⟩) else c.enclosingLoop? := by
  have hc : (Context.mk c.root c.frames).ops[i]? = some o := ho
  simp only [enclosingLoop?, descend, loopAmong, hc]

theorem loops_of_rel {d' : Dialect} {c : Context d} {c' : Context d'} {after before : Point → Point}
    (h : Option.Rel (fun x y =>
      y.1.successor y.2.path.index = after (x.1.successor x.2.path.index) ∧
        y.2.entry = before x.2.entry) c.enclosingLoop? c'.enclosingLoop?) :
    c'.breakTarget? = c.breakTarget?.map after ∧ c'.loopHeader? = c.loopHeader?.map before := by
  rw [breakTarget?, breakTarget?, loopHeader?, loopHeader?]
  generalize c.enclosingLoop? = x? at h ⊢
  generalize c'.enclosingLoop? = y? at h ⊢
  cases h with
  | none => exact ⟨rfl, rfl⟩
  | some hxy => simp [hxy.1, hxy.2]

/-- A context is below another if only regions of elements are entered on the way. -/
inductive Below (base : Context d) : Context d → Prop where
  | here : Below base base
  | region {c : Context d} {i : Nat} {o : Op d} {r : Region} {s : Sequence d}
      (hc : Below base c) (ho : c.ops[i]? = some o) (hr : (r, s) ∈ o.regions) :
      Below base (c.descend i r s)

namespace Below

variable {base c c' : Context d}

theorem trans {low : Context d} (h : base.Below c) (hlow : c.Below low) : base.Below low := by
  induction hlow with
  | here => exact h
  | region _ ho hr ih => exact ih.region ho hr

theorem depth_le (h : base.Below c) : base.depth ≤ c.depth := by
  induction h with
  | here => exact Nat.le_refl _
  | region _ _ _ ih => exact Nat.le_succ_of_le ih

theorem root_eq (h : base.Below c) : c.root = base.root := by
  induction h with
  | here => rfl
  | region _ _ _ ih => exact ih

/-- The place of a sequence determines the whole context, whatever regions look alike. -/
theorem eq_of_path (h : base.Below c) (h' : base.Below c') (hp : c.path = c'.path) : c = c' := by
  -- Equal places are equally many regions down, so the ways to them can be unwound together.
  have hsteps : ∀ {a b : Context d}, base.Below a → base.Below b → a.path = b.path →
      a.frames.map Frame.step = b.frames.map Frame.step := by
    intro a b ha hb hab
    simp only [path, ha.root_eq, hb.root_eq, SequencePath.mk.injEq, true_and] at hab
    exact List.append_cancel_right hab
  have hdepth : c.depth = c'.depth := by
    simpa [depth] using congrArg List.length (hsteps h h' hp)
  induction h generalizing c' with
  | here =>
    cases h' with
    | here => rfl
    | region h' _ _ =>
      have := h'.depth_le
      rw [depth_descend] at hdepth
      omega
  | @region c i o r s hc ho hr ih =>
    cases h' with
    | here =>
      have := hc.depth_le
      rw [depth_descend] at hdepth
      omega
    | @region c' j o' r' s' hc' ho' hr' =>
      simp only [path_descend, OpPath.enter, SequencePath.mk.injEq, List.cons.injEq,
        Step.mk.injEq] at hp
      obtain ⟨hhome, ⟨rfl, rfl⟩, hrest⟩ := hp
      have hpath : c.path = c'.path := by
        cases hx : c.path
        cases hy : c'.path
        simp_all
      have hcc : c = c' := ih hc' hpath (Nat.succ.inj hdepth)
      subst hcc
      rw [ho, Option.some.injEq] at ho'
      subst ho'
      rw [Op.regions_functional hr hr']

theorem of_enclosingLoop? {l : Context d × PlacedOp d} (h : base.Below c)
    (hroot : base.enclosingLoop? = none) (hl : c.enclosingLoop? = some l) :
    base.Below l.1 ∧ l.1.get? l.2.path.index = some l.2 ∧ l.2.op.isLoop = true := by
  induction h with
  | here => simp [hroot] at hl
  | @region c i o r s hc ho hr ih =>
    rw [enclosingLoop?_descend r s ho] at hl
    split at hl
    · rename_i hloop
      rw [Option.some.injEq] at hl
      subst hl
      exact ⟨hc, get?_eq_some_iff.mpr ⟨rfl, ho⟩, hloop⟩
    · exact ih hl

end Below

variable {c c' : Context d}

theorem follow?_append (c : Context d) (w v : List Step) :
    c.follow? (w ++ v) = (c.follow? w).bind fun c' => c'.follow? v := by
  induction w generalizing c with
  | nil => rfl
  | cons s w ih =>
    simp only [List.cons_append, follow?]
    cases c.ops[s.owner]? with
    | none => rfl
    | some o =>
      simp only
      cases o.region? s.region with
      | none => rfl
      | some ops => exact ih _

theorem follow?_cons_eq_some_iff {s : Step} {w : List Step} :
    c.follow? (s :: w) = some c' ↔ ∃ o ops, c.ops[s.owner]? = some o ∧
      (s.region, ops) ∈ o.regions ∧ (c.descend s.owner s.region ops).follow? w = some c' := by
  rw [follow?]
  cases ho : c.ops[s.owner]? with
  | none => simp
  | some o =>
    cases hr : o.region? s.region with
    | none =>
      have hnone : ∀ ops, (s.region, ops) ∉ o.regions := by
        intro ops hops
        rw [← Op.region?_eq_some_iff, hr] at hops
        simp at hops
      simp [hr, hnone]
    | some ops =>
      have hunique : ∀ ops', (s.region, ops') ∈ o.regions ↔ ops' = ops := by
        intro ops'
        rw [← Op.region?_eq_some_iff, hr, Option.some.injEq, eq_comm]
      simp [hr, hunique]

theorem below_iff_follow? : c.Below c' ↔ ∃ w, c.follow? w = some c' := by
  constructor
  · intro h
    induction h with
    | here => exact ⟨[], rfl⟩
    | @region x i o r s _ ho hr ih =>
      obtain ⟨w, hw⟩ := ih
      refine ⟨w ++ [⟨i, r⟩], ?_⟩
      rw [follow?_append, hw, Option.bind_some, follow?_cons_eq_some_iff]
      exact ⟨o, s, ho, hr, rfl⟩
  · rintro ⟨w, hw⟩
    induction w generalizing c with
    | nil =>
      rw [follow?, Option.some.injEq] at hw
      exact hw ▸ .here
    | cons s w ih =>
      obtain ⟨o, ops, ho, hr, hw⟩ := follow?_cons_eq_some_iff.mp hw
      exact (Below.here.region ho hr).trans (ih hw)

theorem depth_of_follow? {w : List Step} (h : c.follow? w = some c') :
    c'.depth = c.depth + w.length := by
  induction w generalizing c with
  | nil =>
    rw [follow?, Option.some.injEq] at h
    rw [h, List.length_nil, Nat.add_zero]
  | cons s w ih =>
    obtain ⟨o, ops, -, -, h⟩ := follow?_cons_eq_some_iff.mp h
    rw [ih h, depth_descend, List.length_cons]
    omega

end Context

namespace Program

variable {d : Dialect}

@[simp] theorem ops_context (p : Program d) (h : Home) : (p.context h).ops = p.body := rfl

@[simp] theorem path_context (p : Program d) (h : Home) : (p.context h).path = .body h := rfl

@[simp] theorem exit_context (p : Program d) (h : Home) : (p.context h).exit = p.exit h := rfl

theorem entry_eq_point (p : Program d) (h : Home) : p.entry h = (p.context h).point 0 := by
  cases hb : p.body with
  | nil =>
    rw [Context.point_of_none (by simp [hb])]
    simp [entry, PlacedSequence.entry, placed, hb, sequenceEntryOf, exit, PlacedSequence.exit]
  | cons o rest =>
    rw [Context.point_of_some (o := o) (by simp [hb])]
    simp [entry, PlacedSequence.entry, placed, hb, sequenceEntryOf]

end Program

end RegionFlow

import RegionFlow.Proofs.Flow.Forward
import RegionFlow.Proofs.Scope.Flattening
set_option autoImplicit false

namespace RegionFlow

variable {d : Dialect}

/-- What stands for a point once scopes are gone: the entry of an operation goes to the entry of its
image, the point after the body of an empty scope to the entry of the skip in its place, and the
point after the program to itself. -/
inductive PointImage (p : Program d) (h : Home) : Point → Point → Prop where
  | entry {l : Located d} (hl : l ∈ p.operations h) (hs : l.op.shape ≠ .transparent) :
      PointImage p h l.entry l.image.entry
  | emptyBody {l : Located d} {g : d.hasScopes = true} (hl : l ∈ p.operations h)
      (hs : l.op = .scope g []) :
      PointImage p h (.exit (l.placed.path.enter .body)) l.image.entry
  | after : PointImage p h (p.exit h) (p.flatten.exit h)

theorem PointImage.cases {p : Program d} {h : Home} {q q' : Point} (hq : PointImage p h q q') :
    (q = p.exit h ∧ q' = p.flatten.exit h) ∨
      ∃ l ∈ p.operations h, l.placed.own? = some q ∧ q' = l.image.entry := by
  cases hq with
  | @entry l hl hs =>
    refine .inr ⟨l, hl, ?_, rfl⟩
    obtain ⟨c, i, o⟩ := l
    cases o with
    | scope g b => exact absurd rfl hs
    | _ => rfl
  | @emptyBody l g hl hs => exact .inr ⟨l, hl, PlacedOp.own?_eq_exit_iff.mpr ⟨⟨g, hs⟩, rfl⟩, rfl⟩
  | after => exact .inl ⟨rfl, rfl⟩

theorem PointImage.functional {p : Program d} {h : Home} {q a b : Point}
    (ha : PointImage p h q a) (hb : PointImage p h q b) : a = b := by
  have notExit : ∀ l : Located d, l.placed.own? ≠ some (p.exit h) := fun l hown =>
    OpPath.enter_ne_body (PlacedOp.own?_eq_exit_iff.mp hown).2.symm
  rcases ha.cases with ⟨rfl, rfl⟩ | ⟨l, hl, hown, rfl⟩
  · rcases hb.cases with ⟨-, rfl⟩ | ⟨m, -, hown', -⟩
    · rfl
    · exact absurd hown' (notExit m)
  · rcases hb.cases with ⟨rfl, -⟩ | ⟨m, hm, hown', rfl⟩
    · exact absurd hown (notExit l)
    · rw [Program.eq_of_own? hl hm hown hown']

namespace Context

variable {p : Program d} {h : Home} {c : Context d} {i : Nat} {o : Op d}

/-- The sequence that takes the elements in holds what takes their place, one after the other. -/
theorem Below.lands (hc : (p.context h).Below c) (i : Nat) :
    flattenSequence (c.ops.drop i) <+: c.flatten.ops.drop (c.flatIndex i) := by
  have shift : ∀ {x : Context d}, flattenSequence x.ops <+: x.flatten.ops.drop (x.flatIndex 0) →
      ∀ i, flattenSequence (x.ops.drop i) <+: x.flatten.ops.drop (x.flatIndex i) := by
    intro x hx i
    obtain ⟨tail, htail⟩ := hx
    have hsplit := flattenSequence_append (x.ops.take i) (x.ops.drop i)
    have hindex : x.flatIndex i = x.flatIndex 0 + (flattenSequence (x.ops.take i)).length := by
      simp [flatIndex, flattenSequence]
    rw [List.take_append_drop] at hsplit
    refine ⟨tail, ?_⟩
    rw [hindex, ← List.drop_drop, ← htail, hsplit, List.append_assoc, List.drop_left]
  apply shift
  induction hc with
  | here => exact List.prefix_refl _
  | @region c i o r s _ ho hr ih =>
    by_cases hs : o.shape = .transparent
    · obtain ⟨g, b, rfl⟩ := Op.eq_scope hs
      obtain ⟨rfl, rfl⟩ := Op.region_of_scope hr
      rw [flatten_descend_scope ho, flatIndex_descend_scope ho, ops_descend]
      by_cases hempty : s = []
      · subst hempty
        exact List.nil_prefix
      · have hlands := shift ih i
        rw [drop_eq_cons ho, flattenSequence, Op.flatten_scope hempty] at hlands
        exact (List.prefix_append _ _).trans hlands
    · rw [flatten_descend ho hs, flatIndex_descend ho hs, ops_descend, ops_descend]
      exact List.prefix_refl _

theorem Below.getElem?_flatten (hc : (p.context h).Below c) (ho : c.ops[i]? = some o)
    (hk : o.isKept = true) : c.flatten.ops[c.flatIndex i]? = some o.image := by
  obtain ⟨rest, hrest⟩ := hc.lands i
  rw [drop_eq_cons ho, flattenSequence, Op.flatten_of_isKept hk] at hrest
  rw [← List.head?_drop, ← hrest]
  rfl

theorem entryOf_image (o : Op d) : ∀ (c : Context d) (i : Nat), (p.context h).Below c →
    c.ops[i]? = some o →
      PointImage p h (entryOf ⟨c.path, i⟩ o) (c.flatten.point (c.flatIndex i)) := by
  induction o using Op.region_induction with
  | step o ih =>
    intro c i hc ho
    have hl : (⟨c, i, o⟩ : Located d) ∈ p.operations h := Program.mem_operations.mpr ⟨hc, ho⟩
    by_cases hs : o.shape = .transparent
    · obtain ⟨g, b, rfl⟩ := Op.eq_scope hs
      cases b with
      | nil =>
        rw [point_of_some (hc.getElem?_flatten ho rfl)]
        exact .emptyBody hl rfl
      | cons e rest =>
        have hr := Op.body_mem_regions g (e :: rest)
        have he := ih _ hr e List.mem_cons_self _ 0 (hc.region ho hr) rfl
        rw [flatten_descend_scope ho, flatIndex_descend_scope ho] at he
        exact he
    · rw [point_of_some (hc.getElem?_flatten ho (Op.isKept_of_shape hs))]
      exact .entry hl hs

/-- The point before an element, or after the last one, is carried to the point where that place
lands, unless the sequence is empty: an empty scope body goes on past the skip in its place. -/
theorem Below.point_image (hc : (p.context h).Below c) (hne : c.ops ≠ []) (i : Nat)
    (hi : i ≤ c.ops.length) : PointImage p h (c.point i) (c.flatten.point (c.flatIndex i)) := by
  -- The elements need nothing from around; the end of the sequence is what the induction is about.
  have step : ∀ {x : Context d}, (p.context h).Below x →
      PointImage p h x.exit (x.flatten.point (x.flatIndex x.ops.length)) → ∀ i ≤ x.ops.length,
        PointImage p h (x.point i) (x.flatten.point (x.flatIndex i)) := by
    intro x hx hexit i hi
    cases ho : x.ops[i]? with
    | some o =>
      rw [point_of_some ho]
      exact entryOf_image o x i hx ho
    | none =>
      rw [point_of_none ho]
      rwa [Nat.le_antisymm hi (List.getElem?_eq_none_iff.mp ho)]
  refine step hc ?_ i hi
  clear hi i
  induction hc with
  | here =>
    have hend : (p.context h).flatten.ops[(p.context h).flatIndex (p.context h).ops.length]? =
        none := by
      simp [flatIndex, landing, flatten, landingAmong, Program.context, Program.placed, ofRoot, ops]
    rw [point_of_none hend]
    exact .after
  | @region c i o r s hc ho hr ih =>
    have hnext : i + 1 ≤ c.ops.length := (List.getElem?_eq_some_iff.mp ho).1
    have hpoint := step hc (ih (by rintro hnil; simp [hnil] at ho)) (i + 1) hnext
    rw [exit_descend, successor_eq_point, ops_descend]
    by_cases hs : o.shape = .transparent
    · obtain ⟨g, b, rfl⟩ := Op.eq_scope hs
      obtain ⟨rfl, rfl⟩ := Op.region_of_scope hr
      -- The elements after the scope land right behind those of its body.
      have hflat : (Op.scope g s).flatten = flattenSequence s := Op.flatten_scope hne
      rwa [flatten_descend_scope ho, flatIndex_descend_scope ho, List.take_length, ← hflat,
        ← flatIndex_succ ho]
    · have hend : (c.flatten.descend (c.flatIndex i) r (flattenSequence s)).ops[
          (flattenSequence s).length]? = none := List.getElem?_eq_none_iff.mpr (Nat.le_refl _)
      rwa [flatten_descend ho hs, flatIndex_descend ho hs, List.take_length, point_of_none hend,
        exit_descend, successor_eq_point, ← flatIndex_succ_of_isKept ho (Op.isKept_of_shape hs)]

theorem Below.successor_image (hc : (p.context h).Below c) (ho : c.ops[i]? = some o)
    (hk : o.isKept = true) :
    PointImage p h (c.successor i) (c.flatten.successor (c.flatIndex i)) := by
  have hi : i + 1 ≤ c.ops.length := (List.getElem?_eq_some_iff.mp ho).1
  have hne : c.ops ≠ [] := by
    rintro hnil
    simp [hnil] at ho
  rw [successor_eq_point, successor_eq_point, ← flatIndex_succ_of_isKept ho hk]
  exact hc.point_image hne (i + 1) hi

/-- The innermost loop around the landing place is the image of the innermost loop. -/
theorem Below.enclosingLoop?_flatten (hc : (p.context h).Below c) :
    c.flatten.enclosingLoop? = c.enclosingLoop?.map fun x =>
      (x.1.flatten, ⟨⟨x.1.flatten.path, x.1.flatIndex x.2.path.index⟩, x.2.op.image⟩) := by
  induction hc with
  | here => rfl
  | @region c i o r s hc ho _ ih =>
    rw [enclosingLoop?_descend r s ho]
    by_cases hs : o.shape = .transparent
    · obtain ⟨g, b, rfl⟩ := Op.eq_scope hs
      rw [flatten_descend_scope ho]
      exact ih
    · have himage := hc.getElem?_flatten ho (Op.isKept_of_shape hs)
      rw [flatten_descend ho hs, enclosingLoop?_descend r _ himage, Op.image_isLoop, ih]
      split
      · rfl
      · rfl

theorem Below.loop_image (hc : (p.context h).Below c) :
    Option.Rel (PointImage p h) c.breakTarget? c.flatten.breakTarget? ∧
      Option.Rel (PointImage p h) c.loopHeader? c.flatten.loopHeader? := by
  rw [breakTarget?, breakTarget?, loopHeader?, loopHeader?, hc.enclosingLoop?_flatten]
  cases hx : c.enclosingLoop? with
  | none => exact ⟨.none, .none⟩
  | some x =>
    obtain ⟨hbelow, hget, hloop⟩ := hc.of_enclosingLoop? rfl hx
    obtain ⟨x, path, op⟩ := x
    obtain ⟨hpath, hop⟩ := get?_eq_some_iff.mp hget
    simp only at hpath hop hloop
    have hk := Op.isKept_of_isLoop hloop
    have hentry := entryOf_image op x path.index hbelow hop
    rw [point_of_some (hbelow.getElem?_flatten hop hk), ← hpath] at hentry
    exact ⟨.some (hbelow.successor_image hop hk), .some hentry⟩

end Context

namespace Program

variable {p : Program d} {h : Home}

theorem entry_image (p : Program d) (h : Home) :
    PointImage p h (p.entry h) (p.flatten.entry h) := by
  rw [entry_eq_point, entry_eq_point]
  by_cases hb : p.body = []
  · have hnone : (p.context h).ops[0]? = none := by rw [ops_context, hb]; rfl
    have hflat : (p.flatten.context h).ops[0]? = none := by rw [ops_context, flatten, hb]; rfl
    rw [Context.point_of_none hnone, Context.point_of_none hflat]
    exact .after
  · exact Context.Below.here.point_image hb 0 (Nat.zero_le _)

theorem shape_flatten {l : Located d} (hl : l ∈ p.flatten.operations h) :
    l.op.shape ≠ .transparent := by
  rw [← map_image_operations] at hl
  obtain ⟨m, -, rfl⟩ := List.mem_map.mp hl
  exact m.op.image_shape

/-- Scopes have no effect on the flow of control.  The flattened program has no scope; a walk over
it hands out the images of the kept operations (all but scopes with elements) in their order; the
successor of each, and the break target and loop header of its context, are the images of those of
the operation; and escapes, the entry of the program and its summary are the same. -/
theorem flatten_simulates (p : Program d) (h : Home) :
    (∀ l ∈ p.flatten.operations h, l.op.shape ≠ .transparent) ∧
    ((p.operations h).filter Located.isKept).map Located.image = p.flatten.operations h ∧
    (∀ q a b, PointImage p h q a → PointImage p h q b → a = b) ∧
    (∀ l ∈ p.operations h, l.isKept = true →
      Option.Rel (PointImage p h) l.exit? l.image.exit? ∧
      Option.Rel (PointImage p h) l.context.breakTarget? l.image.context.breakTarget? ∧
      Option.Rel (PointImage p h) l.context.loopHeader? l.image.context.loopHeader? ∧
      l.image.op.escapes = l.op.escapes) ∧
    PointImage p h (p.entry h) (p.flatten.entry h) ∧
    p.flatten.summarize = p.summarize := by
  refine ⟨fun l hl => shape_flatten hl, p.map_image_operations h,
    fun q a b ha hb => ha.functional hb, ?_, p.entry_image h, p.summarize_flatten⟩
  intro l hl hk
  obtain ⟨c, i, o⟩ := l
  obtain ⟨hc, ho⟩ := mem_operations.mp hl
  obtain ⟨hbreak, hheader⟩ := hc.loop_image
  refine ⟨?_, hbreak, hheader, Op.escapes_image hk⟩
  simp only [Located.exit?, Located.image, Op.image_fallsThrough]
  split
  · exact .some (hc.successor_image ho hk)
  · exact .none

theorem flatten_simulates_sample :
    (⟨sampleScope, 1, .scope rfl []⟩ : Located .imp) ∈ sample.operations .main ∧
    Located.isKept (⟨sampleScope, 1, .scope rfl []⟩ : Located .imp) = true ∧
    Option.Rel (PointImage sample .main)
      (some (.entry ⟨⟨.main, [⟨1, .body⟩]⟩, 0⟩)) (some (.entry ⟨.body .main, 1⟩)) := by
  have hl : (⟨sampleScope, 1, .scope rfl []⟩ : Located .imp) ∈ sample.operations .main :=
    mem_operations.mpr ⟨sampleScope_below, rfl⟩
  exact ⟨hl, rfl, ((flatten_simulates sample .main).2.2.2.1 _ hl rfl).1⟩

end Program

end RegionFlow

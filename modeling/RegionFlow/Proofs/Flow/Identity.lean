import RegionFlow.Proofs.Flow.Forward
set_option autoImplicit false

namespace RegionFlow

variable {d : Dialect}

/-- A point that a query about the program returns, for an operation or for a context that
navigation gets to. -/
inductive Program.Answers (p : Program d) (h : Home) : Point → Prop where
  | entry {l : Located d} (hl : l ∈ p.operations h) : p.Answers h l.entry
  | exitOf {c : Context d} {i : Nat} {o : PlacedOp d} {q : Point} (hc : p.Navigates h c)
      (ho : c.get? i = some o) (hq : c.exitOf o = .ok (some q)) : p.Answers h q
  | exit {c : Context d} (hc : p.Navigates h c) : p.Answers h c.exit
  | breakTarget {c : Context d} {q : Point} (hc : p.Navigates h c)
      (hq : c.breakTarget? = some q) : p.Answers h q

namespace Program

variable {p : Program d} {h : Home}

theorem owned_of_successor {l : Located d} (hl : l ∈ p.operations h) :
    l.context.successor l.index = p.exit h ∨
      ∃ m ∈ p.operations h, m.placed.own? = some (l.context.successor l.index) := by
  obtain ⟨i, hi⟩ := List.getElem?_of_mem hl
  rcases successor_owner hi with hexit | ⟨j, m, -, hm, hown⟩
  · exact .inl hexit
  · exact .inr ⟨m, List.mem_of_getElem? hm, hown⟩

/-- Every point that a query returns is the one after the program or belongs to an operation. -/
theorem Answers.owned {q : Point} (hq : p.Answers h q) :
    q = p.exit h ∨ ∃ m ∈ p.operations h, m.placed.own? = some q := by
  cases hq with
  | entry hl =>
    obtain ⟨m, hm, -, hown⟩ := exists_owner_of_mem hl
    exact .inr ⟨m, hm, hown⟩
  | @exitOf c i o _ hc ho hq =>
    obtain ⟨l, hl, rfl, rfl, rfl⟩ := located_of_get? hc ho
    rw [Located.exitOf_placed hl, Except.ok.injEq, Located.exit?] at hq
    split at hq
    · rw [← Option.some.inj hq]
      exact owned_of_successor hl
    · simp at hq
  | exit hc =>
    obtain ⟨pre, post, heq, hexit⟩ := (below_of_navigates hc).exit_owned
    rcases hexit with hexit | ⟨m, hm, hown⟩
    · exact .inl hexit
    · refine .inr ⟨m, ?_, hown⟩
      rw [operations_eq, heq]
      exact List.mem_append_right _ (List.mem_append_right _ hm)
  | @breakTarget c _ hc hq =>
    obtain ⟨x, hx, -⟩ := Option.map_eq_some_iff.mp hq
    obtain ⟨l, hl, -, -, -, htarget, -⟩ := located_of_enclosingLoop? hc hx
    rw [htarget, Option.some.injEq] at hq
    rw [← hq]
    exact owned_of_successor hl

theorem entry_ne_exit {l : Located d} (hl : l ∈ p.operations h) : l.entry ≠ p.exit h := by
  intro heq
  obtain ⟨m, -, -, hown⟩ := exists_owner_of_mem hl
  rw [heq] at hown
  exact OpPath.enter_ne_body (PlacedOp.own?_eq_exit_iff.mp hown).2.symm

theorem entry_eq_exit_iff : p.entry h = p.exit h ↔ p.body = [] := by
  constructor
  · intro heq
    cases hb : p.body with
    | nil => rfl
    | cons o rest =>
      have ho : (p.context h).ops[0]? = some o := by simp [hb]
      have hl : (⟨p.context h, 0, o⟩ : Located d) ∈ p.operations h := mem_operations.mpr ⟨.here, ho⟩
      rw [entry_eq_point, Context.point_of_some ho] at heq
      exact absurd heq (entry_ne_exit hl)
  · intro hb
    rw [entry_eq_point, Context.point_of_none (by simp [hb]), exit_context]

theorem Answers.exit_cases {s : SequencePath} (hs : p.Answers h (.exit s)) :
    s = .body h ∨
      ∃ m ∈ p.operations h, (∃ g, m.op = .scope g []) ∧ s = m.placed.path.enter .body := by
  rcases hs.owned with hexit | ⟨m, hm, hown⟩
  · exact .inl (Point.exit.inj hexit)
  · exact .inr ⟨m, hm, PlacedOp.own?_eq_exit_iff.mp hown⟩

/-- The only regions after which a query returns the point are the bodies of empty scopes. -/
theorem Answers.empty_scope {c : Context d} (hc : (p.context h).Below c) (hroot : c.isRoot = false)
    (hq : p.Answers h (.exit c.path)) :
    c.ops = [] ∧ ∃ o, c.owner? = some o ∧ o.op.shape = .transparent := by
  cases hc with
  | here => simp [context, Context.ofRoot, Context.isRoot] at hroot
  | @region c i o r s hc ho hr =>
    rcases hq.exit_cases with hbody | ⟨m, hm, ⟨g, hop⟩, hpath⟩
    · rw [Context.path_descend] at hbody
      exact absurd hbody OpPath.enter_ne_body
    · rw [Context.path_descend, OpPath.enter_inj] at hpath
      have hl : (⟨c, i, o⟩ : Located d) ∈ p.operations h := mem_operations.mpr ⟨hc, ho⟩
      obtain rfl := eq_of_path hm hl hpath.1.symm
      obtain rfl : o = .scope g [] := hop
      refine ⟨(Op.region_of_scope hr).2, ⟨⟨c.path, i⟩, .scope g []⟩, ?_, rfl⟩
      exact Context.get?_eq_some_iff.mpr ⟨rfl, ho⟩

/-- Point identity is place.  Two operations have one entry exactly if one of them is reached from
the other through first elements of scope bodies; no entry of an operation is the point after the
program; and a point after a sequence that a query returns is the one after the program or the one
after the body of an empty scope, so that no other nested sequence ever gives its point away. -/
theorem point_identity (p : Program d) (h : Home) :
    (∀ a ∈ p.operations h, ∀ b ∈ p.operations h,
      (a.entry = b.entry ↔ a.placed.LeadsTo b.placed ∨ b.placed.LeadsTo a.placed)) ∧
    (∀ a ∈ p.operations h, a.entry ≠ p.exit h) ∧
    (p.entry h = p.exit h ↔ p.body = []) ∧
    (∀ s, p.Answers h (.exit s) → s = .body h ∨
      ∃ m ∈ p.operations h, (∃ g, m.op = .scope g []) ∧ s = m.placed.path.enter .body) ∧
    ∀ c, p.Navigates h c → c.isRoot = false → p.Answers h (.exit c.path) →
      c.ops = [] ∧ ∃ o, c.owner? = some o ∧ o.op.shape = .transparent := by
  refine ⟨?_, ?_, entry_eq_exit_iff, ?_, ?_⟩
  · exact fun a ha b hb => entry_eq_entry_iff ha hb
  · exact fun a ha => entry_ne_exit ha
  · exact fun s hs => hs.exit_cases
  · exact fun c hc hroot hq => hq.empty_scope (below_of_navigates hc) hroot

theorem point_identity_sample :
    ∃ a ∈ sample.operations .main, ∃ b ∈ sample.operations .main,
      a.placed.path ≠ b.placed.path ∧ a.entry = b.entry := by
  have ha : (⟨sample.context .main, 1, .scope rfl [.skip]⟩ : Located .imp) ∈
      sample.operations .main := mem_operations.mpr ⟨.here, rfl⟩
  have hb : (⟨(sample.context .main).descend 1 .body [.skip], 0, .skip⟩ : Located .imp) ∈
      sample.operations .main :=
    mem_operations.mpr ⟨.region .here rfl (Op.body_mem_regions rfl _), rfl⟩
  refine ⟨_, ha, _, hb, by decide, ?_⟩
  exact ((point_identity sample .main).1 _ ha _ hb).mpr (.inl (.first .here))

end Program

namespace Context

variable {c : Context d} {o : PlacedOp d} {i : Nat}

theorem getElem?_elements_iff :
    c.sequence.elements[i]? = some o ↔ o.path = ⟨c.path, i⟩ ∧ c.ops[i]? = some o.op := by
  rw [PlacedSequence.getElem?_elements, get?_sequence, get?_eq_some_iff]

theorem element_inj {j : Nat} (hi : c.sequence.elements[i]? = some o)
    (hj : c.sequence.elements[j]? = some o) : i = j := by
  have hpath := (getElem?_elements_iff.mp hi).1
  rw [(getElem?_elements_iff.mp hj).1, OpPath.mk.injEq] at hpath
  exact hpath.2.symm

theorem exitOf_eq_error_iff :
    c.exitOf o = .error (.notInContext o.op.kind) ↔ c.sequence.indexOf? o = none := by
  rw [exitOf]
  cases c.sequence.indexOf? o with
  | none => simp
  | some i => simp

theorem enter_eq_notInContext_iff {s : PlacedSequence d} :
    c.enter o s = .error (.notInContext o.op.kind) ↔ c.sequence.indexOf? o = none := by
  rw [enter]
  cases c.sequence.indexOf? o with
  | none => simp
  | some i =>
    cases o.regions.find? fun p => p.2.path == s.path with
    | none => simp
    | some x => simp

theorem enter_eq_notARegion_iff {s : PlacedSequence d} :
    c.enter o s = .error (.notARegion o.op.kind) ↔
      c.sequence.indexOf? o ≠ none ∧ ∀ x ∈ o.regions, x.2.path ≠ s.path := by
  rw [enter]
  cases c.sequence.indexOf? o with
  | none => simp
  | some i =>
    cases hx : o.regions.find? fun p => p.2.path == s.path with
    | none =>
      rw [List.find?_eq_none] at hx
      simpa using hx
    | some x =>
      have hmem := List.mem_of_find?_eq_some hx
      have hpath := List.find?_some hx
      simp only [reduceCtorEq, false_iff, not_and]
      exact fun _ hall => hall x hmem (beq_iff_eq.mp hpath)

end Context

namespace Program

variable {p q : Program d} {h h' : Home} {c : Context d} {o : PlacedOp d} {s : PlacedSequence d}
  {i : Nat}

def HasOp (p : Program d) (h : Home) (o : PlacedOp d) : Prop := ∃ l ∈ p.operations h, l.placed = o

def HasSequence (p : Program d) (h : Home) (s : PlacedSequence d) : Prop :=
  ∃ c, p.Navigates h c ∧ c.sequence = s

theorem Navigates.home_eq (hc : p.Navigates h c) : c.path.home = h := by
  rw [Context.path, (below_of_navigates hc).root_eq]
  rfl

theorem HasOp.home_eq (ho : p.HasOp h o) : o.path.sequence.home = h := by
  obtain ⟨l, hl, rfl⟩ := ho
  exact (navigates_iff_below.mpr (mem_operations.mp hl).1).home_eq

theorem HasSequence.home_eq (hs : p.HasSequence h s) : s.path.home = h := by
  obtain ⟨c, hc, rfl⟩ := hs
  exact hc.home_eq

theorem HasOp.getElem?_elements (hc : p.Navigates h c) (ho : p.HasOp h o)
    (hpath : o.path.sequence = c.path) : c.sequence.elements[o.path.index]? = some o := by
  obtain ⟨l, hl, rfl⟩ := ho
  obtain ⟨hbelow, hop⟩ := mem_operations.mp hl
  obtain rfl := hc.eq_of_path (navigates_iff_below.mpr hbelow) hpath.symm
  exact Context.getElem?_elements_iff.mpr ⟨rfl, hop⟩

/-- A look-up finds an operation exactly where it is an element. -/
theorem indexOf?_eq_some_iff (hne : h ≠ h') (hc : p.Navigates h c)
    (ho : p.HasOp h o ∨ q.HasOp h' o) :
    c.sequence.indexOf? o = some i ↔ c.sequence.elements[i]? = some o := by
  constructor
  · intro hi
    obtain ⟨hpath, -⟩ := PlacedSequence.indexOf?_eq_some_iff.mp hi
    rcases ho with ho | ho
    · have hget := ho.getElem?_elements hc (congrArg OpPath.sequence hpath)
      rwa [hpath] at hget
    · -- Nothing of the other program stands in a place of this one.
      have hhome := ho.home_eq
      rw [hpath] at hhome
      exact absurd (hc.home_eq.symm.trans hhome) hne
  · intro hi
    obtain ⟨hpath, hop⟩ := Context.getElem?_elements_iff.mp hi
    exact PlacedSequence.indexOf?_eq_some_iff.mpr ⟨hpath, (List.getElem?_eq_some_iff.mp hop).1⟩

theorem indexOf?_eq_none_iff (hne : h ≠ h') (hc : p.Navigates h c)
    (ho : p.HasOp h o ∨ q.HasOp h' o) :
    c.sequence.indexOf? o = none ↔ o ∉ c.sequence.elements := by
  rw [List.mem_iff_getElem?, Option.eq_none_iff_forall_ne_some, not_exists]
  exact forall_congr' fun i => not_congr (indexOf?_eq_some_iff hne hc ho)

theorem mem_regions_iff (hne : h ≠ h') (hc : p.Navigates h c)
    (ho : c.sequence.elements[i]? = some o) (hs : p.HasSequence h s ∨ q.HasSequence h' s) :
    s ∈ o.regions.map Prod.snd ↔ ∃ x ∈ o.regions, x.2.path = s.path := by
  rw [List.mem_map]
  constructor
  · rintro ⟨x, hx, rfl⟩
    exact ⟨x, hx, rfl⟩
  · rintro ⟨x, hx, hpath⟩
    refine ⟨x, hx, ?_⟩
    obtain ⟨ho, hop⟩ := Context.getElem?_elements_iff.mp ho
    obtain ⟨⟨r, t⟩, hr, rfl⟩ := List.mem_map.mp hx
    have hregion : p.Navigates h (c.descend i r t) :=
      navigates_iff_below.mpr ((below_of_navigates hc).region hop hr)
    rw [ho] at hpath ⊢
    rcases hs with ⟨c', hc', rfl⟩ | hs
    · rw [← hregion.eq_of_path hc' hpath]
      rfl
    · have hhome := hs.home_eq
      rw [← hpath] at hhome
      exact absurd (hregion.home_eq.symm.trans hhome) hne

/-- The points before two elements of a sequence differ, and so do a point before an element and the
one where the sequence goes on. -/
theorem point_ne_point {j : Nat} (hc : p.Navigates h c) (hij : i < j) (hj : j ≤ c.ops.length) :
    c.point i ≠ c.point j := by
  have hbelow := below_of_navigates hc
  have hi : c.ops[i]? = some c.ops[i] := List.getElem?_eq_getElem (by omega)
  have hl : (⟨c, i, c.ops[i]⟩ : Located d) ∈ p.operations h := mem_operations.mpr ⟨hbelow, hi⟩
  obtain ⟨pre, post, hsplit, hexit⟩ := hbelow.exit_owned
  rw [Context.preorder_take_drop hj, ← operations_eq, List.append_assoc, ← List.append_assoc]
    at hsplit
  intro heq
  rcases Context.point_owned hexit j with hend | ⟨m', hm', hown'⟩
  · rw [← heq, Context.point_of_some hi] at hend
    exact entry_ne_exit hl hend
  · -- The owners of the two points lie on different sides of the later index.
    obtain ⟨m, hm, -, hown⟩ := exists_owner c.ops[i] c i
    rw [← Context.point_of_some hi, heq] at hown
    have htake : (c.ops.take j)[i]? = some c.ops[i] := by rw [List.getElem?_take_of_lt hij, hi]
    have hleft : m ∈ pre ++ preorderFrom c 0 (c.ops.take j) := by
      refine List.mem_append_right _ (mem_preorderFrom.mpr ⟨i, _, htake, ?_⟩)
      rwa [Nat.zero_add]
    have hmem : m ∈ p.operations h := by rw [hsplit]; exact List.mem_append_left _ hleft
    have hmem' : m' ∈ p.operations h := by rw [hsplit]; exact List.mem_append_right _ hm'
    obtain rfl := eq_of_own? hmem hmem' hown hown'
    have hnodup := p.operations_nodup h
    rw [hsplit] at hnodup
    exact List.disjoint_of_nodup_append hnodup hleft hm'

theorem successor_inj {j : Nat} (hc : p.Navigates h c) (hi : i < c.ops.length)
    (hj : j < c.ops.length) (heq : c.successor i = c.successor j) : i = j := by
  rw [c.successor_eq_point, c.successor_eq_point] at heq
  rcases Nat.lt_trichotomy i j with hij | hij | hij
  · exact absurd heq (point_ne_point hc (by omega) (by omega))
  · exact hij
  · exact absurd heq.symm (point_ne_point hc (by omega) (by omega))

/-- Checks of membership are exact, and they are by identity.  Let an operation and a sequence be
given, each of this program or of another one, and a context that navigation gets to.  Where the
operation goes on, and what its regions are, is refused with its kind exactly if it is not an
element of the sequence that the context is about.  If it is one, it is so at one index, which a
look-up finds; it goes on where that index does, and no other element goes on there; entering is
refused with the kind exactly if the sequence given is not one of its own regions, and otherwise
leads to the context of that region.  So each operation that a walk hands out goes on where it says
itself, by the index that the walk keeps. -/
theorem membership_by_identity (p q q' : Program d) {h h' : Home} (hne : h ≠ h') {c : Context d}
    (hc : p.Navigates h c) {o : PlacedOp d} (ho : p.HasOp h o ∨ q.HasOp h' o)
    {s : PlacedSequence d} (hs : p.HasSequence h s ∨ q'.HasSequence h' s) :
    (c.exitOf o = .error (.notInContext o.op.kind) ↔ o ∉ c.sequence.elements) ∧
    (∀ i, c.sequence.elements[i]? = some o →
      (∀ j, c.sequence.elements[j]? = some o → j = i) ∧
      c.exitOf o = .ok (if o.op.fallsThrough then some (c.successor i) else none)) ∧
    (∀ i j, i < c.ops.length → j < c.ops.length → c.successor i = c.successor j → i = j) ∧
    (c.enter o s = .error (.notInContext o.op.kind) ↔ o ∉ c.sequence.elements) ∧
    (c.enter o s = .error (.notARegion o.op.kind) ↔
      o ∈ c.sequence.elements ∧ s ∉ o.regions.map Prod.snd) ∧
    (o ∈ c.sequence.elements → s ∈ o.regions.map Prod.snd → ∃ c', c.enter o s = .ok c' ∧
      p.Navigates h c' ∧ c'.sequence = s ∧ c'.parent? = some c ∧ c'.owner? = some o) ∧
    ∀ l ∈ (Walk.start c).toList,
      (∀ i, l.context.sequence.elements[i]? = some l.placed ↔ i = l.index) ∧
      l.context.exitOf l.placed = .ok l.exit? := by
  have hnone := indexOf?_eq_none_iff hne hc ho
  refine ⟨?_, ?_, fun i j hi hj heq => successor_inj hc hi hj heq, ?_, ?_, ?_, ?_⟩
  · rw [Context.exitOf_eq_error_iff, hnone]
  · intro i hi
    refine ⟨fun j hj => Context.element_inj hj hi, ?_⟩
    exact Context.exitOf_of_get? (by rwa [PlacedSequence.getElem?_elements] at hi)
  · rw [Context.enter_eq_notInContext_iff, hnone]
  · rw [Context.enter_eq_notARegion_iff, Ne, hnone, not_not]
    refine and_congr_right fun hmem => ?_
    obtain ⟨i, hi⟩ := List.mem_iff_getElem?.mp hmem
    rw [mem_regions_iff hne hc hi hs]
    simp
  · intro hmem hregion
    obtain ⟨i, hi⟩ := List.mem_iff_getElem?.mp hmem
    obtain ⟨x, hx, rfl⟩ := List.mem_map.mp hregion
    rw [PlacedSequence.getElem?_elements, Context.get?_sequence] at hi
    obtain ⟨c', henter, hc'⟩ := Context.enter_region hi hx
    have hin := (below_of_navigates hc).of_enter hi henter
    exact ⟨c', henter, navigates_iff_below.mpr hin, hc'⟩
  · intro l hl
    rw [Walk.toList_start, Context.mem_preorder_iff] at hl
    have hindex : l.context.sequence.elements[l.index]? = some l.placed :=
      Context.getElem?_elements_iff.mpr ⟨rfl, hl.2⟩
    have hmem : l ∈ p.operations h :=
      mem_operations.mpr ⟨(below_of_navigates hc).trans hl.1, hl.2⟩
    refine ⟨fun i => ⟨fun hi => Context.element_inj hi hindex, ?_⟩, Located.exitOf_placed hmem⟩
    rintro rfl
    exact hindex

/-- Of two equal scopes side by side, the second goes on after itself and does not own the body of
the first; its equal in another program is no element at all. -/
theorem membership_by_identity_twins :
    let p : Program .imp := ⟨[.scope rfl [.skip], .scope rfl [.skip]]⟩
    let c := p.context .main
    let second (h : Home) : PlacedOp .imp := ⟨⟨.body h, 1⟩, .scope rfl [.skip]⟩
    let first : PlacedSequence .imp := ⟨OpPath.enter ⟨.body .main, 0⟩ .body, [.skip]⟩
    p.Navigates .main c ∧ p.HasOp .main (second .main) ∧ p.HasOp .other (second .other) ∧
    p.HasSequence .main first ∧
    c.exitOf (second .main) = .ok (some (p.exit .main)) ∧
    c.enter (second .main) first = .error (.notARegion .scope) ∧
    c.exitOf (second .other) = .error (.notInContext .scope) := by
  intro p c second first
  have hne : Home.main ≠ Home.other := by decide
  have hop : ∀ h, p.HasOp h (second h) := fun h =>
    ⟨⟨p.context h, 1, .scope rfl [.skip]⟩, mem_operations.mpr ⟨.here, rfl⟩, rfl⟩
  have hs : p.HasSequence .main first :=
    ⟨c.descend 0 .body [.skip],
      navigates_iff_below.mpr (.region .here rfl (Op.body_mem_regions rfl _)), rfl⟩
  have hmain := membership_by_identity p p p hne .context (.inl (hop .main)) (.inl hs)
  have hother := membership_by_identity p p p hne .context (.inr (hop .other)) (.inl hs)
  have helement : c.sequence.elements[1]? = some (second .main) := rfl
  refine ⟨.context, hop .main, hop .other, hs, (hmain.2.1 1 helement).2, ?_, ?_⟩
  · refine hmain.2.2.2.2.1.mpr ⟨List.mem_of_getElem? helement, ?_⟩
    simp [PlacedOp.regions, Op.regions, second, first, OpPath.enter]
  · refine hother.1.mpr ?_
    simp [PlacedSequence.elements, second, Context.sequence, Program.context, Context.path,
      Context.ofRoot, Program.placed, SequencePath.body]

end Program

end RegionFlow

import Mathlib.Data.List.Nodup
import RegionFlow.Flow.Walk
import RegionFlow.Proofs.Flow.Ancestry
set_option autoImplicit false

namespace RegionFlow

variable {d : Dialect}

theorem preorderOf_eq (c : Context d) (i : Nat) (o : Op d) :
    preorderOf c i o = ⟨c, i, o⟩ :: o.regions.flatMap fun p => (c.descend i p.1 p.2).preorder := by
  cases o <;> simp [preorderOf, Op.regions, Context.preorder]

theorem mem_preorderOf {c : Context d} {i : Nat} {o : Op d} {l : Located d} :
    l ∈ preorderOf c i o ↔
      l = ⟨c, i, o⟩ ∨ ∃ p ∈ o.regions, l ∈ (c.descend i p.1 p.2).preorder := by
  rw [preorderOf_eq, List.mem_cons, List.mem_flatMap]

theorem preorderFrom_append (c : Context d) (i : Nat) (s t : Sequence d) :
    preorderFrom c i (s ++ t) = preorderFrom c i s ++ preorderFrom c (i + s.length) t := by
  induction s generalizing i with
  | nil => rfl
  | cons o s ih =>
    have hi : i + 1 + s.length = i + (s.length + 1) := by omega
    simp only [List.cons_append, preorderFrom, ih, List.length_cons, List.append_assoc, hi]

theorem mem_preorderFrom {c : Context d} {i : Nat} {s : Sequence d} {l : Located d} :
    l ∈ preorderFrom c i s ↔ ∃ j o, s[j]? = some o ∧ l ∈ preorderOf c (i + j) o := by
  induction s generalizing i with
  | nil => simp [preorderFrom]
  | cons o s ih =>
    rw [preorderFrom, List.mem_append, ih]
    constructor
    · rintro (h | ⟨j, e, he, h⟩)
      · exact ⟨0, o, rfl, h⟩
      · have hj : i + (j + 1) = i + 1 + j := by omega
        refine ⟨j + 1, e, he, ?_⟩
        rwa [hj]
    · rintro ⟨j, e, he, h⟩
      cases j with
      | zero =>
        rw [List.getElem?_cons_zero, Option.some.injEq] at he
        subst he
        exact .inl h
      | succ j =>
        have hj : i + 1 + j = i + (j + 1) := by omega
        refine .inr ⟨j, e, he, ?_⟩
        rwa [hj]

namespace Context

theorem mem_preorder {c : Context d} {l : Located d} :
    l ∈ c.preorder ↔ ∃ j o, c.ops[j]? = some o ∧ l ∈ preorderOf c j o := by
  simp only [preorder, mem_preorderFrom, Nat.zero_add]

theorem preorder_take_drop {c : Context d} {i : Nat} (hi : i ≤ c.ops.length) :
    c.preorder = preorderFrom c 0 (c.ops.take i) ++ preorderFrom c i (c.ops.drop i) := by
  have hlen : 0 + (c.ops.take i).length = i := by
    rw [List.length_take]
    omega
  conv_lhs => rw [preorder, ← List.take_append_drop i c.ops, preorderFrom_append, hlen]

theorem preorder_split {c : Context d} {i : Nat} {o : Op d} (ho : c.ops[i]? = some o) :
    c.preorder = preorderFrom c 0 (c.ops.take i) ++
      (preorderOf c i o ++ preorderFrom c (i + 1) (c.ops.drop (i + 1))) := by
  obtain ⟨hi, -⟩ := List.getElem?_eq_some_iff.mp ho
  rw [preorder_take_drop (Nat.le_of_lt hi), drop_eq_cons ho, preorderFrom]

/-- The operations of a preorder are the elements of the sequences below the context. -/
theorem mem_preorder_iff {c : Context d} {l : Located d} :
    l ∈ c.preorder ↔ c.Below l.context ∧ l.context.ops[l.index]? = some l.op := by
  constructor
  · have tree : ∀ (o : Op d) (x : Context d) (i : Nat), c.Below x → x.ops[i]? = some o →
        l ∈ preorderOf x i o → c.Below l.context ∧ l.context.ops[l.index]? = some l.op := by
      intro o
      induction o using Op.region_induction with
      | step o ih =>
        intro x i hx ho hl
        rcases mem_preorderOf.mp hl with rfl | ⟨p, hp, hl⟩
        · exact ⟨hx, ho⟩
        · obtain ⟨j, e, he, hl⟩ := mem_preorder.mp hl
          exact ih p hp e (List.mem_of_getElem? he) _ j (hx.region ho hp) he hl
    intro hl
    obtain ⟨j, o, ho, hl⟩ := mem_preorder.mp hl
    exact tree o c j .here ho hl
  · have element : ∀ x : Context d, c.Below x → ∀ (i : Nat) (o : Op d), x.ops[i]? = some o →
        ∀ m ∈ preorderOf x i o, m ∈ c.preorder := by
      intro x hx
      induction hx with
      | here => exact fun i o ho m hm => mem_preorder.mpr ⟨i, o, ho, hm⟩
      | region _ ho' hr ih =>
        intro i o ho m hm
        apply ih _ _ ho'
        exact mem_preorderOf.mpr (.inr ⟨_, hr, mem_preorder.mpr ⟨i, o, ho, hm⟩⟩)
    rintro ⟨hx, ho⟩
    exact element l.context hx l.index l.op ho l (mem_preorderOf.mpr (.inl rfl))

theorem Below.frames_suffix {base c : Context d} (h : base.Below c) : base.frames <:+ c.frames := by
  induction h with
  | here => exact List.suffix_refl _
  | region _ _ _ ih => exact ih.trans (List.suffix_cons _ _)

/-- No sequence lies in two regions. -/
theorem Below.descend_inj {c low : Context d} {i j : Nat} {r r' : Region} {s s' : Sequence d}
    (h : (c.descend i r s).Below low) (h' : (c.descend j r' s').Below low) : i = j ∧ r = r' := by
  have hlen : (c.descend i r s).frames.length = (c.descend j r' s').frames.length := rfl
  have hframes :=
    List.suffix_of_suffix_length_le h.frames_suffix h'.frames_suffix (Nat.le_of_eq hlen)
  have heq := hframes.eq_of_length hlen
  simp only [descend, List.cons.injEq, Frame.mk.injEq] at heq
  exact ⟨heq.1.1, heq.1.2.1⟩

theorem Below.not_descend {c : Context d} {i : Nat} {r : Region} {s : Sequence d} :
    ¬ (c.descend i r s).Below c := by
  intro h
  have := h.depth_le
  rw [depth_descend] at this
  omega

end Context

theorem disjoint_preorderOf {c : Context d} {i j : Nat} {o e : Op d} {l : Located d} (hij : i ≠ j)
    (hi : l ∈ preorderOf c i o) : l ∉ preorderOf c j e := by
  intro hj
  rcases mem_preorderOf.mp hi with rfl | ⟨p, -, hp⟩
  · rcases mem_preorderOf.mp hj with h | ⟨q, -, hq⟩
    · simp_all
    · exact Context.Below.not_descend (Context.mem_preorder_iff.mp hq).1
  · rcases mem_preorderOf.mp hj with rfl | ⟨q, -, hq⟩
    · exact Context.Below.not_descend (Context.mem_preorder_iff.mp hp).1
    · have hp := (Context.mem_preorder_iff.mp hp).1
      exact hij (hp.descend_inj (Context.mem_preorder_iff.mp hq).1).1

theorem preorderFrom_nodup {c : Context d} {i : Nat} {s : Sequence d}
    (hs : ∀ e ∈ s, ∀ j, (preorderOf c j e).Nodup) : (preorderFrom c i s).Nodup := by
  induction s generalizing i with
  | nil => exact List.nodup_nil
  | cons o s ih =>
    rw [List.forall_mem_cons] at hs
    rw [preorderFrom]
    refine List.Nodup.append (hs.1 i) (ih hs.2) ?_
    intro l hl hl'
    obtain ⟨j, e, -, he⟩ := mem_preorderFrom.mp hl'
    exact disjoint_preorderOf (by omega) hl he

theorem preorderOf_nodup (o : Op d) : ∀ (c : Context d) (i : Nat), (preorderOf c i o).Nodup := by
  induction o using Op.region_induction with
  | step o ih =>
    intro c i
    rw [preorderOf_eq, List.nodup_cons]
    constructor
    · intro hl
      obtain ⟨p, -, hp⟩ := List.mem_flatMap.mp hl
      exact Context.Below.not_descend (Context.mem_preorder_iff.mp hp).1
    · rw [List.nodup_flatMap]
      constructor
      · exact fun p hp => preorderFrom_nodup fun e he j => ih p hp e he _ j
      · apply List.Pairwise.imp _ o.regions_pairwise
        intro p q hpq l hp hq
        have hp := (Context.mem_preorder_iff.mp hp).1
        exact hpq (hp.descend_inj (Context.mem_preorder_iff.mp hq).1).2

theorem Context.preorder_nodup (c : Context d) : c.preorder.Nodup :=
  preorderFrom_nodup fun e _ j => preorderOf_nodup e c j

/-- An operation is known by its place, however alike two operations are as values. -/
theorem Context.eq_of_path {c : Context d} {l l' : Located d} (hl : l ∈ c.preorder)
    (hl' : l' ∈ c.preorder) (hp : l.placed.path = l'.placed.path) : l = l' := by
  obtain ⟨x, i, o⟩ := l
  obtain ⟨x', i', o'⟩ := l'
  rw [mem_preorder_iff] at hl hl'
  simp only [Located.placed, OpPath.mk.injEq] at hp
  obtain ⟨hx, rfl⟩ := hp
  obtain rfl := hl.1.eq_of_path hl'.1 hx
  have ho : some o = some o' := hl.2.symm.trans hl'.2
  rw [Option.some.inj ho]

theorem Context.preorder_paths_nodup (c : Context d) :
    (c.preorder.map fun l => l.placed.path).Nodup := by
  apply List.Nodup.map_on _ c.preorder_nodup
  intro l hl m hm hp
  exact eq_of_path hl hm hp

theorem length_preorderFrom {c : Context d} {i : Nat} {s : Sequence d}
    (hs : ∀ e ∈ s, ∀ j, (preorderOf c j e).length = e.count) :
    (preorderFrom c i s).length = countSequence s := by
  induction s generalizing i with
  | nil => rfl
  | cons o s ih =>
    rw [List.forall_mem_cons] at hs
    rw [preorderFrom, List.length_append, hs.1, ih hs.2, countSequence]

theorem length_flatMap_preorder {c : Context d} {i : Nat} {rs : List (Region × Sequence d)}
    (hrs : ∀ p ∈ rs, (c.descend i p.1 p.2).preorder.length = countSequence p.2) :
    (rs.flatMap fun p => (c.descend i p.1 p.2).preorder).length =
      countSequence (rs.flatMap Prod.snd) := by
  induction rs with
  | nil => rfl
  | cons p rs ih =>
    rw [List.forall_mem_cons] at hrs
    rw [List.flatMap_cons, List.flatMap_cons, List.length_append, hrs.1, ih hrs.2,
      countSequence_append]

theorem length_preorderOf (o : Op d) :
    ∀ (c : Context d) (i : Nat), (preorderOf c i o).length = o.count := by
  induction o using Op.region_induction with
  | step o ih =>
    intro c i
    have hregions : ∀ p ∈ o.regions,
        (c.descend i p.1 p.2).preorder.length = countSequence p.2 :=
      fun p hp => length_preorderFrom fun e he j => ih p hp e he _ j
    rw [preorderOf_eq, List.length_cons, length_flatMap_preorder hregions, Op.count_eq,
      Nat.add_comm]

namespace Walk

theorem nextIn?_spec (s : List (Pending d)) :
    match nextIn? s with
    | none => (s.flatMap fun p => preorderFrom p.context p.index p.rest) = []
    | some (l, t) => (s.flatMap fun p => preorderFrom p.context p.index p.rest) =
        l :: t.flatMap fun p => preorderFrom p.context p.index p.rest := by
  induction s with
  | nil => rfl
  | cons p s ih =>
    obtain ⟨c, i, ops⟩ := p
    cases ops with
    | nil => simpa [nextIn?, preorderFrom] using ih
    | cons o rest =>
      simp [nextIn?, preorderFrom, preorderOf_eq, inner, List.flatMap_map, Context.preorder]

theorem toListFrom_none {s : List (Pending d)} (h : nextIn? s = none) : toListFrom s = [] := by
  rw [toListFrom]
  split
  · rfl
  · simp_all

theorem toListFrom_some {s t : List (Pending d)} {l : Located d} (h : nextIn? s = some (l, t)) :
    toListFrom s = l :: toListFrom t := by
  rw [toListFrom]
  split
  · simp_all
  · simp_all

theorem toListFrom_eq (s : List (Pending d)) :
    toListFrom s = s.flatMap fun p => preorderFrom p.context p.index p.rest := by
  have hs := nextIn?_spec s
  cases hn : nextIn? s with
  | none =>
    rw [hn] at hs
    rw [toListFrom_none hn]
    exact hs.symm
  | some x =>
    have := remaining_of_nextIn? hn
    rw [hn] at hs
    rw [toListFrom_some hn, toListFrom_eq x.2]
    exact hs.symm
termination_by remaining s

/-- A walk hands out the preorder of the context that it starts from. -/
theorem toList_start (c : Context d) : (start c).toList = c.preorder := by
  simp [toList, start, toListFrom_eq, Context.preorder]

end Walk

namespace Program

variable {p : Program d} {h : Home} {l l' : Located d}

theorem operations_eq (p : Program d) (h : Home) : p.operations h = (p.context h).preorder :=
  Walk.toList_start _

theorem mem_operations :
    l ∈ p.operations h ↔
      (p.context h).Below l.context ∧ l.context.ops[l.index]? = some l.op := by
  rw [operations_eq, Context.mem_preorder_iff]

theorem operations_nodup (p : Program d) (h : Home) : (p.operations h).Nodup := by
  rw [operations_eq]
  exact (p.context h).preorder_nodup

theorem operations_paths_nodup (p : Program d) (h : Home) :
    ((p.operations h).map fun l => l.placed.path).Nodup := by
  rw [operations_eq]
  exact (p.context h).preorder_paths_nodup

theorem eq_of_path (hl : l ∈ p.operations h) (hl' : l' ∈ p.operations h)
    (hp : l.placed.path = l'.placed.path) : l = l' := by
  rw [operations_eq] at hl hl'
  exact Context.eq_of_path hl hl' hp

end Program

end RegionFlow

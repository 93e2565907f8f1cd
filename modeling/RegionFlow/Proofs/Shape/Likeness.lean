import RegionFlow.Proofs.Analysis.Verdict
set_option autoImplicit false

namespace RegionFlow

variable {d d' : Dialect}

mutual

/-- The same shape at all depths.  What an operation computes does not count, nor how its dialect
calls it. -/
def Op.alike {d d' : Dialect} : Op d → Op d' → Bool
  | .conditional _ t e, .conditional _ t' e' => sequenceAlike t t' && sequenceAlike e e'
  | .whileLoop _ b, .whileLoop _ b' => sequenceAlike b b'
  | .scope _ b, .scope _ b' => sequenceAlike b b'
  | a, b => decide (a.shape = b.shape)

def sequenceAlike {d d' : Dialect} : List (Op d) → List (Op d') → Bool
  | [], [] => true
  | a :: as, b :: bs => a.alike b && sequenceAlike as bs
  | _, _ => false

end

def Program.alike (p : Program d) (q : Program d') : Bool := sequenceAlike p.body q.body

theorem sequenceAlike_iff {s : Sequence d} {t : Sequence d'} :
    sequenceAlike s t = true ↔ List.Forall₂ (fun a b => a.alike b = true) s t := by
  induction s generalizing t with
  | nil => cases t <;> simp [sequenceAlike]
  | cons a s ih => cases t <;> simp [sequenceAlike, ih]

theorem length_eq_of_alike {s : Sequence d} {t : Sequence d'} (h : sequenceAlike s t) :
    s.length = t.length := (sequenceAlike_iff.mp h).length_eq

theorem exists_alike_of_getElem? {s : Sequence d} {t : Sequence d'} {i : Nat} {a : Op d}
    (h : sequenceAlike s t) (ha : s[i]? = some a) : ∃ b, t[i]? = some b ∧ a.alike b := by
  rw [sequenceAlike_iff] at h
  induction h generalizing i with
  | nil => simp at ha
  | @cons e e' s t he _ ih =>
    cases i with
    | zero =>
      rw [List.getElem?_cons_zero, Option.some.injEq] at ha
      exact ⟨e', rfl, ha ▸ he⟩
    | succ i => exact ih ha

theorem Op.alike_iff {a : Op d} {b : Op d'} :
    a.alike b = true ↔ a.shape = b.shape ∧
      List.Forall₂ (fun p q => p.1 = q.1 ∧ sequenceAlike p.2 q.2 = true) a.regions b.regions := by
  cases a <;> cases b <;> simp [alike, shape, regions]

namespace Op

variable {a : Op d} {b : Op d'}

theorem shape_eq_of_alike (h : a.alike b) : a.shape = b.shape := (alike_iff.mp h).1

theorem isLoop_eq_shape (o : Op d) : o.isLoop = decide (o.shape = .loop) := by cases o <;> rfl

theorem isLoop_eq_of_alike (h : a.alike b) : a.isLoop = b.isLoop := by
  rw [isLoop_eq_shape, isLoop_eq_shape, shape_eq_of_alike h]

theorem fallsThrough_eq_shape (o : Op d) :
    o.fallsThrough = decide (o.shape ≠ .terminate ∧ o.shape ≠ .break_) := by cases o <;> rfl

theorem fallsThrough_eq_of_alike (h : a.alike b) : a.fallsThrough = b.fallsThrough := by
  rw [fallsThrough_eq_shape, fallsThrough_eq_shape, shape_eq_of_alike h]

theorem scope_of_alike {g : d.hasScopes = true} {s : Sequence d} (h : (Op.scope g s).alike b) :
    ∃ g' t, b = .scope g' t ∧ sequenceAlike s t := by
  cases b with
  | scope g' t => exact ⟨g', t, rfl, h⟩
  | _ => simp [alike, shape] at h

end Op

theorem entryOf_of_shape {o : Op d} (path : OpPath) (h : o.shape ≠ .transparent) :
    entryOf path o = .entry path := by
  cases o <;> simp_all [entryOf, Op.shape]

theorem entryOf_eq_of_alike (a : Op d) :
    ∀ (b : Op d') (path : OpPath), a.alike b → entryOf path a = entryOf path b := by
  induction a using Op.region_induction with
  | step a ih =>
    intro b path h
    by_cases hs : a.shape = .transparent
    · obtain ⟨g, s, rfl⟩ := Op.eq_scope hs
      obtain ⟨g', t, rfl, hst⟩ := Op.scope_of_alike h
      cases sequenceAlike_iff.mp hst with
      | nil => rfl
      | @cons e e' s t he _ =>
        exact ih _ (Op.body_mem_regions g (e :: s)) e List.mem_cons_self e' _ he
    · rw [entryOf_of_shape path hs, entryOf_of_shape path (Op.shape_eq_of_alike h ▸ hs)]

theorem sequenceEscapes_eq_of_alike {s : Sequence d} {t : Sequence d'} (h : sequenceAlike s t)
    (ho : ∀ a ∈ s, ∀ b : Op d', a.alike b → a.escapes = b.escapes) :
    sequenceEscapes s = sequenceEscapes t := by
  rw [sequenceAlike_iff] at h
  induction h with
  | nil => rfl
  | @cons a b s t hab _ ih =>
    rw [List.forall_mem_cons] at ho
    rw [sequenceEscapes, sequenceEscapes, ho.1 b hab, ih ho.2]

theorem Op.escapes_eq_of_alike (a : Op d) : ∀ b : Op d', a.alike b → a.escapes = b.escapes := by
  induction a using Op.region_induction with
  | step a ih =>
    intro b h
    have hregion : ∀ p ∈ a.regions, ∀ t : Sequence d', sequenceAlike p.2 t →
        sequenceEscapes p.2 = sequenceEscapes t :=
      fun p hp t ht => sequenceEscapes_eq_of_alike ht (ih p hp)
    cases a with
    | conditional c s t =>
      cases b with
      | conditional c' s' t' =>
        rw [alike, Bool.and_eq_true] at h
        have hthen := hregion (.thenArm, s) (by simp [regions]) s' h.1
        have helse := hregion (.elseArm, t) (by simp [regions]) t' h.2
        rw [escapes, escapes, hthen, helse]
      | _ => simp [alike, shape] at h
    | scope g s =>
      obtain ⟨g', t, rfl, hst⟩ := scope_of_alike h
      exact hregion (.body, s) (body_mem_regions g s) t hst
    | _ => cases b <;> simp [alike, shape] at h <;> rfl

theorem Op.absorbs_eq_of_alike {a : Op d} {b : Op d'} (h : a.alike b) :
    a.absorbs = b.absorbs := by
  cases a with
  | whileLoop c s =>
    cases b with
    | whileLoop c' t => exact sequenceEscapes_eq_of_alike h fun o _ => o.escapes_eq_of_alike
    | _ => simp [alike, shape] at h
  | _ => cases b <;> simp [alike, shape] at h <;> rfl

namespace Context

/-- The same regions are entered, from elements that are alike. -/
inductive Alike : Context d → Context d' → Prop where
  | root {s : PlacedSequence d} {t : PlacedSequence d'} (hpath : s.path = t.path)
      (hops : sequenceAlike s.ops t.ops) : Alike (ofRoot s) (ofRoot t)
  | region {c : Context d} {c' : Context d'} {i : Nat} {a : Op d} {b : Op d'} {r : Region}
      {s : Sequence d} {t : Sequence d'} (hc : Alike c c') (ha : c.ops[i]? = some a)
      (hb : c'.ops[i]? = some b) (hab : a.alike b) (hst : sequenceAlike s t) :
      Alike (c.descend i r s) (c'.descend i r t)

namespace Alike

variable {c : Context d} {c' : Context d'}

theorem ops (h : c.Alike c') : sequenceAlike c.ops c'.ops := by
  cases h with
  | root _ hops => exact hops
  | region _ _ _ _ hst => exact hst

theorem path_eq (h : c.Alike c') : c.path = c'.path := by
  induction h with
  | root hpath _ => rw [path, path, ofRoot, ofRoot, hpath]; rfl
  | region _ _ _ _ _ ih => rw [path_descend, path_descend, ih]

theorem depth_eq (h : c.Alike c') : c.depth = c'.depth := by
  induction h with
  | root => rfl
  | region _ _ _ _ _ ih => rw [depth_descend, depth_descend, ih]

theorem point_eq (h : c.Alike c') (hexit : c.exit = c'.exit) (i : Nat) :
    c.point i = c'.point i := by
  cases ha : c.ops[i]? with
  | none =>
    have hb : c'.ops[i]? = none := by
      rwa [List.getElem?_eq_none_iff, ← length_eq_of_alike h.ops, ← List.getElem?_eq_none_iff]
    rw [point_of_none ha, point_of_none hb, hexit]
  | some a =>
    obtain ⟨b, hb, hab⟩ := exists_alike_of_getElem? h.ops ha
    rw [point_of_some ha, point_of_some hb, h.path_eq, entryOf_eq_of_alike a b _ hab]

/-- The end of a sequence is the same point, since the owners of the sequences go on alike. -/
theorem exit_eq (h : c.Alike c') : c.exit = c'.exit := by
  induction h with
  | root hpath _ => exact congrArg Point.exit hpath
  | region hc _ _ _ _ ih =>
    rw [exit_descend, exit_descend, successor_eq_point, successor_eq_point]
    exact hc.point_eq ih _

theorem successor_eq (h : c.Alike c') (i : Nat) : c.successor i = c'.successor i := by
  rw [successor_eq_point, successor_eq_point]
  exact h.point_eq h.exit_eq _

theorem loop_eq (h : c.Alike c') :
    c'.breakTarget? = c.breakTarget?.map id ∧ c'.loopHeader? = c.loopHeader?.map id := by
  refine loops_of_rel ?_
  induction h with
  | root => exact .none
  | @region c c' i a b r s t hc ha hb hab _ ih =>
    rw [enclosingLoop?_descend r s ha, enclosingLoop?_descend r t hb, Op.isLoop_eq_of_alike hab]
    split
    · have hentry := entryOf_eq_of_alike a b ⟨c.path, i⟩ hab
      exact .some ⟨(hc.successor_eq i).symm, by rw [PlacedOp.entry, ← hc.path_eq, ← hentry]; rfl⟩
    · exact ih

end Alike

end Context

end RegionFlow

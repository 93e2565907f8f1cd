import RegionFlow.Analysis.Validation
import RegionFlow.Proofs.Flow.Preorder
set_option autoImplicit false

/-!
Flattening splices the elements of each scope into the sequence around it and puts a skip where a
scope has no elements.  Every other operation, and every empty scope, has an image in the flattened
program, and a walk hands out the images in the order of the operations.
-/

namespace RegionFlow

variable {d : Dialect}

mutual

def Op.flatten {d : Dialect} : Op d → List (Op d)
  | .scope _ b => if b.isEmpty then [.skip] else flattenSequence b
  | .conditional c t e => [.conditional c (flattenSequence t) (flattenSequence e)]
  | .whileLoop c b => [.whileLoop c (flattenSequence b)]
  | .skip => [.skip]
  | .assign x e => [.assign x e]
  | .breakLoop => [.breakLoop]
  | .terminate => [.terminate]

def flattenSequence {d : Dialect} : List (Op d) → List (Op d)
  | [] => []
  | o :: rest => o.flatten ++ flattenSequence rest

end

def Program.flatten (p : Program d) : Program d := ⟨flattenSequence p.body⟩

namespace Op

/-- A scope with elements is dissolved; all else is kept. -/
def isKept : Op d → Bool
  | .scope _ b => b.isEmpty
  | _ => true

def image : Op d → Op d
  | .conditional c t e => .conditional c (flattenSequence t) (flattenSequence e)
  | .whileLoop c b => .whileLoop c (flattenSequence b)
  | .scope _ _ => .skip
  | .skip => .skip
  | .assign x e => .assign x e
  | .breakLoop => .breakLoop
  | .terminate => .terminate

theorem flatten_of_isKept {o : Op d} (hk : o.isKept = true) : o.flatten = [o.image] := by
  cases o with
  | scope g b => simp_all [isKept, flatten, image]
  | _ => simp [flatten, image]

theorem flatten_scope {g : d.hasScopes = true} {b : Sequence d} (hb : b ≠ []) :
    (Op.scope g b).flatten = flattenSequence b := by
  simp [flatten, hb]

theorem isKept_of_shape {o : Op d} (hs : o.shape ≠ .transparent) : o.isKept = true := by
  cases o <;> simp_all [isKept, shape]

theorem isKept_of_isLoop {o : Op d} (hl : o.isLoop = true) : o.isKept = true := by
  cases o <;> simp_all [isKept, isLoop]

theorem image_shape (o : Op d) : o.image.shape ≠ .transparent := by
  cases o <;> simp [image, shape]

theorem image_fallsThrough (o : Op d) : o.image.fallsThrough = o.fallsThrough := by
  cases o <;> rfl

theorem image_isLoop (o : Op d) : o.image.isLoop = o.isLoop := by
  cases o <;> rfl

theorem image_regions {o : Op d} (hs : o.shape ≠ .transparent) :
    o.image.regions = o.regions.map fun p => (p.1, flattenSequence p.2) := by
  cases o <;> simp_all [image, regions, shape]

end Op

theorem flattenSequence_append (s t : Sequence d) :
    flattenSequence (s ++ t) = flattenSequence s ++ flattenSequence t := by
  induction s with
  | nil => rfl
  | cons o s ih => simp [flattenSequence, ih]

/-- The context of the sequence that takes the elements of another in, and the index of the
first. -/
structure Landing (d : Dialect) where
  context : Context d
  start : Nat

namespace Context

def landingAmong (root : PlacedSequence d) : List (Frame d) → Landing d
  | [] => ⟨.ofRoot ⟨root.path, flattenSequence root.ops⟩, 0⟩
  | f :: outer =>
    let around := landingAmong root outer
    let c := Context.mk root outer
    let i := around.start + (flattenSequence (c.ops.take f.owner)).length
    match c.ops[f.owner]? with
    | some (.scope _ _) => ⟨around.context, i⟩
    | _ => ⟨around.context.descend i f.region (flattenSequence f.ops), 0⟩

def landing (c : Context d) : Landing d := landingAmong c.root c.frames

def flatten (c : Context d) : Context d := c.landing.context

def flatIndex (c : Context d) (i : Nat) : Nat :=
  c.landing.start + (flattenSequence (c.ops.take i)).length

variable {c : Context d} {i : Nat} {o : Op d} {r : Region} {s : Sequence d}

theorem flatIndex_succ (ho : c.ops[i]? = some o) :
    c.flatIndex (i + 1) = c.flatIndex i + o.flatten.length := by
  obtain ⟨hi, rfl⟩ := List.getElem?_eq_some_iff.mp ho
  rw [flatIndex, List.take_add_one, List.getElem?_eq_getElem hi, flattenSequence_append]
  simp [flatIndex, flattenSequence, Nat.add_assoc]

theorem flatIndex_succ_of_isKept (ho : c.ops[i]? = some o) (hk : o.isKept = true) :
    c.flatIndex (i + 1) = c.flatIndex i + 1 := by
  rw [flatIndex_succ ho, Op.flatten_of_isKept hk, List.length_singleton]

/-- The elements of a scope land in the sequence around it. -/
theorem landing_descend_scope {g : d.hasScopes = true} {b : Sequence d}
    (ho : c.ops[i]? = some (.scope g b)) :
    (c.descend i r s).landing = ⟨c.flatten, c.flatIndex i⟩ := by
  have hc : (Context.mk c.root c.frames).ops[i]? = some (.scope g b) := ho
  simp only [landing, descend, landingAmong, hc]
  rfl

theorem flatten_descend_scope {g : d.hasScopes = true} {b : Sequence d}
    (ho : c.ops[i]? = some (.scope g b)) : (c.descend i r s).flatten = c.flatten := by
  rw [flatten, landing_descend_scope ho]

theorem flatIndex_descend_scope {g : d.hasScopes = true} {b : Sequence d}
    (ho : c.ops[i]? = some (.scope g b)) (j : Nat) :
    (c.descend i r s).flatIndex j = c.flatIndex i + (flattenSequence (s.take j)).length := by
  rw [flatIndex, landing_descend_scope ho, ops_descend]

theorem landing_descend (ho : c.ops[i]? = some o) (hs : o.shape ≠ .transparent) :
    (c.descend i r s).landing =
      ⟨c.flatten.descend (c.flatIndex i) r (flattenSequence s), 0⟩ := by
  have hc : (Context.mk c.root c.frames).ops[i]? = some o := ho
  simp only [landing, descend, landingAmong, hc]
  cases o with
  | scope g b => exact absurd rfl hs
  | _ => rfl

theorem flatten_descend (ho : c.ops[i]? = some o) (hs : o.shape ≠ .transparent) :
    (c.descend i r s).flatten = c.flatten.descend (c.flatIndex i) r (flattenSequence s) := by
  rw [flatten, landing_descend ho hs]

theorem flatIndex_descend (ho : c.ops[i]? = some o) (hs : o.shape ≠ .transparent) (j : Nat) :
    (c.descend i r s).flatIndex j = (flattenSequence (s.take j)).length := by
  rw [flatIndex, landing_descend ho hs, ops_descend, Nat.zero_add]

end Context

def Located.image (l : Located d) : Located d :=
  ⟨l.context.flatten, l.context.flatIndex l.index, l.op.image⟩

def Located.isKept (l : Located d) : Bool := l.op.isKept

theorem preorderFrom_flatten {c : Context d} {i : Nat} {s : List (Op d)} (hs : c.ops.drop i = s)
    (ho : ∀ e ∈ s, ∀ j, c.ops[j]? = some e → ((preorderOf c j e).filter Located.isKept).map
      Located.image = preorderFrom c.flatten (c.flatIndex j) e.flatten) :
    ((preorderFrom c i s).filter Located.isKept).map Located.image =
      preorderFrom c.flatten (c.flatIndex i) (flattenSequence s) := by
  induction s generalizing i with
  | nil => rfl
  | cons o rest ih =>
    rw [List.forall_mem_cons] at ho
    obtain ⟨hi, hrest⟩ := getElem?_of_drop hs
    rw [preorderFrom, List.filter_append, List.map_append, ho.1 i hi, ih hrest ho.2,
      flattenSequence, preorderFrom_append, Context.flatIndex_succ hi]

/-- Below an element, the images of the kept operations are what a walk finds in its place. -/
theorem preorderOf_flatten (o : Op d) : ∀ (c : Context d) (i : Nat), c.ops[i]? = some o →
    ((preorderOf c i o).filter Located.isKept).map Located.image =
      preorderFrom c.flatten (c.flatIndex i) o.flatten := by
  induction o using Op.region_induction with
  | step o ih =>
    intro c i ho
    have hregion : ∀ p ∈ o.regions,
        (((c.descend i p.1 p.2).preorder).filter Located.isKept).map Located.image =
          preorderFrom (c.descend i p.1 p.2).flatten ((c.descend i p.1 p.2).flatIndex 0)
            (flattenSequence p.2) :=
      fun p hp => preorderFrom_flatten rfl fun e he j hj => ih p hp e he _ j hj
    by_cases hs : o.shape = .transparent
    · obtain ⟨g, b, rfl⟩ := Op.eq_scope hs
      have hb := hregion (.body, b) (Op.body_mem_regions g b)
      simp only [Context.flatten_descend_scope ho, Context.flatIndex_descend_scope ho,
        List.take_zero, flattenSequence, List.length_nil, Nat.add_zero] at hb
      by_cases hempty : b = []
      · subst hempty
        rfl
      · rw [Op.flatten_scope hempty, preorderOf_eq, List.filter_cons_of_neg]
        · simpa [Op.regions] using hb
        · simpa [Located.isKept, Op.isKept] using hempty
    · have hk : o.isKept = true := Op.isKept_of_shape hs
      have hkept : Located.isKept ⟨c, i, o⟩ = true := hk
      have hmap : ∀ p ∈ o.regions,
          (((c.descend i p.1 p.2).preorder).filter Located.isKept).map Located.image =
            (c.flatten.descend (c.flatIndex i) p.1 (flattenSequence p.2)).preorder := by
        intro p hp
        rw [hregion p hp, Context.flatten_descend ho hs, Context.flatIndex_descend ho hs]
        rfl
      rw [preorderOf_eq, List.filter_cons_of_pos hkept, List.map_cons, List.filter_flatMap,
        List.map_flatMap, List.flatMap_congr hmap, Op.flatten_of_isKept hk, preorderFrom,
        preorderOf_eq, Op.image_regions hs, List.flatMap_map, preorderFrom, List.append_nil]
      rfl

theorem Program.map_image_operations (p : Program d) (h : Home) :
    ((p.operations h).filter Located.isKept).map Located.image = p.flatten.operations h := by
  rw [operations_eq, operations_eq]
  exact preorderFrom_flatten (c := p.context h) rfl fun e _ j hj => preorderOf_flatten e _ j hj

theorem sequenceEscapes_flattenSequence {s : Sequence d}
    (hs : ∀ e ∈ s, sequenceEscapes e.flatten = e.escapes) :
    sequenceEscapes (flattenSequence s) = sequenceEscapes s := by
  induction s with
  | nil => rfl
  | cons o s ih =>
    rw [List.forall_mem_cons] at hs
    rw [flattenSequence, sequenceEscapes_append, hs.1, ih hs.2, sequenceEscapes]

theorem Op.escapes_flatten (o : Op d) : sequenceEscapes o.flatten = o.escapes := by
  induction o using Op.region_induction with
  | step o ih =>
    have hregion : ∀ p ∈ o.regions, sequenceEscapes (flattenSequence p.2) = sequenceEscapes p.2 :=
      fun p hp => sequenceEscapes_flattenSequence (ih p hp)
    cases o with
    | scope g b =>
      have hb := hregion (.body, b) (Op.body_mem_regions g b)
      by_cases hempty : b = []
      · subst hempty
        rfl
      · rw [Op.flatten_scope hempty, hb, Op.escapes]
    | conditional c t e =>
      have ht := hregion (.thenArm, t) (by simp [Op.regions])
      have he := hregion (.elseArm, e) (by simp [Op.regions])
      simp only at ht he
      simp [Op.flatten, Op.escapes, sequenceEscapes, ht, he]
    | _ => rfl

theorem Op.escapes_image {o : Op d} (hk : o.isKept = true) : o.image.escapes = o.escapes := by
  rw [← o.escapes_flatten, Op.flatten_of_isKept hk]
  simp [sequenceEscapes]

theorem EscapeSummary.add_image {l : Located d} (s : EscapeSummary) (hk : l.isKept = true) :
    s.add l.image = s.add l := by
  obtain ⟨c, i, o⟩ := l
  cases o with
  | whileLoop e b =>
    have hb : sequenceEscapes (flattenSequence b) = sequenceEscapes b :=
      sequenceEscapes_flattenSequence fun e _ => e.escapes_flatten
    simp [add, Located.image, Op.image, hb]
  | _ => rfl

theorem EscapeSummary.foldl_filter (ls : List (Located d)) (s : EscapeSummary) :
    ((ls.filter Located.isKept).map Located.image).foldl add s = ls.foldl add s := by
  induction ls generalizing s with
  | nil => rfl
  | cons l ls ih =>
    cases hk : l.isKept with
    | true => rw [List.filter_cons_of_pos hk, List.map_cons, List.foldl_cons, List.foldl_cons,
        add_image s hk, ih]
    | false =>
      have hadd : s.add l = s := by
        obtain ⟨c, i, o⟩ := l
        cases o <;> simp_all [Located.isKept, Op.isKept, add]
      rw [List.filter_cons_of_neg (by simp [hk]), List.foldl_cons, hadd, ih]

theorem Program.summarize_flatten (p : Program d) : p.flatten.summarize = p.summarize := by
  have hescapes : p.flatten.escapes = p.escapes :=
    sequenceEscapes_flattenSequence fun e _ => e.escapes_flatten
  rw [summarize, ← map_image_operations, EscapeSummary.foldl_filter, hescapes, summarize]

end RegionFlow

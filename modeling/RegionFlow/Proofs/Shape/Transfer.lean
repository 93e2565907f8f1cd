import RegionFlow.Proofs.Shape.Likeness
set_option autoImplicit false

namespace RegionFlow

variable {d d' : Dialect}

structure Located.Alike (l : Located d) (m : Located d') : Prop where
  context : l.context.Alike m.context
  index : l.index = m.index
  op : l.op.alike m.op

theorem Located.Alike.depth_eq {l : Located d} {m : Located d'} (h : l.Alike m) :
    l.depth = m.depth := h.context.depth_eq

theorem preorderFrom_alike {c : Context d} {c' : Context d'} {i : Nat} {s : List (Op d)}
    {t : List (Op d')} (hs : c.ops.drop i = s) (ht : c'.ops.drop i = t) (hst : sequenceAlike s t)
    (ho : ∀ a ∈ s, ∀ (b : Op d') (j : Nat), c.ops[j]? = some a → c'.ops[j]? = some b →
      a.alike b → List.Forall₂ Located.Alike (preorderOf c j a) (preorderOf c' j b)) :
    List.Forall₂ Located.Alike (preorderFrom c i s) (preorderFrom c' i t) := by
  rw [sequenceAlike_iff] at hst
  induction hst generalizing i with
  | nil => exact .nil
  | @cons a b s t hab _ ih =>
    rw [List.forall_mem_cons] at ho
    obtain ⟨ha, hs⟩ := getElem?_of_drop hs
    obtain ⟨hb, ht⟩ := getElem?_of_drop ht
    exact List.rel_append (ho.1 b i ha hb hab) (ih hs ht ho.2)

theorem preorderOf_alike (a : Op d) : ∀ (b : Op d') (c : Context d) (c' : Context d') (i : Nat),
    c.Alike c' → c.ops[i]? = some a → c'.ops[i]? = some b → a.alike b →
      List.Forall₂ Located.Alike (preorderOf c i a) (preorderOf c' i b) := by
  induction a using Op.region_induction with
  | step a ih =>
    intro b c c' i hc ha hb hab
    have hregions := (List.forall₂_and_left _ _).mpr ⟨fun p hp => hp, (Op.alike_iff.mp hab).2⟩
    rw [preorderOf_eq, preorderOf_eq]
    refine .cons ⟨hc, rfl, hab⟩ (List.rel_flatMap hregions ?_)
    rintro ⟨r, s⟩ ⟨_, t⟩ ⟨hp, rfl, hst⟩
    have hin : (c.descend i r s).Alike (c'.descend i r t) := .region hc ha hb hab hst
    exact preorderFrom_alike rfl rfl hst fun e he e' j => ih _ hp e he e' _ _ j hin

namespace Program

variable {p : Program d} {q : Program d'}

theorem operations_alike (hpq : p.alike q) (h : Home) :
    List.Forall₂ Located.Alike (p.operations h) (q.operations h) := by
  have hc : (p.context h).Alike (q.context h) := .root rfl hpq
  rw [operations_eq, operations_eq]
  exact preorderFrom_alike rfl rfl hpq fun e _ e' j => preorderOf_alike e e' _ _ j hc

theorem map_eq_of_alike {α : Type} {f : Located d → α} {g : Located d' → α} (hpq : p.alike q)
    (h : Home) (hfg : ∀ l m, l.Alike m → f l = g m) :
    (p.operations h).map f = (q.operations h).map g := by
  rw [← List.forall₂_eq_eq_eq, List.forall₂_map_left_iff, List.forall₂_map_right_iff]
  exact (operations_alike hpq h).imp hfg

theorem countP_eq_of_alike {f : Op d → Bool} {g : Op d' → Bool} (hpq : p.alike q) (h : Home)
    (hfg : ∀ a b, a.alike b → f a = g b) :
    (p.operations h).countP (fun l => f l.op) = (q.operations h).countP fun m => g m.op := by
  have hmap := map_eq_of_alike hpq h (f := fun l => f l.op) (g := fun m => g m.op)
    fun l m hlm => hfg _ _ hlm.op
  have hcount := congrArg (List.countP id) hmap
  rw [List.countP_map, List.countP_map] at hcount
  exact hcount

theorem escapes_eq_of_alike (hpq : p.alike q) : p.escapes = q.escapes :=
  sequenceEscapes_eq_of_alike hpq fun a _ => a.escapes_eq_of_alike

theorem summarize_eq_of_alike (hpq : p.alike q) : p.summarize = q.summarize := by
  rw [summarize_eq, summarize_eq, escapes_eq_of_alike hpq,
    countP_eq_of_alike hpq .main fun a b => Op.isLoop_eq_of_alike,
    countP_eq_of_alike hpq .main fun a b => Op.absorbs_eq_of_alike]

theorem validate_eq_of_alike (hpq : p.alike q) (s : Config.Settings) :
    p.validate s = q.validate s := by
  have hnesting : p.nesting = q.nesting := by
    rw [nesting, nesting, ← p.map_depth_operations .main, ← q.map_depth_operations .main,
      map_eq_of_alike hpq .main fun l m hlm => hlm.depth_eq]
  have hcount : countSequence p.body = countSequence q.body := by
    rw [← p.length_operations .main, ← q.length_operations .main]
    exact (operations_alike hpq .main).length_eq
  rw [validate_eq, validate_eq, hnesting, hcount, summarize_eq_of_alike hpq,
    escapes_eq_of_alike hpq]

end Program

mutual

def Op.toImp : Op .core → Op .imp
  | .conditional c t e => .conditional c (sequenceToImp t) (sequenceToImp e)
  | .whileLoop c b => .whileLoop c (sequenceToImp b)
  | .skip => .skip
  | .assign x e => .assign x e
  | .breakLoop => .breakLoop
  | .terminate => .terminate
  | .scope g _ => absurd g (by decide)

def sequenceToImp : List (Op .core) → List (Op .imp)
  | [] => []
  | o :: rest => o.toImp :: sequenceToImp rest

end

def Program.toImp (p : Program .core) : Program .imp := ⟨sequenceToImp p.body⟩

theorem sequenceToImp_eq_map (s : Sequence .core) : sequenceToImp s = s.map Op.toImp := by
  induction s with
  | nil => rfl
  | cons o s ih => rw [sequenceToImp, ih, List.map_cons]

theorem sequence_alike_toImp {s : Sequence .core} (hs : ∀ o ∈ s, o.alike o.toImp) :
    sequenceAlike s (sequenceToImp s) := by
  rw [sequenceAlike_iff, sequenceToImp_eq_map, List.forall₂_map_right_iff, List.forall₂_same]
  exact hs

theorem Op.alike_toImp (o : Op .core) : o.alike o.toImp := by
  induction o using Op.region_induction with
  | step o ih =>
    have hregion : ∀ p ∈ o.regions, sequenceAlike p.2 (sequenceToImp p.2) :=
      fun p hp => sequence_alike_toImp (ih p hp)
    cases o with
    | conditional c t e =>
      have ht := hregion (.thenArm, t) (by simp [regions])
      have he := hregion (.elseArm, e) (by simp [regions])
      simpa [toImp, alike] using ⟨ht, he⟩
    | whileLoop c b => exact hregion (.body, b) (by simp [regions])
    | scope g b => exact absurd g (by decide)
    | _ => rfl

theorem Program.alike_toImp (p : Program .core) : p.alike p.toImp :=
  sequence_alike_toImp fun o _ => o.alike_toImp

theorem sequenceLines_toImp {s : Sequence .core} (hs : ∀ o ∈ s, ∀ n, o.toImp.lines n = o.lines n)
    (n : Nat) : sequenceLines n (sequenceToImp s) = sequenceLines n s := by
  induction s with
  | nil => rfl
  | cons o s ih =>
    rw [List.forall_mem_cons] at hs
    rw [sequenceToImp, sequenceLines, sequenceLines, hs.1, ih hs.2]

theorem Op.lines_toImp (o : Op .core) : ∀ n, o.toImp.lines n = o.lines n := by
  induction o using Op.region_induction with
  | step o ih =>
    intro n
    have hregion : ∀ p ∈ o.regions,
        sequenceLines (n + 1) (sequenceToImp p.2) = sequenceLines (n + 1) p.2 :=
      fun p hp => sequenceLines_toImp (ih p hp) (n + 1)
    cases o with
    | conditional c t e =>
      have ht := hregion (.thenArm, t) (by simp [regions])
      have he := hregion (.elseArm, e) (by simp [regions])
      have hempty : (sequenceToImp e).isEmpty = e.isEmpty := by simp [sequenceToImp_eq_map]
      rw [toImp, lines, lines, ht, he, hempty]
      rfl
    | whileLoop c b =>
      have hb := hregion (.body, b) (by simp [regions])
      rw [toImp, lines, lines, hb]
      rfl
    | scope g b => exact absurd g (by decide)
    | _ => rfl

theorem Program.text_toImp (p : Program .core) : p.toImp.text = p.text := by
  rw [text, text, sequenceText, sequenceText]
  exact congrArg _ (congrArg _ (sequenceLines_toImp (fun o _ => o.lines_toImp) 0))

/-- Two operations have one shape and one place, and every query about them has one answer. -/
structure Located.AnswersAs (l : Located d) (m : Located d') : Prop where
  shape : l.op.shape = m.op.shape
  path : l.context.path = m.context.path
  index : l.index = m.index
  depth : l.depth = m.depth
  entry : l.entry = m.entry
  exit? : l.exit? = m.exit?
  breakTarget? : l.context.breakTarget? = m.context.breakTarget?
  loopHeader? : l.context.loopHeader? = m.context.loopHeader?
  escapes : l.op.escapes = m.op.escapes

theorem Located.Alike.answersAs {l : Located d} {m : Located d'} (h : l.Alike m) :
    l.AnswersAs m where
  shape := Op.shape_eq_of_alike h.op
  path := h.context.path_eq
  index := h.index
  depth := h.depth_eq
  entry := by
    rw [entry, entry, placed, placed, PlacedOp.entry, PlacedOp.entry, h.context.path_eq, h.index]
    exact entryOf_eq_of_alike _ _ _ h.op
  exit? := by
    rw [exit?, exit?, Op.fallsThrough_eq_of_alike h.op, h.context.successor_eq, h.index]
  breakTarget? := by rw [h.context.loop_eq.1, Option.map_id, id]
  loopHeader? := by rw [h.context.loop_eq.2, Option.map_id, id]
  escapes := Op.escapes_eq_of_alike _ _ h.op

/-- Only the shape of a program matters, in whatever dialect it is written.  Walks over programs of
one shape are equally long and go through the same places, with the same answer to every query at
each of them, and a validation has the same report or the same error.  A program of the core dialect
with its breaks replaced by those of the imp dialect keeps its shape and its text. -/
theorem Program.shape_decides :
    (∀ {d d' : Dialect} (p : Program d) (q : Program d'), p.alike q → ∀ h,
      List.Forall₂ Located.AnswersAs (p.operations h) (q.operations h) ∧
      ∀ s, p.validate s = q.validate s) ∧
    ∀ p : Program .core, p.alike p.toImp ∧ p.toImp.text = p.text := by
  refine ⟨?_, fun p => ⟨p.alike_toImp, p.text_toImp⟩⟩
  intro d d' p q hpq h
  exact ⟨(operations_alike hpq h).imp fun l m hlm => hlm.answersAs, validate_eq_of_alike hpq⟩

/-- A loop of the core dialect and one of the imp dialect with other expressions, and with an
assignment in the place of a skip. -/
theorem Program.shape_decides_loops :
    let p : Program .core := ⟨[.whileLoop (.constant (.bool true))
      [.conditional (.constant (.bool true)) [] [.breakLoop], .skip], .terminate]⟩
    let q : Program .imp := ⟨[.whileLoop (.read ⟨"x"⟩)
      [.conditional (.constant (.bool false)) [] [.breakLoop],
        .assign ⟨"x"⟩ (.constant (.bool false))], .terminate]⟩
    p.alike q = true ∧ List.Forall₂ Located.AnswersAs (p.operations .main) (q.operations .main) ∧
    ∀ s, p.validate s = q.validate s := by
  intro p q
  have hpq : p.alike q = true := rfl
  exact ⟨hpq, shape_decides.1 p q hpq .main⟩

end RegionFlow

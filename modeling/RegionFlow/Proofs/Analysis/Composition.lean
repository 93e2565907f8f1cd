import Mathlib.Data.Nat.Basic
import Mathlib.Order.Basic
import RegionFlow.Proofs.Analysis.Verdict
set_option autoImplicit false

namespace RegionFlow

variable {d : Dialect}

theorem preorderFrom_relocated {c c' : Context d} {i j k : Nat} {s : Sequence d}
    (hs : ∀ e ∈ s, ∀ i j, (preorderOf c' j e).map (fun l => (l.depth, l.op)) =
      (preorderOf c i e).map fun l => (l.depth + k, l.op)) :
    (preorderFrom c' j s).map (fun l => (l.depth, l.op)) =
      (preorderFrom c i s).map fun l => (l.depth + k, l.op) := by
  induction s generalizing i j with
  | nil => rfl
  | cons o s ih =>
    rw [List.forall_mem_cons] at hs
    rw [preorderFrom, preorderFrom, List.map_append, List.map_append, hs.1 i j, ih hs.2]

/-- In a context that lies some levels deeper, a walk hands out the same operations, each as many
levels deeper. -/
theorem preorderOf_relocated {k : Nat} (o : Op d) : ∀ (c c' : Context d) (i j : Nat),
    c'.depth = c.depth + k → (preorderOf c' j o).map (fun l => (l.depth, l.op)) =
      (preorderOf c i o).map fun l => (l.depth + k, l.op) := by
  induction o using Op.region_induction with
  | step o ih =>
    intro c c' i j hk
    have hregion : ∀ p ∈ o.regions,
        (c'.descend j p.1 p.2).preorder.map (fun l => (l.depth, l.op)) =
          (c.descend i p.1 p.2).preorder.map fun l => (l.depth + k, l.op) := by
      intro p hp
      refine preorderFrom_relocated fun e he i' j' => ih p hp e he _ _ i' j' ?_
      rw [Context.depth_descend, Context.depth_descend, hk]
      omega
    rw [preorderOf_eq, preorderOf_eq, List.map_cons, List.map_cons, List.map_flatMap,
      List.map_flatMap, List.flatMap_congr hregion]
    simp only [Located.depth, hk]

namespace Program

theorem map_preorderFrom (c : Context d) (i : Nat) (s : Sequence d) :
    (preorderFrom c i s).map (fun l => (l.depth, l.op)) =
      ((Program.mk s).operations .main).map fun l => (l.depth + c.depth, l.op) := by
  rw [operations_eq]
  refine preorderFrom_relocated fun e _ i j => preorderOf_relocated e _ c i j ?_
  exact (Nat.zero_add _).symm

theorem countP_preorderFrom (c : Context d) (i : Nat) (s : Sequence d) (q : Op d → Bool) :
    (preorderFrom c i s).countP (fun l => q l.op) =
      ((Program.mk s).operations .main).countP fun l => q l.op := by
  have hcount := congrArg (List.countP fun x => q x.2) (map_preorderFrom c i s)
  rw [List.countP_map, List.countP_map] at hcount
  exact hcount

theorem depths_preorderFrom {c : Context d} {i n : Nat} {s : Sequence d} :
    (∀ l ∈ preorderFrom c i s, l.depth ≤ n + c.depth) ↔ (Program.mk s).nesting ≤ n := by
  have hmap := congrArg (List.map Prod.fst) (map_preorderFrom c i s)
  rw [List.map_map, List.map_map] at hmap
  have hall : (∀ l ∈ preorderFrom c i s, l.depth ≤ n + c.depth) ↔
      ∀ k ∈ (preorderFrom c i s).map (Prod.fst ∘ fun l => (l.depth, l.op)),
        k ≤ n + c.depth := by simp
  rw [hall, hmap, nesting_le_iff .main]
  simp

/-- The depth that a region gives to the program around its owner: a region without elements has no
operation that counts. -/
def innerNesting (s : Sequence d) : Nat := if s.isEmpty then 0 else 1 + (Program.mk s).nesting

theorem nesting_append (s t : Sequence d) :
    (Program.mk (s ++ t)).nesting = max (Program.mk s).nesting (Program.mk t).nesting := by
  apply eq_of_forall_ge_iff
  intro n
  let c := (Program.mk s).context .main
  have hs := depths_preorderFrom (c := c) (i := 0) (n := n) (s := s)
  have ht := depths_preorderFrom (c := c) (i := 0 + s.length) (n := n) (s := t)
  have happend := depths_preorderFrom (c := c) (i := 0) (n := n) (s := s ++ t)
  rw [Nat.max_le, ← hs, ← ht, ← happend, preorderFrom_append, List.forall_mem_append]

theorem innerNesting_le_iff {c : Context d} {i n : Nat} {r : Region} {s : Sequence d} :
    (∀ l ∈ (c.descend i r s).preorder, l.depth ≤ n + c.depth) ↔ innerNesting s ≤ n := by
  cases s with
  | nil => simp [Context.preorder, preorderFrom, innerNesting]
  | cons o rest =>
    rw [innerNesting, List.isEmpty_cons, if_neg Bool.false_ne_true]
    cases n with
    | zero =>
      -- The first element is already deeper than that.
      have hfirst : (⟨c.descend i r (o :: rest), 0, o⟩ : Located d) ∈
          (c.descend i r (o :: rest)).preorder := Context.mem_preorder_iff.mpr ⟨.here, rfl⟩
      constructor
      · intro hall
        have := hall _ hfirst
        simp only [Located.depth, Context.depth_descend] at this
        omega
      · intro hle
        omega
    | succ n =>
      have hdepth : n + 1 + c.depth = n + (c.descend i r (o :: rest)).depth := by
        rw [Context.depth_descend]
        omega
      rw [hdepth, Context.preorder, Context.ops_descend, depths_preorderFrom]
      omega

theorem nesting_single_le_iff {o : Op d} {n : Nat} :
    (Program.mk [o]).nesting ≤ n ↔ ∀ p ∈ o.regions, innerNesting p.2 ≤ n := by
  let c := (Program.mk [o]).context .main
  have hregion : ∀ p : Region × Sequence d,
      (∀ l ∈ (c.descend 0 p.1 p.2).preorder, l.depth ≤ n + c.depth) ↔ innerNesting p.2 ≤ n :=
    fun p => innerNesting_le_iff
  rw [← depths_preorderFrom (c := c) (i := 0), preorderFrom, preorderFrom, List.append_nil,
    preorderOf_eq, List.forall_mem_cons, List.forall_mem_flatMap]
  simp only [hregion]
  exact and_iff_right (Nat.zero_le _)

theorem nesting_conditional (c : Expression) (t e : Sequence d) :
    (Program.mk [.conditional c t e]).nesting = max (innerNesting t) (innerNesting e) := by
  apply eq_of_forall_ge_iff
  intro n
  rw [nesting_single_le_iff, Nat.max_le]
  simp [Op.regions]

theorem nesting_of_region {o : Op d} {r : Region} {s : Sequence d} (hr : o.regions = [(r, s)]) :
    (Program.mk [o]).nesting = innerNesting s := by
  apply eq_of_forall_ge_iff
  intro n
  rw [nesting_single_le_iff, hr, List.forall_mem_singleton]

theorem countP_append (s t : Sequence d) (q : Op d → Bool) :
    ((Program.mk (s ++ t)).operations .main).countP (fun l => q l.op) =
      ((Program.mk s).operations .main).countP (fun l => q l.op) +
        ((Program.mk t).operations .main).countP fun l => q l.op := by
  rw [operations_eq, Context.preorder, ops_context, preorderFrom_append, List.countP_append,
    countP_preorderFrom, countP_preorderFrom]

theorem countP_single (o : Op d) (q : Op d → Bool) :
    ((Program.mk [o]).operations .main).countP (fun l => q l.op) =
      (o.regions.flatMap fun p => (Program.mk p.2).operations .main).countP (fun l => q l.op) +
        if q o then 1 else 0 := by
  have hregions : ∀ p ∈ o.regions,
      (((Program.mk [o]).context .main).descend 0 p.1 p.2).preorder.countP (fun l => q l.op) =
        ((Program.mk p.2).operations .main).countP fun l => q l.op :=
    fun p _ => countP_preorderFrom _ 0 p.2 q
  rw [operations_eq, Context.preorder, ops_context, preorderFrom, preorderFrom, List.append_nil,
    preorderOf_eq, List.countP_cons, List.countP_flatMap, List.countP_flatMap]
  exact congrArg (· + _) (congrArg List.sum (List.map_congr_left hregions))

theorem countP_of_region {o : Op d} {r : Region} {s : Sequence d} (hr : o.regions = [(r, s)])
    (q : Op d → Bool) : ((Program.mk [o]).operations .main).countP (fun l => q l.op) =
      ((Program.mk s).operations .main).countP (fun l => q l.op) + if q o then 1 else 0 := by
  rw [countP_single, hr, List.flatMap_singleton]

end Program

def EscapeSummary.append (a b : EscapeSummary) : EscapeSummary where
  escapes := a.escapes || b.escapes
  loops := a.loops + b.loops
  absorbingLoops := a.absorbingLoops + b.absorbingLoops

namespace Report

def append (a b : Report) : Report where
  operations := a.operations + b.operations
  maxDepth := max a.maxDepth b.maxDepth
  escape := a.escape.append b.escape

def depthBelow (s : Sequence d) (a : Report) : Nat := if s.isEmpty then 0 else 1 + a.maxDepth

def conditional (t e : Sequence d) (a b : Report) : Report where
  operations := 1 + a.operations + b.operations
  maxDepth := max (a.depthBelow t) (b.depthBelow e)
  escape := a.escape.append b.escape

/-- The report on a loop with a given body, whose breaks the loop absorbs. -/
def whileLoop (s : Sequence d) (a : Report) : Report where
  operations := 1 + a.operations
  maxDepth := a.depthBelow s
  escape :=
    { escapes := false
      loops := 1 + a.escape.loops
      absorbingLoops := a.escape.absorbingLoops + if a.escape.escapes then 1 else 0 }

def scope (s : Sequence d) (a : Report) : Report where
  operations := 1 + a.operations
  maxDepth := a.depthBelow s
  escape := a.escape

def ofBody (s : Sequence d) : Report :=
  ⟨countSequence s, (Program.mk s).nesting, (Program.mk s).summarize⟩

theorem ofBody_append (s t : Sequence d) : ofBody (s ++ t) = (ofBody s).append (ofBody t) := by
  simp only [ofBody, append, countSequence_append, Program.nesting_append, Program.summarize_eq,
    Program.countP_append, EscapeSummary.append, Program.escapes, sequenceEscapes_append]

theorem ofBody_conditional (c : Expression) (t e : Sequence d) :
    ofBody [.conditional c t e] = conditional t e (ofBody t) (ofBody e) := by
  have hcount : ∀ q : Op d → Bool, q (.conditional c t e) = false →
      ((Program.mk [Op.conditional c t e]).operations .main).countP (fun l => q l.op) =
        ((Program.mk t).operations .main).countP (fun l => q l.op) +
          ((Program.mk e).operations .main).countP fun l => q l.op := by
    intro q hq
    rw [Program.countP_single, hq]
    simp [Op.regions]
  have hescapes : (Program.mk [Op.conditional c t e]).escapes =
      (sequenceEscapes t || sequenceEscapes e) := Bool.or_false _
  rw [ofBody, Program.nesting_conditional, Program.summarize_eq, hcount _ rfl, hcount _ rfl,
    hescapes]
  simp only [conditional, ofBody, EscapeSummary.append, Program.summarize_eq, countSequence,
    Op.count, Nat.add_zero]
  rfl

theorem ofBody_whileLoop (c : Expression) (s : Sequence d) :
    ofBody [.whileLoop c s] = whileLoop s (ofBody s) := by
  have habsorbs : (Op.whileLoop c s).absorbs = sequenceEscapes s := rfl
  rw [ofBody, Program.nesting_of_region rfl, Program.summarize_eq, Program.countP_of_region rfl,
    Program.countP_of_region rfl, habsorbs]
  simp only [whileLoop, ofBody, Program.summarize_eq, countSequence, Op.count, Nat.add_zero,
    Nat.add_comm 1]
  rfl

theorem ofBody_scope (g : d.hasScopes = true) (s : Sequence d) :
    ofBody [.scope g s] = scope s (ofBody s) := by
  have hescapes : (Program.mk [Op.scope g s]).escapes = sequenceEscapes s := Bool.or_false _
  rw [ofBody, Program.nesting_of_region rfl, Program.summarize_eq, Program.countP_of_region rfl,
    Program.countP_of_region rfl, hescapes]
  simp only [scope, ofBody, Program.summarize_eq, countSequence, Op.count, Nat.add_zero]
  rfl

theorem maxDepth_le_depthBelow (s : Sequence d) :
    (ofBody s).maxDepth ≤ (ofBody s).depthBelow s := by
  cases s with
  | nil => exact Nat.le_refl _
  | cons o s =>
    rw [depthBelow, List.isEmpty_cons, if_neg Bool.false_ne_true]
    exact Nat.le_add_left _ _

end Report

namespace Program

def Fits (p : Program d) (s : Config.Settings) : Prop :=
  ∀ l ∈ p.operations .main, l.depth ≤ s.maxNestingDepth.toNat

variable {s : Config.Settings}

/-- Where stray breaks are allowed, only the depth of a program matters. -/
theorem validate_eq_ofBody {b : Sequence d} (hs : s.allowStrayBreak = true)
    (hb : (Report.ofBody b).maxDepth ≤ s.maxNestingDepth.toNat) :
    (Program.mk b).validate s = .ok (Report.ofBody b) := by
  have hle : ¬ s.maxNestingDepth.toNat < (Program.mk b).nesting := Nat.not_lt.mpr hb
  rw [validate_eq, if_neg hle, if_neg (by simp [hs])]
  rfl

theorem eq_ofBody_of_validate {p : Program d} {r : Report} (hr : p.validate s = .ok r) :
    r = Report.ofBody p.body := by
  rw [validate_eq] at hr
  split at hr
  · simp at hr
  · split at hr
    · simp at hr
    · exact (Except.ok.inj hr).symm

theorem Fits.maxDepth_le {b : Sequence d} (h : (Program.mk b).Fits s) :
    (Report.ofBody b).maxDepth ≤ s.maxNestingDepth.toNat := (nesting_le_iff .main).mpr h

/-- Reports compose, where stray breaks are allowed and nothing is too deep.  The report on a body
followed by another is made of the reports on the two: the counts add, the depth is the greater one,
and the whole escapes if one of them does.  The report on a conditional, a loop or a scope is made
of the reports on its regions: one more operation; a depth greater by one, but for regions without
operations; and the escapes of the regions, which a loop absorbs and counts. -/
theorem reports_compose (hs : s.allowStrayBreak = true) (x y : Sequence d) (c : Expression) :
    ((Program.mk (x ++ y)).Fits s → ∃ a b,
      (Program.mk x).validate s = .ok a ∧ (Program.mk y).validate s = .ok b ∧
      (Program.mk (x ++ y)).validate s = .ok (a.append b)) ∧
    ((Program.mk [.conditional c x y]).Fits s → ∃ a b,
      (Program.mk x).validate s = .ok a ∧ (Program.mk y).validate s = .ok b ∧
      (Program.mk [.conditional c x y]).validate s = .ok (.conditional x y a b)) ∧
    ((Program.mk [.whileLoop c x]).Fits s → ∃ a,
      (Program.mk x).validate s = .ok a ∧
      (Program.mk [.whileLoop c x]).validate s = .ok (.whileLoop x a)) ∧
    ∀ g : d.hasScopes = true, (Program.mk [.scope g x]).Fits s → ∃ a,
      (Program.mk x).validate s = .ok a ∧
      (Program.mk [.scope g x]).validate s = .ok (.scope x a) := by
  have hx := Report.maxDepth_le_depthBelow x
  have hy := Report.maxDepth_le_depthBelow y
  refine ⟨?_, ?_, ?_, ?_⟩
  · intro hfits
    have hdepth := hfits.maxDepth_le
    have hwhole := validate_eq_ofBody hs hdepth
    rw [Report.ofBody_append] at hdepth hwhole
    obtain ⟨hleft, hright⟩ := Nat.max_le.mp hdepth
    exact ⟨_, _, validate_eq_ofBody hs hleft, validate_eq_ofBody hs hright, hwhole⟩
  · intro hfits
    have hdepth := hfits.maxDepth_le
    have hwhole := validate_eq_ofBody hs hdepth
    rw [Report.ofBody_conditional] at hdepth hwhole
    obtain ⟨hthen, helse⟩ := Nat.max_le.mp hdepth
    exact ⟨_, _, validate_eq_ofBody hs (hx.trans hthen), validate_eq_ofBody hs (hy.trans helse),
      hwhole⟩
  · intro hfits
    have hdepth := hfits.maxDepth_le
    have hwhole := validate_eq_ofBody hs hdepth
    rw [Report.ofBody_whileLoop] at hdepth hwhole
    exact ⟨_, validate_eq_ofBody hs (hx.trans hdepth), hwhole⟩
  · intro g hfits
    have hdepth := hfits.maxDepth_le
    have hwhole := validate_eq_ofBody hs hdepth
    rw [Report.ofBody_scope] at hdepth hwhole
    exact ⟨_, validate_eq_ofBody hs (hx.trans hdepth), hwhole⟩

/-- A loop that absorbs a break, next to a break in one arm of a conditional, which goes on to the
sequence around it; in an operation around both, they reach the limit. -/
theorem reports_compose_breaks :
    let s : Config.Settings := ⟨2, true⟩
    let c : Expression := .constant (.bool true)
    let x : Sequence .imp := [.whileLoop c [.breakLoop]]
    let y : Sequence .imp := [.conditional c [] [.breakLoop]]
    s.allowStrayBreak = true ∧ (Program.mk (x ++ y)).Fits s ∧
    (Program.mk [.conditional c x y]).Fits s ∧ (Program.mk [.whileLoop c y]).Fits s ∧
    (Program.mk [.scope rfl x]).Fits s ∧
    (∃ a b, (Program.mk x).validate s = .ok a ∧ (Program.mk y).validate s = .ok b ∧
      (Program.mk (x ++ y)).validate s = .ok (a.append b) ∧
      (Program.mk [.conditional c x y]).validate s = .ok (.conditional x y a b)) ∧
    (∃ b, (Program.mk y).validate s = .ok b ∧
      (Program.mk [.whileLoop c y]).validate s = .ok (.whileLoop y b)) ∧
    ∃ a, (Program.mk x).validate s = .ok a ∧
      (Program.mk [.scope rfl x]).validate s = .ok (.scope x a) := by
  intro s c x y
  have hs : s.allowStrayBreak = true := rfl
  have fits : ∀ p : Program .imp, p.nesting ≤ 2 → p.Fits s := fun p => (nesting_le_iff .main).mp
  have happend := fits ⟨x ++ y⟩ (by decide)
  have hconditional := fits ⟨[.conditional c x y]⟩ (by decide)
  have hloop := fits ⟨[.whileLoop c y]⟩ (by decide)
  have hscope := fits ⟨[.scope rfl x]⟩ (by decide)
  obtain ⟨a, b, ha, hb, hab⟩ := (reports_compose hs x y c).1 happend
  obtain ⟨a', b', ha', hb', hab'⟩ := (reports_compose hs x y c).2.1 hconditional
  rw [ha] at ha'
  rw [hb] at hb'
  obtain rfl := Except.ok.inj ha'
  obtain rfl := Except.ok.inj hb'
  exact ⟨hs, happend, hconditional, hloop, hscope, ⟨a, b, ha, hb, hab, hab'⟩,
    (reports_compose hs y x c).2.2.1 hloop, (reports_compose hs x y c).2.2.2 rfl hscope⟩

end Program

end RegionFlow

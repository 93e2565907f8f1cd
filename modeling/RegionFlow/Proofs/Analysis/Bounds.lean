import RegionFlow.Proofs.Analysis.Composition
set_option autoImplicit false

namespace RegionFlow

variable {d : Dialect}

namespace Program

variable {p : Program d} {h : Home} {c : Context d} {s : Config.Settings}

theorem exists_operation_at (hc : p.Navigates h c) (hne : c.ops ≠ []) :
    ∃ l ∈ p.operations h, l.context = c := by
  obtain ⟨o, rest, hops⟩ := List.exists_cons_of_ne_nil hne
  have ho : c.ops[0]? = some o := by rw [hops, List.getElem?_cons_zero]
  exact ⟨⟨c, 0, o⟩, mem_operations.mpr ⟨below_of_navigates hc, ho⟩, rfl⟩

theorem ops_ne_nil_of_mem {l : Located d} (hl : l ∈ p.operations h) : l.context.ops ≠ [] := by
  intro hnil
  have ho := (mem_operations.mp hl).2
  rw [hnil] at ho
  simp at ho

theorem depth_le_nesting_of_ne_nil (hc : p.Navigates h c) (hne : c.ops ≠ []) :
    c.depth ≤ p.nesting := by
  obtain ⟨l, hl, rfl⟩ := exists_operation_at hc hne
  exact depth_le_nesting hl

/-- The regions with an element determine the depth of a program. -/
theorem lt_nesting_iff {n : Nat} (h : Home) :
    n < p.nesting ↔ ∃ c, p.Navigates h c ∧ c.ops ≠ [] ∧ n < c.depth := by
  constructor
  · intro hlt
    obtain ⟨l, hl, hdepth⟩ := exists_depth_eq_nesting h (Nat.ne_zero_of_lt hlt)
    refine ⟨l.context, navigates_iff_below.mpr (mem_operations.mp hl).1, ops_ne_nil_of_mem hl, ?_⟩
    rw [← hdepth] at hlt
    exact hlt
  · rintro ⟨c, hc, hne, hlt⟩
    exact Nat.lt_of_lt_of_le hlt (depth_le_nesting_of_ne_nil hc hne)

/-- No region lies deeper than one level below the deepest operation: its owner is an operation. -/
theorem depth_le_succ_nesting (hc : p.Navigates h c) : c.depth ≤ p.nesting + 1 := by
  cases below_of_navigates hc with
  | here => exact Nat.zero_le _
  | @region c i o r t hin ho _ =>
    have hl : (⟨c, i, o⟩ : Located d) ∈ p.operations h := mem_operations.mpr ⟨hin, ho⟩
    exact Nat.succ_le_succ (depth_le_nesting hl)

theorem validate_tooDeep_iff :
    (∃ k n, p.validate s = .error (.nestingTooDeep k n)) ↔
      s.maxNestingDepth.toNat < p.nesting := by
  rw [validate_eq]
  constructor
  · rintro ⟨k, n, hv⟩
    by_contra hle
    rw [if_neg hle] at hv
    split at hv
    · simp at hv
    · simp at hv
  · intro hlt
    exact ⟨_, _, if_pos hlt⟩

theorem maxDepth_of_validate {r : Report} (hr : p.validate s = .ok r) :
    r.maxDepth = p.nesting := by
  rw [eq_ofBody_of_validate hr]
  rfl

/-- The limit is one on regions with an element.  A validation refuses a program as too deep exactly
if some such region lies deeper than the limit, and a report gives the depth of the deepest of them,
or 0 for the body.  A region deeper than the limit that is not refused has no element and lies one
level below the limit; and no region of an accepted program lies more than one level below the depth
that is reported, where only regions without an element do. -/
theorem limit_on_filled_regions (p : Program d) (h : Home) (s : Config.Settings) :
    ((∃ k n, p.validate s = .error (.nestingTooDeep k n)) ↔
      ∃ c, p.Navigates h c ∧ c.ops ≠ [] ∧ s.maxNestingDepth.toNat < c.depth) ∧
    ((¬ ∃ k n, p.validate s = .error (.nestingTooDeep k n)) → ∀ c, p.Navigates h c →
      s.maxNestingDepth.toNat < c.depth →
        c.ops = [] ∧ c.depth = s.maxNestingDepth.toNat + 1) ∧
    ∀ r, p.validate s = .ok r →
      (∀ c, p.Navigates h c → c.ops ≠ [] → c.depth ≤ r.maxDepth) ∧
      (∃ c, p.Navigates h c ∧ (c.isRoot = true ∨ c.ops ≠ []) ∧ c.depth = r.maxDepth) ∧
      ∀ c, p.Navigates h c → c.depth ≤ r.maxDepth ∨ c.ops = [] ∧ c.depth = r.maxDepth + 1 := by
  refine ⟨?_, ?_, ?_⟩
  · rw [validate_tooDeep_iff, lt_nesting_iff h]
  · intro hdeep c hc hlt
    rw [validate_tooDeep_iff, Nat.not_lt] at hdeep
    have hle := depth_le_succ_nesting hc
    refine ⟨?_, by omega⟩
    by_contra hne
    have := depth_le_nesting_of_ne_nil hc hne
    omega
  · intro r hr
    rw [maxDepth_of_validate hr]
    refine ⟨fun c hc hne => depth_le_nesting_of_ne_nil hc hne, ?_, ?_⟩
    · by_cases hzero : p.nesting = 0
      · exact ⟨p.context h, .context, .inl rfl, hzero.symm⟩
      · obtain ⟨l, hl, hdepth⟩ := exists_depth_eq_nesting h hzero
        have hc := navigates_iff_below.mpr (mem_operations.mp hl).1
        exact ⟨l.context, hc, .inr (ops_ne_nil_of_mem hl), hdepth⟩
    · intro c hc
      by_cases hne : c.ops = []
      · have := depth_le_succ_nesting hc
        rcases Nat.lt_or_ge p.nesting c.depth with hlt | hle
        · exact .inr ⟨hne, by omega⟩
        · exact .inl hle
      · exact .inl (depth_le_nesting_of_ne_nil hc hne)

theorem validate_scope_in_scope :
    (⟨[.scope rfl [.scope rfl []]]⟩ : Program .imp).validate ⟨1, false⟩ = .ok ⟨2, 1, .empty⟩ := by
  rw [validate_eq, summarize_eq, countP_operations, countP_operations]
  rfl

/-- The body of an empty scope in a scope lies at depth 2, but a limit of 1 does not keep it out:
the program is accepted with depth 1. -/
theorem empty_region_below_limit :
    let p : Program .imp := ⟨[.scope rfl [.scope rfl []]]⟩
    let s : Config.Settings := ⟨1, false⟩
    (∃ c, p.Navigates .main c ∧ c.depth = 2 ∧ s.maxNestingDepth.toNat < c.depth) ∧
    (¬ ∃ k n, p.validate s = .error (.nestingTooDeep k n)) ∧
    p.validate s = .ok ⟨2, 1, .empty⟩ := by
  intro p s
  let outer := (p.context .main).descend 0 .body [.scope rfl []]
  have hc : p.Navigates .main (outer.descend 0 .body []) :=
    navigates_iff_below.mpr
      (.region (.region .here rfl (Op.body_mem_regions rfl _)) rfl (Op.body_mem_regions rfl _))
  have hok : p.validate s = .ok ⟨2, 1, .empty⟩ := validate_scope_in_scope
  refine ⟨⟨_, hc, rfl, by decide⟩, ?_, hok⟩
  rw [hok]
  simp

theorem limit_on_filled_regions_scopes :
    let p : Program .imp := ⟨[.scope rfl [.scope rfl []]]⟩
    let s : Config.Settings := ⟨1, false⟩
    (¬ ∃ k n, p.validate s = .error (.nestingTooDeep k n)) ∧
    (∀ c, p.Navigates .main c → s.maxNestingDepth.toNat < c.depth → c.ops = [] ∧ c.depth = 2) ∧
    p.validate s = .ok ⟨2, 1, .empty⟩ ∧
    ∀ c, p.Navigates .main c → c.depth ≤ 1 ∨ c.ops = [] ∧ c.depth = 2 := by
  intro p s
  have hok : p.validate s = .ok ⟨2, 1, .empty⟩ := validate_scope_in_scope
  have hdeep : ¬ ∃ k n, p.validate s = .error (.nestingTooDeep k n) := by
    rw [hok]
    simp
  obtain ⟨-, hlimit, hreport⟩ := limit_on_filled_regions p .main s
  exact ⟨hdeep, hlimit hdeep, hok, (hreport _ hok).2.2⟩

end Program

namespace Report

structure Consistent (r : Report) : Prop where
  counts : r.escape.loops + r.escape.absorbingLoops + r.escape.escapes.toNat ≤ r.operations
  absorbing_le : r.escape.absorbingLoops ≤ r.escape.loops
  depth : r = .empty ∨ r.maxDepth + 1 ≤ r.operations

theorem empty_append (r : Report) : Report.empty.append r = r := by
  simp [append, empty, EscapeSummary.append, EscapeSummary.empty]

theorem append_empty (r : Report) : r.append .empty = r := by
  simp [append, empty, EscapeSummary.append, EscapeSummary.empty]

theorem ofBody_nil : ofBody ([] : Sequence d) = .empty := by
  rw [ofBody, Program.summarize_eq, Program.countP_operations, Program.countP_operations]
  rfl

theorem ofBody_of_no_region {o : Op d} (ho : o.regions = []) :
    ofBody [o] = ⟨1, 0, ⟨o.escapes, 0, 0⟩⟩ := by
  rw [ofBody, Program.summarize_eq, Program.countP_operations, Program.countP_operations]
  cases o <;> simp [Op.regions] at ho <;> rfl

theorem toNat_or_le (a b : Bool) : (a || b).toNat ≤ a.toNat + b.toNat := by
  cases a <;> cases b <;> decide

theorem Consistent.append {a b : Report} (ha : a.Consistent) (hb : b.Consistent) :
    (a.append b).Consistent := by
  have hcounts := ha.counts
  have hcounts' := hb.counts
  have hescape := toNat_or_le a.escape.escapes b.escape.escapes
  refine ⟨?_, Nat.add_le_add ha.absorbing_le hb.absorbing_le, ?_⟩
  · simp only [Report.append, EscapeSummary.append]
    omega
  · rcases ha.depth with rfl | hdepth
    · rw [empty_append]
      exact hb.depth
    · rcases hb.depth with rfl | hdepth'
      · rw [append_empty]
        exact ha.depth
      · simp only [Report.append]
        omega

section

variable {s t : Sequence d}

/-- Below an owner, the depth of a body is at most the number of its operations. -/
theorem Consistent.depthBelow_le (hs : (ofBody s).Consistent) :
    (ofBody s).depthBelow s ≤ (ofBody s).operations := by
  cases s with
  | nil => exact Nat.zero_le _
  | cons o rest =>
    have hpos : 0 < (ofBody (o :: rest)).operations := Nat.lt_add_right _ o.count_pos
    rw [depthBelow, List.isEmpty_cons, if_neg Bool.false_ne_true]
    -- A body with an element has a report that is not empty.
    rcases hs.depth with hempty | hdepth
    · rw [hempty] at hpos
      exact absurd hpos (Nat.lt_irrefl 0)
    · omega

theorem Consistent.conditional (hs : (ofBody s).Consistent) (ht : (ofBody t).Consistent) :
    (conditional s t (ofBody s) (ofBody t)).Consistent := by
  have hcounts := hs.counts
  have hcounts' := ht.counts
  have hdepth := hs.depthBelow_le
  have hdepth' := ht.depthBelow_le
  have hescape := toNat_or_le (ofBody s).escape.escapes (ofBody t).escape.escapes
  refine ⟨?_, Nat.add_le_add hs.absorbing_le ht.absorbing_le, .inr ?_⟩
  · simp only [Report.conditional, EscapeSummary.append]
    omega
  · simp only [Report.conditional]
    omega

/-- A loop counts once as a loop, and once more only if a break in it no longer escapes. -/
theorem Consistent.whileLoop (hs : (ofBody s).Consistent) :
    (whileLoop s (ofBody s)).Consistent := by
  have hcounts := hs.counts
  have habsorbing := hs.absorbing_le
  have hdepth := hs.depthBelow_le
  have hone := Bool.toNat_le (ofBody s).escape.escapes
  have hbreak : (if (ofBody s).escape.escapes then 1 else 0) = (ofBody s).escape.escapes.toNat := by
    cases (ofBody s).escape.escapes <;> rfl
  refine ⟨?_, ?_, .inr ?_⟩
  · simp only [Report.whileLoop, Bool.toNat_false, hbreak]
    omega
  · simp only [Report.whileLoop, hbreak]
    omega
  · simp only [Report.whileLoop]
    omega

theorem Consistent.scope (hs : (ofBody s).Consistent) : (scope s (ofBody s)).Consistent := by
  have hdepth := hs.depthBelow_le
  refine ⟨Nat.le_add_left_of_le hs.counts, hs.absorbing_le, .inr ?_⟩
  simp only [Report.scope]
  omega

theorem consistent_of_no_region {o : Op d} (ho : o.regions = []) : (ofBody [o]).Consistent := by
  rw [ofBody_of_no_region ho]
  refine ⟨?_, Nat.le_refl _, .inr (Nat.le_refl _)⟩
  exact Nat.add_le_add (Nat.le_refl 0) (Bool.toNat_le _)

theorem consistent_of_elements (hs : ∀ o ∈ s, (ofBody [o]).Consistent) :
    (ofBody s).Consistent := by
  induction s with
  | nil =>
    rw [ofBody_nil]
    exact ⟨Nat.le_refl _, Nat.le_refl _, .inl rfl⟩
  | cons o rest ih =>
    rw [List.forall_mem_cons] at hs
    rw [← List.singleton_append, ofBody_append]
    exact hs.1.append (ih hs.2)

end

theorem consistent_of_op (o : Op d) : (ofBody [o]).Consistent := by
  induction o using Op.region_induction with
  | step o ih =>
    have hregion : ∀ p ∈ o.regions, (ofBody p.2).Consistent :=
      fun p hp => consistent_of_elements (ih p hp)
    cases o with
    | conditional c t e =>
      rw [ofBody_conditional]
      exact (hregion (.thenArm, t) (by simp [Op.regions])).conditional
        (hregion (.elseArm, e) (by simp [Op.regions]))
    | whileLoop c s =>
      rw [ofBody_whileLoop]
      exact (hregion (.body, s) (by simp [Op.regions])).whileLoop
    | scope g s =>
      rw [ofBody_scope]
      exact (hregion (.body, s) (Op.body_mem_regions g s)).scope
    | _ => exact consistent_of_no_region rfl

theorem consistent_ofBody (s : Sequence d) : (ofBody s).Consistent :=
  consistent_of_elements fun o _ => consistent_of_op o

end Report

namespace Program

/-- Whatever a validation reports is consistent.  There are at least as many operations as there are
loops, loops that absorb a break, and escapes, taken together; no more loops absorb than there are;
and unless there is nothing to report, there are more operations than the depth. -/
theorem report_consistent {p : Program d} {s : Config.Settings} {r : Report}
    (hr : p.validate s = .ok r) :
    r.escape.loops + r.escape.absorbingLoops + r.escape.escapes.toNat ≤ r.operations ∧
    r.escape.absorbingLoops ≤ r.escape.loops ∧
    (r.operations = 0 ∧ r = .empty ∨ r.maxDepth + 1 ≤ r.operations) := by
  obtain rfl := eq_ofBody_of_validate hr
  have hconsistent := Report.consistent_ofBody p.body
  refine ⟨hconsistent.counts, hconsistent.absorbing_le, ?_⟩
  rcases hconsistent.depth with hempty | hdepth
  · exact .inl ⟨congrArg Report.operations hempty, hempty⟩
  · exact .inr hdepth

theorem report_consistent_tight :
    let p : Program .imp := ⟨[.whileLoop (.constant (.bool true)) [.breakLoop], .breakLoop]⟩
    let r : Report := ⟨3, 1, ⟨true, 1, 1⟩⟩
    p.validate (.ofPreset .permissive) = .ok r ∧
    r.escape.loops + r.escape.absorbingLoops + r.escape.escapes.toNat ≤ r.operations ∧
    r.escape.absorbingLoops ≤ r.escape.loops ∧
    (r.operations = 0 ∧ r = .empty ∨ r.maxDepth + 1 ≤ r.operations) := by
  intro p r
  have hr : p.validate (.ofPreset .permissive) = .ok r := by
    rw [validate_eq, if_neg (by decide), if_neg (by decide), summarize_eq, countP_operations,
      countP_operations]
    rfl
  exact ⟨hr, report_consistent hr⟩

end Program

end RegionFlow

import RegionFlow.Proofs.Analysis.BreakRouting
import RegionFlow.Proofs.Flow.Traversal
set_option autoImplicit false

namespace RegionFlow

variable {d : Dialect}

def Op.absorbs : Op d → Bool
  | .whileLoop _ b => sequenceEscapes b
  | _ => false

namespace EscapeSummary

theorem add_eq (s : EscapeSummary) (l : Located d) : s.add l =
    ⟨s.escapes, s.loops + (if l.op.isLoop then 1 else 0),
      s.absorbingLoops + (if l.op.absorbs then 1 else 0)⟩ := by
  obtain ⟨c, i, o⟩ := l
  cases o with
  | whileLoop e b =>
    cases hb : sequenceEscapes b with
    | true => simp [add, Op.isLoop, Op.absorbs, hb]
    | false => simp [add, Op.isLoop, Op.absorbs, hb]
  | _ => rfl

theorem foldl_add (ls : List (Located d)) (s : EscapeSummary) : ls.foldl add s =
    ⟨s.escapes, s.loops + ls.countP (fun l => l.op.isLoop),
      s.absorbingLoops + ls.countP (fun l => l.op.absorbs)⟩ := by
  induction ls generalizing s with
  | nil => rfl
  | cons l ls ih =>
    rw [List.foldl_cons, ih, add_eq, List.countP_cons, List.countP_cons]
    simp only [mk.injEq, true_and]
    omega

end EscapeSummary

namespace Program

variable {p : Program d} {h : Home} {l b : Located d}

theorem summarize_eq (p : Program d) : p.summarize =
    ⟨p.escapes, (p.operations .main).countP (fun l => l.op.isLoop),
      (p.operations .main).countP (fun l => l.op.absorbs)⟩ := by
  rw [summarize, EscapeSummary.foldl_add]
  simp [EscapeSummary.empty]

theorem countP_operations (p : Program d) (h : Home) (q : Op d → Bool) :
    (p.operations h).countP (fun l => q l.op) = p.occurrences.countP (fun n => q n.op) := by
  have hmap : (p.operations h).map (fun l => q l.op) = p.occurrences.map fun n => q n.op :=
    map_operations fun n l hat => congrArg q hat.op
  have hcount := congrArg (List.countP id) hmap
  rw [List.countP_map, List.countP_map] at hcount
  exact hcount

/-- The breaks of the program that leave a loop: it is the innermost one around them. -/
def breaksLeaving (p : Program d) (h : Home) (l : Located d) : List (Located d) :=
  (p.operations h).filter fun b =>
    b.op.isBreak && (b.context.enclosingLoop?.map fun x => x.2.path) == some l.placed.path

theorem mem_breaksLeaving_iff (hl : l ∈ p.operations h) : b ∈ p.breaksLeaving h l ↔
    b ∈ p.operations h ∧ b.op.isBreak = true ∧
      b.context.enclosingLoop? = some (l.context, l.placed) := by
  rw [breaksLeaving, List.mem_filter, Bool.and_eq_true, beq_iff_eq]
  constructor
  · rintro ⟨hb, hbreak, hpath⟩
    obtain ⟨x, hx, hxpath⟩ := Option.map_eq_some_iff.mp hpath
    obtain ⟨a, ha, hcontext, hplaced, -⟩ := around_of_enclosingLoop? hb hx
    rw [← hplaced] at hxpath
    obtain rfl := eq_of_path ha hl hxpath
    rw [hcontext, hplaced]
    exact ⟨hb, hbreak, hx⟩
  · rintro ⟨hb, hbreak, hx⟩
    exact ⟨hb, hbreak, by rw [hx]; rfl⟩

/-- What escapes from the body of a loop are the breaks that leave the loop. -/
theorem absorbs_iff (hl : l ∈ p.operations h) : l.op.absorbs = true ↔
    l.op.isLoop = true ∧ p.breaksLeaving h l ≠ [] := by
  obtain ⟨c, i, o⟩ := l
  cases o with
  | whileLoop e s =>
    obtain ⟨hc, ho⟩ := mem_operations.mp hl
    have hr : (Region.body, s) ∈ (Op.whileLoop e s).regions := List.mem_singleton.mpr rfl
    have hbody : (p.context h).Below (c.descend i .body s) := hc.region ho hr
    have hloop : (c.descend i .body s).enclosingLoop? = some (c, ⟨⟨c.path, i⟩, .whileLoop e s⟩) :=
      Context.enclosingLoop?_descend _ _ ho
    have hesc := sequenceEscapes_iff_break hbody
    rw [Context.ops_descend, hloop] at hesc
    rw [Op.absorbs, hesc]
    constructor
    · rintro ⟨b, hb, -, hbreak, hx⟩
      have hmem := (mem_breaksLeaving_iff hl).mpr ⟨hb, hbreak, hx⟩
      exact ⟨rfl, List.ne_nil_of_mem hmem⟩
    · rintro ⟨-, hne⟩
      obtain ⟨b, hmem⟩ := List.exists_mem_of_ne_nil _ hne
      obtain ⟨hb, hbreak, hx⟩ := (mem_breaksLeaving_iff hl).mp hmem
      refine ⟨b, hb, ?_, hbreak, hx⟩
      obtain ⟨q, hq, hin⟩ := (mem_operations.mp hb).1.below_enclosingLoop? rfl hx
      obtain rfl := List.mem_singleton.mp hq
      exact hin
  | _ => simp [Op.absorbs, Op.isLoop]

theorem countP_absorbs (p : Program d) (h : Home) :
    (p.operations h).countP (fun l => l.op.absorbs) =
      (p.operations h).countP fun l => l.op.isLoop && !(p.breaksLeaving h l).isEmpty := by
  apply List.countP_congr
  intro l hl
  rw [absorbs_iff hl]
  simp

theorem countP_loops (p : Program d) (h : Home) :
    (p.operations h).countP (fun l => l.op.isLoop) =
      ((p.operations h).countP fun l => l.op.isLoop && !(p.breaksLeaving h l).isEmpty) +
        (p.operations h).countP fun l => l.op.isLoop && (p.breaksLeaving h l).isEmpty := by
  rw [List.countP_eq_countP_filter_add _ _ fun l => !(p.breaksLeaving h l).isEmpty,
    List.countP_filter, List.countP_filter]
  simp

/-- The counts of a summary are counts of loops by the breaks that leave them: the loops of the
program at all depths, those that some break leaves and those that none does.  Loops are told apart
by their places, and each break leaves at most the one loop that is the innermost around it. -/
theorem summarize_counts (p : Program d) :
    ((p.operations .main).map fun l => l.placed.path).Nodup ∧
    (∀ l ∈ p.operations .main, ∀ b, b ∈ p.breaksLeaving .main l ↔
      b ∈ p.operations .main ∧ b.op.isBreak = true ∧
        b.context.enclosingLoop? = some (l.context, l.placed)) ∧
    p.summarize.loops = p.occurrences.countP (fun n => n.op.isLoop) ∧
    p.summarize.absorbingLoops =
      ((p.operations .main).countP fun l => l.op.isLoop && !(p.breaksLeaving .main l).isEmpty) ∧
    p.summarize.plainLoops =
      ((p.operations .main).countP fun l => l.op.isLoop && (p.breaksLeaving .main l).isEmpty) ∧
    p.summarize.plainLoops + p.summarize.absorbingLoops = p.summarize.loops := by
  have hloops := p.countP_loops .main
  have habsorbs := p.countP_absorbs .main
  rw [EscapeSummary.plainLoops, summarize_eq]
  refine ⟨p.operations_paths_nodup .main, fun l hl b => mem_breaksLeaving_iff hl,
    p.countP_operations .main _, habsorbs, ?_, ?_⟩
  · simp only
    omega
  · simp only
    omega

theorem summarize_counts_sample :
    let loop : Located .imp := ⟨sample.context .main, 0, .whileLoop (.constant (.bool true))
      [.scope rfl [.conditional (.constant (.bool true)) [] [.breakLoop], .scope rfl []]]⟩
    loop ∈ sample.operations .main ∧ sampleBreak ∈ sample.breaksLeaving .main loop := by
  intro loop
  have hl : loop ∈ sample.operations .main := mem_operations.mpr ⟨.here, rfl⟩
  exact ⟨hl, ((summarize_counts sample).2.1 loop hl _).mpr ⟨sampleBreak_mem, rfl, rfl⟩⟩

end Program

def Program.nesting (p : Program d) : Nat := (p.occurrences.map fun n => n.way.length).foldl max 0

theorem foldl_max_le_iff {ns : List Nat} {a n : Nat} :
    ns.foldl max a ≤ n ↔ a ≤ n ∧ ∀ k ∈ ns, k ≤ n := by
  induction ns generalizing a with
  | nil => simp
  | cons k ns ih => rw [List.foldl_cons, ih, Nat.max_le, List.forall_mem_cons, and_assoc]

namespace Tally

variable {n k : Nat} {state after : Tally} {l : Located d}

theorem add_eq_some_iff :
    add n state l = (after, some k) ↔ n < l.depth ∧ k = l.depth ∧ after = state := by
  rw [add]
  split
  · simp_all [eq_comm, and_comm]
  · simp
    omega

theorem add_eq_none_iff : add n state l = (after, none) ↔
    l.depth ≤ n ∧ after = ⟨state.operations + 1, max state.maxDepth l.depth⟩ := by
  rw [add]
  split
  · simp
    omega
  · simp_all [eq_comm]

end Tally

namespace Walk

variable {s t : List (Pending d)} {l : Located d} {n : Nat}

/-- Where no sequence still to visit is deeper than one level below a depth, the next operation is
not either, and unless it is that deep itself, nothing deeper is to come after it. -/
theorem depth_of_nextIn? (hs : ∀ q ∈ s, q.context.depth ≤ n + 1) (h : nextIn? s = some (l, t)) :
    l.depth ≤ n + 1 ∧ (l.depth ≤ n → ∀ q ∈ t, q.context.depth ≤ n + 1) := by
  induction s with
  | nil => simp [nextIn?] at h
  | cons q s ih =>
    rw [List.forall_mem_cons] at hs
    obtain ⟨c, i, ops⟩ := q
    cases ops with
    | nil =>
      rw [nextIn?] at h
      exact ih hs.2 h
    | cons o rest =>
      rw [nextIn?, Option.some.injEq, Prod.mk.injEq] at h
      obtain ⟨rfl, rfl⟩ := h
      refine ⟨hs.1, ?_⟩
      intro hn q hq
      -- Only the regions of the operation handed out are new on the stack.
      rcases List.mem_append.mp hq with hq | hq
      · obtain ⟨r, -, rfl⟩ := List.mem_map.mp hq
        exact Nat.succ_le_succ hn
      · rcases List.mem_cons.mp hq with rfl | hq
        · exact hs.1
        · exact hs.2 q hq

/-- The operation that stops a walk by its depth is one level too deep. -/
theorem visitFrom_tally (state : Tally) (hs : ∀ q ∈ s, q.context.depth ≤ n + 1) {k : Nat}
    (h : (visitFrom (Tally.add n) state s).2 = some k) : k = n + 1 := by
  fun_induction visitFrom (Tally.add n) state s with
  | case1 => simp at h
  | case2 state s l t hn after result hf =>
    obtain ⟨hlt, rfl, -⟩ := Tally.add_eq_some_iff.mp hf
    have hle := (depth_of_nextIn? hs hn).1
    rw [Option.some.injEq] at h
    omega
  | case3 state s l t hn after hf ih =>
    have hle := (Tally.add_eq_none_iff.mp hf).1
    exact ih ((depth_of_nextIn? hs hn).2 hle) h

end Walk

theorem Tally.of_visits {n : Nat} {state after : Tally} {calls : List (Located d)}
    {result : Option Nat} (h : Visits (Tally.add n) state calls after result) :
    match result with
    | some _ => ∃ l ∈ calls, n < l.depth
    | none => (∀ l ∈ calls, l.depth ≤ n) ∧ after =
        ⟨state.operations + calls.length, (calls.map Located.depth).foldl max state.maxDepth⟩ := by
  induction h with
  | done state => simp
  | @stop state after l result hf =>
    exact ⟨l, List.mem_singleton.mpr rfl, (add_eq_some_iff.mp hf).1⟩
  | @call state next after l calls result hf rest ih =>
    obtain ⟨hle, rfl⟩ := add_eq_none_iff.mp hf
    cases result with
    | some k =>
      obtain ⟨m, hm, hlt⟩ := ih
      exact ⟨m, List.mem_cons_of_mem _ hm, hlt⟩
    | none =>
      obtain ⟨hall, rfl⟩ := ih
      refine ⟨List.forall_mem_cons.mpr ⟨hle, hall⟩, ?_⟩
      simp only [List.length_cons, List.map_cons, List.foldl_cons, mk.injEq, and_true]
      omega

namespace Program

theorem map_depth_operations (p : Program d) (h : Home) :
    (p.operations h).map Located.depth = p.occurrences.map fun n => n.way.length := by
  apply map_operations
  intro n l hat
  rw [hat.depth]
  exact Nat.zero_add _

theorem nesting_le_iff {p : Program d} {n : Nat} (h : Home) :
    p.nesting ≤ n ↔ ∀ l ∈ p.operations h, l.depth ≤ n := by
  rw [nesting, ← p.map_depth_operations h, foldl_max_le_iff]
  simp

theorem depth_le_nesting {p : Program d} {h : Home} {l : Located d} (hl : l ∈ p.operations h) :
    l.depth ≤ p.nesting := (nesting_le_iff h).mp (Nat.le_refl _) l hl

theorem exists_depth_eq_nesting {p : Program d} (h : Home) (hzero : p.nesting ≠ 0) :
    ∃ l ∈ p.operations h, l.depth = p.nesting := by
  by_contra hnone
  -- If no operation were that deep, a lesser bound would do.
  have hbound : p.nesting ≤ p.nesting - 1 := by
    rw [nesting_le_iff h]
    intro l hl
    have hle := depth_le_nesting hl
    have hne : l.depth ≠ p.nesting := fun heq => hnone ⟨l, hl, heq⟩
    omega
  omega

theorem length_operations (p : Program d) (h : Home) :
    (p.operations h).length = countSequence p.body := by
  rw [operations_eq]
  exact length_preorderFrom fun o _ j => length_preorderOf o _ j

/-- The walk of a validation meets an operation one level too deep, or else it counts all. -/
theorem visit_tally (p : Program d) (n : Nat) :
    (n < p.nesting ∧ ∃ t, p.visit .main (Tally.add n) ⟨0, 0⟩ = (t, some (n + 1))) ∨
      (p.nesting ≤ n ∧
        p.visit .main (Tally.add n) ⟨0, 0⟩ = (⟨countSequence p.body, p.nesting⟩, none)) := by
  obtain ⟨calls, after, result, hvisit, hcalls, hsub, hend⟩ :=
    p.visit_calls .main (Tally.add n) ⟨0, 0⟩
  have htally := Tally.of_visits hcalls
  cases result with
  | some k =>
    have hstart : ∀ q ∈ (p.walk .main).stack, q.context.depth ≤ n + 1 := by
      intro q hq
      rw [List.mem_singleton.mp hq]
      exact Nat.zero_le _
    have hk : k = n + 1 := Walk.visitFrom_tally ⟨0, 0⟩ hstart (congrArg Prod.snd hvisit)
    obtain ⟨l, hl, hdeep⟩ := htally
    have hle := depth_le_nesting (hsub.subset hl)
    refine .inl ⟨by omega, after, ?_⟩
    rw [hvisit, hk]
  | none =>
    obtain ⟨hall, rfl⟩ := htally
    rcases hend with rfl | ⟨value, hvalue⟩
    · refine .inr ⟨(nesting_le_iff .main).mpr hall, ?_⟩
      rw [hvisit, length_operations, map_depth_operations, nesting, Nat.zero_add]
    · simp at hvalue

theorem summarize_escapes (p : Program d) : p.summarize.escapes = p.escapes := by
  rw [summarize_eq]

theorem validate_eq (p : Program d) (s : Config.Settings) : p.validate s =
    if s.maxNestingDepth.toNat < p.nesting then
      .error (.nestingTooDeep (s.maxNestingDepth.toNat + 1) s.maxNestingDepth.toNat)
    else if p.escapes = true ∧ s.allowStrayBreak = false then .error .strayBreak
    else .ok ⟨countSequence p.body, p.nesting, p.summarize⟩ := by
  rw [validate]
  rcases p.visit_tally s.maxNestingDepth.toNat with ⟨hdeep, t, hvisit⟩ | ⟨hle, hvisit⟩
  · rw [hvisit, if_pos hdeep]
  · rw [hvisit, if_neg (Nat.not_lt.mpr hle)]
    simp [summarize_escapes]

/-- Validation decides what it reports.  A program that nests deeper than the limit is refused with
the depth right after the limit, whatever else is wrong with it; otherwise one that has a break
without a target is refused unless that is allowed; and otherwise the report counts the operations
at all depths, and gives the greatest depth and the summary.  So where stray breaks are not allowed,
every break of an accepted program has a target. -/
theorem validate_verdict (p : Program d) (s : Config.Settings) :
    p.validate s =
      (if s.maxNestingDepth.toNat < p.nesting then
        .error (.nestingTooDeep (s.maxNestingDepth.toNat + 1) s.maxNestingDepth.toNat)
      else if s.allowStrayBreak = false ∧
          ∃ b ∈ p.operations .main, b.op.isBreak = true ∧ b.context.breakTarget? = none then
        .error .strayBreak
      else .ok ⟨countSequence p.body, p.nesting, p.summarize⟩) ∧
    (∀ l ∈ p.operations .main, l.depth ≤ p.nesting) ∧
    (p.nesting = 0 ∨ ∃ l ∈ p.operations .main, l.depth = p.nesting) ∧
    (s.allowStrayBreak = false → ∀ r, p.validate s = .ok r →
      ∀ b ∈ p.operations .main, b.op.isBreak = true → ∃ q, b.context.breakTarget? = some q) := by
  have hstray := p.escapes_iff_no_target .main
  refine ⟨?_, fun l hl => depth_le_nesting hl, ?_, ?_⟩
  · have hrefused : (p.escapes = true ∧ s.allowStrayBreak = false) ↔ s.allowStrayBreak = false ∧
        ∃ b ∈ p.operations .main, b.op.isBreak = true ∧ b.context.breakTarget? = none := by
      rw [hstray, and_comm]
    rw [validate_eq]
    simp only [hrefused]
  · by_cases hzero : p.nesting = 0
    · exact .inl hzero
    · exact .inr (exists_depth_eq_nesting .main hzero)
  · intro hstrict r hr b hb hbreak
    cases htarget : b.context.breakTarget? with
    | some q => exact ⟨q, rfl⟩
    | none =>
      have hescapes : p.escapes = true := hstray.mpr ⟨b, hb, hbreak, htarget⟩
      rw [validate_eq, if_pos (And.intro hescapes hstrict)] at hr
      split at hr
      · simp at hr
      · simp at hr

theorem validate_verdict_sample :
    let strict : Config.Settings := .ofPreset .strict
    strict.allowStrayBreak = false ∧
    sample.validate strict =
      .ok ⟨countSequence sample.body, sample.nesting, sample.summarize⟩ ∧
    sampleBreak ∈ sample.operations .main ∧
    ∃ q, sampleBreak.context.breakTarget? = some q := by
  intro strict
  have hok : sample.validate strict =
      .ok ⟨countSequence sample.body, sample.nesting, sample.summarize⟩ := by
    have hescapes : sample.escapes = false := rfl
    rw [(validate_verdict sample strict).1, if_neg (by decide), if_neg]
    rw [← escapes_iff_no_target, hescapes]
    simp
  exact ⟨rfl, hok, sampleBreak_mem,
    (validate_verdict sample strict).2.2.2 rfl _ hok _ sampleBreak_mem rfl⟩

end Program

end RegionFlow

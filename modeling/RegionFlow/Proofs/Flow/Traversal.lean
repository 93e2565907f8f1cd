import Mathlib.Data.List.Forall2
import RegionFlow.Proofs.Flow.Navigation
set_option autoImplicit false

namespace RegionFlow

variable {d : Dialect}

/-- An operation of a tree where it stands: the regions entered on the way from the top, the
outermost first, and the index in the last of them. -/
structure Occurrence (d : Dialect) where
  way : List Step
  index : Nat
  op : Op d

mutual

def Op.occurrences {d : Dialect} (way : List Step) (i : Nat) : Op d → List (Occurrence d)
  | o@(.conditional _ t e) =>
      ⟨way, i, o⟩ :: (sequenceOccurrences (way ++ [⟨i, .thenArm⟩]) 0 t ++
        sequenceOccurrences (way ++ [⟨i, .elseArm⟩]) 0 e)
  | o@(.whileLoop _ b) => ⟨way, i, o⟩ :: sequenceOccurrences (way ++ [⟨i, .body⟩]) 0 b
  | o@(.scope _ b) => ⟨way, i, o⟩ :: sequenceOccurrences (way ++ [⟨i, .body⟩]) 0 b
  | o@.skip => [⟨way, i, o⟩]
  | o@(.assign _ _) => [⟨way, i, o⟩]
  | o@.breakLoop => [⟨way, i, o⟩]
  | o@.terminate => [⟨way, i, o⟩]

def sequenceOccurrences {d : Dialect} (way : List Step) (i : Nat) :
    List (Op d) → List (Occurrence d)
  | [] => []
  | o :: rest => o.occurrences way i ++ sequenceOccurrences way (i + 1) rest

end

def Program.occurrences (p : Program d) : List (Occurrence d) := sequenceOccurrences [] 0 p.body

theorem Op.occurrences_eq (way : List Step) (i : Nat) (o : Op d) :
    o.occurrences way i =
      ⟨way, i, o⟩ :: o.regions.flatMap fun p => sequenceOccurrences (way ++ [⟨i, p.1⟩]) 0 p.2 := by
  cases o <;> simp [Op.occurrences, Op.regions]

/-- A walk from a context hands out an occurrence: the operation with its index, in the context that
is reached by entering the regions on the way. -/
structure Located.At (base : Context d) (n : Occurrence d) (l : Located d) : Prop where
  context : base.follow? n.way = some l.context
  index : l.index = n.index
  op : l.op = n.op
  element : l.context.get? l.index = some l.placed
  depth : l.depth = base.depth + n.way.length

theorem Located.at_of_follow? {base c : Context d} {way : List Step} {i : Nat} {o : Op d}
    (hc : base.follow? way = some c) (ho : c.ops[i]? = some o) :
    Located.At base ⟨way, i, o⟩ ⟨c, i, o⟩ where
  context := hc
  index := rfl
  op := rfl
  element := Context.get?_eq_some_iff.mpr ⟨rfl, ho⟩
  depth := Context.depth_of_follow? hc

theorem preorderFrom_occurrences {base c : Context d} {way : List Step} {i : Nat} {s : List (Op d)}
    (hs : c.ops.drop i = s)
    (ho : ∀ e ∈ s, ∀ j, c.ops[j]? = some e →
      List.Forall₂ (Located.At base) (e.occurrences way j) (preorderOf c j e)) :
    List.Forall₂ (Located.At base) (sequenceOccurrences way i s) (preorderFrom c i s) := by
  induction s generalizing i with
  | nil => exact .nil
  | cons o rest ih =>
    rw [List.forall_mem_cons] at ho
    obtain ⟨hi, hrest⟩ := getElem?_of_drop hs
    rw [sequenceOccurrences, preorderFrom]
    exact List.rel_append (ho.1 i hi) (ih hrest ho.2)

theorem preorderOf_occurrences (base : Context d) (o : Op d) : ∀ (c : Context d) (i : Nat)
    (way : List Step), base.follow? way = some c → c.ops[i]? = some o →
      List.Forall₂ (Located.At base) (o.occurrences way i) (preorderOf c i o) := by
  induction o using Op.region_induction with
  | step o ih =>
    intro c i way hc ho
    have hregion : ∀ p ∈ o.regions, List.Forall₂ (Located.At base)
        (sequenceOccurrences (way ++ [⟨i, p.1⟩]) 0 p.2) (c.descend i p.1 p.2).preorder := by
      intro p hp
      have hway : base.follow? (way ++ [⟨i, p.1⟩]) = some (c.descend i p.1 p.2) := by
        rw [Context.follow?_append, hc, Option.bind_some, Context.follow?_cons_eq_some_iff]
        exact ⟨o, p.2, ho, hp, rfl⟩
      exact preorderFrom_occurrences rfl fun e he j hj => ih p hp e he _ j _ hway hj
    rw [Op.occurrences_eq, preorderOf_eq]
    refine .cons (Located.at_of_follow? hc ho) ?_
    apply List.rel_flatMap (R := fun p q => p = q ∧ p ∈ o.regions)
    · exact List.forall₂_same.mpr fun p hp => ⟨rfl, hp⟩
    · rintro p _ ⟨rfl, hp⟩
      exact hregion p hp

theorem Context.preorder_occurrences (c : Context d) :
    List.Forall₂ (Located.At c) (sequenceOccurrences [] 0 c.ops) c.preorder :=
  preorderFrom_occurrences rfl fun e _ j hj => preorderOf_occurrences c e c j [] rfl hj

theorem Program.map_operations {α : Type} {p : Program d} {h : Home} {f : Located d → α}
    {g : Occurrence d → α} (hfg : ∀ n l, Located.At (p.context h) n l → f l = g n) :
    (p.operations h).map f = p.occurrences.map g := by
  have hmap : ∀ ns ls, List.Forall₂ (Located.At (p.context h)) ns ls → ls.map f = ns.map g := by
    intro ns ls hat
    induction hat with
    | nil => rfl
    | cons hat _ ih => rw [List.map_cons, List.map_cons, ih, hfg _ _ hat]
  rw [operations_eq]
  exact hmap _ _ (p.context h).preorder_occurrences

namespace Walk

variable {w rest : Walk d} {l : Located d}

theorem toList_none (h : w.next? = none) : w.toList = [] :=
  toListFrom_none (Option.map_eq_none_iff.mp h)

theorem toList_some (h : w.next? = some (l, rest)) : w.toList = l :: rest.toList := by
  obtain ⟨⟨l, t⟩, ht, heq⟩ := Option.map_eq_some_iff.mp h
  cases heq
  exact toListFrom_some ht

theorem head?_toList (w : Walk d) : w.toList.head? = w.next?.map Prod.fst := by
  cases hn : w.next? with
  | none => rw [toList_none hn]; rfl
  | some x => rw [toList_some hn]; rfl

theorem take_eq (w : Walk d) (k : Nat) :
    (w.take k).1 = w.toList.take k ∧ (w.take k).2.toList = w.toList.drop k := by
  induction k generalizing w with
  | zero => simp [take]
  | succ k ih =>
    rw [take]
    cases hn : w.next? with
    | none => simp [toList_none hn]
    | some x => simp [toList_some hn, ih x.2]

theorem next?_take (w : Walk d) (k : Nat) :
    (w.take k).2.next?.map Prod.fst = w.toList[k]? := by
  rw [← head?_toList, (w.take_eq k).2, List.head?_drop]

end Walk

section Visitors

variable {σ β : Type} {f : σ → Located d → σ × Option β}

/-- A visitor is called on the given operations one after the other, and no call but the last stops
it: the state after the calls, and the result if it is stopped. -/
inductive Visits (f : σ → Located d → σ × Option β) : σ → List (Located d) → σ → Option β → Prop
    where
  | done (state : σ) : Visits f state [] state none
  | stop {state after : σ} {l : Located d} {result : β} (h : f state l = (after, some result)) :
      Visits f state [l] after (some result)
  | call {state next after : σ} {l : Located d} {ls : List (Located d)} {result : Option β}
      (h : f state l = (next, none)) (rest : Visits f next ls after result) :
      Visits f state (l :: ls) after result

theorem Walk.visitFrom_calls (f : σ → Located d → σ × Option β) (state : σ)
    (s : List (Pending d)) : ∃ calls,
      Visits f state calls (visitFrom f state s).1 (visitFrom f state s).2 ∧
      calls <+: toListFrom s ∧
      (calls = toListFrom s ∨ ∃ result, (visitFrom f state s).2 = some result) := by
  fun_induction visitFrom f state s with
  | case1 state s hn =>
    rw [toListFrom_none hn]
    exact ⟨[], .done state, List.nil_prefix, .inl rfl⟩
  | case2 state s l t hn after result hf =>
    rw [toListFrom_some hn]
    exact ⟨[l], .stop hf, List.cons_prefix_cons.mpr ⟨rfl, List.nil_prefix⟩, .inr ⟨result, rfl⟩⟩
  | case3 state s l t hn after hf ih =>
    obtain ⟨calls, hcalls, hprefix, hend⟩ := ih
    rw [toListFrom_some hn]
    refine ⟨l :: calls, .call hf hcalls, List.cons_prefix_cons.mpr ⟨rfl, hprefix⟩, ?_⟩
    rcases hend with rfl | hresult
    · exact .inl rfl
    · exact .inr hresult

theorem Program.visit_calls (p : Program d) (h : Home) (f : σ → Located d → σ × Option β)
    (state : σ) : ∃ calls after result, p.visit h f state = (after, result) ∧
      Visits f state calls after result ∧ calls <+: p.operations h ∧
      (calls = p.operations h ∨ ∃ value, result = some value) := by
  obtain ⟨calls, hcalls, hprefix, hend⟩ := Walk.visitFrom_calls f state (p.walk h).stack
  exact ⟨calls, _, _, rfl, hcalls, hprefix, hend⟩

end Visitors

/-- A walk is the preorder of the tree below its context.  One by one it hands out the operations
that the recursion over the tree lists, each in the context reached by entering the regions on the
way to it, no operation twice and each operation of a sequence below the context.  After any number
of pulls the rest of this list is to come, and once it is used up there is nothing any more.  A
visitor is called on an initial segment of it, which ends with the first call that stops the visitor
and is all of it if no call does. -/
theorem Program.walk_in_preorder (p : Program d) (h : Home) :
    (∀ c : Context d,
      List.Forall₂ (Located.At c) (sequenceOccurrences [] 0 c.ops) (Walk.start c).toList ∧
      ((Walk.start c).toList.map fun l => l.placed.path).Nodup ∧
      (∀ l, l ∈ (Walk.start c).toList ↔
        (∃ way, c.follow? way = some l.context) ∧ l.context.get? l.index = some l.placed) ∧
      ∀ k, ((Walk.start c).take k).1 = (Walk.start c).toList.take k ∧
        ((Walk.start c).take k).2.toList = (Walk.start c).toList.drop k ∧
        ((Walk.start c).take k).2.next?.map Prod.fst = (Walk.start c).toList[k]?) ∧
    ∀ {σ β : Type} (f : σ → Located d → σ × Option β) (state : σ), ∃ calls after result,
      p.visit h f state = (after, result) ∧ Visits f state calls after result ∧
      calls <+: (Walk.start (p.context h)).toList ∧
      (calls = (Walk.start (p.context h)).toList ∨ ∃ value, result = some value) := by
  refine ⟨?_, fun f state => p.visit_calls h f state⟩
  intro c
  rw [Walk.toList_start]
  refine ⟨c.preorder_occurrences, c.preorder_paths_nodup, ?_, ?_⟩
  · intro l
    rw [Context.mem_preorder_iff, Context.below_iff_follow?, Context.get?_eq_some_iff]
    exact and_congr_right fun _ => ⟨fun ho => ⟨rfl, ho⟩, And.right⟩
  · intro k
    rw [← Walk.toList_start]
    exact ⟨(Walk.take_eq _ k).1, (Walk.take_eq _ k).2, Walk.next?_take _ k⟩

structure FlowRow (d : Dialect) where
  op : PlacedOp d
  successor? : Option Point
  regions : List (PlacedSequence d × Point)

def followedBy (path : OpPath) (next : Point) : List (Op d) → Point
  | [] => next
  | o :: _ => entryOf path o

mutual

/-- Gives each operation the point where control goes on, and hands the same point to the regions of
the operation. -/
def Op.flow {d : Dialect} (path : OpPath) (next : Point) : Op d → List (FlowRow d)
  | o@(.conditional _ t e) =>
      ⟨⟨path, o⟩, some next,
        [(⟨path.enter .thenArm, t⟩, next), (⟨path.enter .elseArm, e⟩, next)]⟩ ::
        (sequenceFlow (path.enter .thenArm) 0 next t ++ sequenceFlow (path.enter .elseArm) 0 next e)
  | o@(.whileLoop _ b) =>
      ⟨⟨path, o⟩, some next, [(⟨path.enter .body, b⟩, next)]⟩ ::
        sequenceFlow (path.enter .body) 0 next b
  | o@(.scope _ b) =>
      ⟨⟨path, o⟩, some next, [(⟨path.enter .body, b⟩, next)]⟩ ::
        sequenceFlow (path.enter .body) 0 next b
  | o@.skip => [⟨⟨path, o⟩, some next, []⟩]
  | o@(.assign _ _) => [⟨⟨path, o⟩, some next, []⟩]
  | o@.breakLoop => [⟨⟨path, o⟩, none, []⟩]
  | o@.terminate => [⟨⟨path, o⟩, none, []⟩]

def sequenceFlow {d : Dialect} (path : SequencePath) (i : Nat) (next : Point) :
    List (Op d) → List (FlowRow d)
  | [] => []
  | o :: rest =>
      o.flow ⟨path, i⟩ (followedBy ⟨path, i + 1⟩ next rest) ++ sequenceFlow path (i + 1) next rest

end

def Program.flow (p : Program d) (h : Home) : List (FlowRow d) :=
  sequenceFlow (.body h) 0 (p.exit h) p.body

def Located.flowRow (l : Located d) : FlowRow d :=
  ⟨l.placed, l.exit?, l.op.regions.map fun p =>
    (⟨l.placed.path.enter p.1, p.2⟩, (l.context.descend l.index p.1 p.2).exit)⟩

theorem Op.flow_eq (path : OpPath) (next : Point) (o : Op d) :
    o.flow path next =
      ⟨⟨path, o⟩, if o.fallsThrough then some next else none,
        o.regions.map fun p => (⟨path.enter p.1, p.2⟩, next)⟩ ::
      o.regions.flatMap fun p => sequenceFlow (path.enter p.1) 0 next p.2 := by
  cases o <;> simp [Op.flow, Op.regions, Op.fallsThrough]

theorem Context.successor_eq_followedBy {c : Context d} {i : Nat} {o : Op d} {rest : List (Op d)}
    (hs : c.ops.drop i = o :: rest) : c.successor i = followedBy ⟨c.path, i + 1⟩ c.exit rest := by
  have hnext : c.ops[i + 1]? = rest.head? := by
    rw [← (getElem?_of_drop hs).2, List.head?_drop]
  rw [c.successor_eq_point]
  cases rest with
  | nil => exact Context.point_of_none hnext
  | cons e rest => exact Context.point_of_some hnext

theorem sequenceFlow_eq {c : Context d} {i : Nat} {s : List (Op d)} (hs : c.ops.drop i = s)
    (ho : ∀ e ∈ s, ∀ j,
      (preorderOf c j e).map Located.flowRow = e.flow ⟨c.path, j⟩ (c.successor j)) :
    (preorderFrom c i s).map Located.flowRow = sequenceFlow c.path i c.exit s := by
  induction s generalizing i with
  | nil => rfl
  | cons o rest ih =>
    rw [List.forall_mem_cons] at ho
    rw [preorderFrom, List.map_append, ho.1 i, ih (getElem?_of_drop hs).2 ho.2, sequenceFlow,
      Context.successor_eq_followedBy hs]

/-- Below any context, the answers in the order of the walk are the rows of the pass. -/
theorem preorderOf_flowRow (o : Op d) : ∀ (c : Context d) (i : Nat),
    (preorderOf c i o).map Located.flowRow = o.flow ⟨c.path, i⟩ (c.successor i) := by
  induction o using Op.region_induction with
  | step o ih =>
    intro c i
    -- A region completes where its owner does, so the pass gives it the exit of its own context.
    have hregions : ∀ p ∈ o.regions, (c.descend i p.1 p.2).preorder.map Located.flowRow =
        sequenceFlow (OpPath.enter ⟨c.path, i⟩ p.1) 0 (c.successor i) p.2 :=
      fun p hp => sequenceFlow_eq (c := c.descend i p.1 p.2) rfl fun e he j => ih p hp e he _ j
    rw [preorderOf_eq, Op.flow_eq, List.map_cons, List.map_flatMap]
    congr 1
    exact List.flatMap_congr hregions

theorem Program.map_flowRow (p : Program d) (h : Home) :
    (p.operations h).map Located.flowRow = p.flow h := by
  rw [operations_eq]
  exact sequenceFlow_eq (c := p.context h) rfl fun e _ j => preorderOf_flowRow e _ j

theorem Program.flow_nodup (p : Program d) (h : Home) :
    ((p.flow h).map fun r => r.op.path).Nodup := by
  rw [← map_flowRow, List.map_map]
  exact operations_paths_nodup p h

/-- Successor queries agree with the pass.  Along the walk they give its rows one by one; and in any
context that navigation gets to, the successor of an element is that of the one row for the element,
and each region of the element completes at the continuation in that row, which is where the element
itself completes. -/
theorem Program.successors_eq_flow (p : Program d) (h : Home) :
    (p.operations h).map Located.flowRow = p.flow h ∧
    ((p.flow h).map fun r => r.op.path).Nodup ∧
    ∀ c, p.Navigates h c → ∀ i o, c.get? i = some o →
      ∃ r ∈ p.flow h, r.op = o ∧ c.exitOf o = .ok r.successor? ∧
        r.regions.map Prod.fst = o.regions.map Prod.snd ∧
        ∀ x ∈ r.regions, r.successor? = some x.2 ∧
          ∃ c', c.enter o x.1 = .ok c' ∧ c'.sequence = x.1 ∧ c'.exit = x.2 := by
  refine ⟨p.map_flowRow h, p.flow_nodup h, ?_⟩
  intro c hc i o ho
  obtain ⟨l, hl, rfl, rfl, rfl⟩ := located_of_get? hc ho
  have hrow : l.flowRow ∈ p.flow h := by
    rw [← map_flowRow]
    exact List.mem_map_of_mem hl
  refine ⟨_, hrow, rfl, Located.exitOf_placed hl, ?_, ?_⟩
  · simp [Located.flowRow, PlacedOp.regions, Located.placed]
  · intro x hx
    obtain ⟨⟨r, s⟩, hr, rfl⟩ := List.mem_map.mp hx
    have hf : l.op.fallsThrough = true := Op.fallsThrough_of_region hr
    have henter : l.context.enter l.placed ⟨l.placed.path.enter r, s⟩ =
        .ok (l.context.descend l.index r s) :=
      Context.enter_element (mem_operations.mp hl).2 hr
    exact ⟨by simp [Located.flowRow, Located.exit?, hf], _, henter, rfl, rfl⟩

theorem Program.successors_eq_flow_sample :
    sample.Navigates .main sampleScope ∧
    sampleScope.get? 1 = some ⟨⟨sampleScope.path, 1⟩, .scope rfl []⟩ ∧
    ∃ r ∈ sample.flow .main, r.op = ⟨⟨sampleScope.path, 1⟩, .scope rfl []⟩ ∧
      sampleScope.exitOf ⟨⟨sampleScope.path, 1⟩, .scope rfl []⟩ = .ok r.successor? := by
  have hc : sample.Navigates .main sampleScope := navigates_iff_below.mpr sampleScope_below
  have ho : sampleScope.get? 1 = some ⟨⟨sampleScope.path, 1⟩, .scope rfl []⟩ := rfl
  obtain ⟨r, hr, hop, hexit, -⟩ := (successors_eq_flow sample .main).2.2 _ hc 1 _ ho
  exact ⟨hc, ho, r, hr, hop, hexit⟩

end RegionFlow

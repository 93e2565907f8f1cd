import Mathlib.Data.List.Perm.Basic
import Mathlib.Data.Nat.Basic
import Mathlib.Order.Basic
import RegionFlow.Proofs.Shape.Likeness
import RegionFlow.Proofs.Symmetry.Exchange
set_option autoImplicit false

namespace RegionFlow

variable {d : Dialect} {x : Exchange}

namespace Context

def exchangeFrames (x : Exchange) (root : PlacedSequence d) : List (Frame d) → List (Frame d)
  | [] => []
  | f :: outer =>
    let owner : OpPath := ⟨(Context.mk root outer).path, f.owner⟩
    ⟨f.owner, x.region owner f.region, exchangeFrom x (owner.enter f.region) 0 f.ops⟩ ::
      exchangeFrames x root outer

def exchange (x : Exchange) (c : Context d) : Context d :=
  ⟨⟨c.root.path.exchange x, exchangeFrom x c.root.path 0 c.root.ops⟩,
    exchangeFrames x c.root c.frames⟩

theorem exchange_descend (c : Context d) (i : Nat) (r : Region) (s : Sequence d) :
    (c.descend i r s).exchange x = (c.exchange x).descend i (x.region ⟨c.path, i⟩ r)
      (exchangeFrom x (OpPath.enter ⟨c.path, i⟩ r) 0 s) := rfl

theorem path_exchange (c : Context d) : (c.exchange x).path = c.path.exchange x := by
  induction c using descend_induction with
  | root s => rfl
  | region c i r s ih =>
    rw [exchange_descend, path_descend, path_descend, ih]
    rfl

theorem depth_exchange (c : Context d) : (c.exchange x).depth = c.depth := by
  induction c using descend_induction with
  | root s => rfl
  | region c i r s ih => rw [exchange_descend, depth_descend, depth_descend, ih]

theorem ops_exchange (c : Context d) :
    (c.exchange x).ops = exchangeFrom x c.path 0 c.ops := by
  cases c using descend_induction with
  | root s => rfl
  | region c i r s => rfl

theorem getElem?_exchange (c : Context d) (i : Nat) :
    (c.exchange x).ops[i]? = c.ops[i]?.map (Op.exchange x ⟨c.path, i⟩) := by
  rw [ops_exchange, getElem?_exchangeFrom, Nat.zero_add]

theorem opPath_exchange (c : Context d) (i : Nat) :
    (⟨(c.exchange x).path, i⟩ : OpPath) = OpPath.exchange x ⟨c.path, i⟩ := by
  rw [path_exchange]
  rfl

theorem point_of_exit {c : Context d} (hexit : (c.exchange x).exit = c.exit.exchange x) (i : Nat) :
    (c.exchange x).point i = (c.point i).exchange x := by
  refine point_of_rel hexit ?_
  rw [getElem?_exchange, opPath_exchange]
  cases c.ops[i]? with
  | none => exact .none
  | some o => exact .some (entryOf_exchange o _)

theorem exit_exchange (c : Context d) : (c.exchange x).exit = c.exit.exchange x := by
  induction c using descend_induction with
  | root s => rfl
  | region c i r s ih =>
    rw [exchange_descend, exit_descend, exit_descend, successor_eq_point, successor_eq_point]
    exact point_of_exit ih _

theorem successor_exchange (c : Context d) (i : Nat) :
    (c.exchange x).successor i = (c.successor i).exchange x := by
  rw [successor_eq_point, successor_eq_point, point_of_exit c.exit_exchange]

end Context

theorem Op.isLoop_exchange (path : OpPath) (o : Op d) :
    (o.exchange x path).isLoop = o.isLoop := by
  rw [isLoop_eq_shape, isLoop_eq_shape, shape_exchange]

theorem Op.fallsThrough_exchange (path : OpPath) (o : Op d) :
    (o.exchange x path).fallsThrough = o.fallsThrough := by
  rw [fallsThrough_eq_shape, fallsThrough_eq_shape, shape_exchange]

theorem Op.absorbs_exchange (path : OpPath) (o : Op d) :
    (o.exchange x path).absorbs = o.absorbs := by
  cases o with
  | conditional c t e =>
    rw [exchange]
    split <;> rfl
  | whileLoop c b => exact sequenceEscapes_exchangeFrom fun e _ => e.escapes_exchange
  | _ => rfl

/-- The innermost loop is the same one, whichever arms are entered on the way. -/
theorem Context.Below.loop_exchange {p : Program d} {h : Home} {c : Context d}
    (hc : (p.context h).Below c) :
    (c.exchange x).breakTarget? = c.breakTarget?.map (Point.exchange x) ∧
      (c.exchange x).loopHeader? = c.loopHeader?.map (Point.exchange x) := by
  refine loops_of_rel ?_
  induction hc with
  | here => exact .none
  | @region c i o r s _ ho _ ih =>
    have ho' := c.getElem?_exchange (x := x) i
    rw [ho, Option.map_some] at ho'
    -- An owner is a loop before and after, so the search outwards stops at the same place.
    rw [exchange_descend, enclosingLoop?_descend r s ho, enclosingLoop?_descend _ _ ho',
      Op.isLoop_exchange]
    split
    · refine .some ⟨c.successor_exchange i, ?_⟩
      rw [opPath_exchange]
      exact entryOf_exchange o _
    · exact ih

namespace Located

def exchange (x : Exchange) (l : Located d) : Located d :=
  ⟨l.context.exchange x, l.index, l.op.exchange x l.placed.path⟩

/-- What the queries answer about an operation, and what they answer about another one that stands
in its stead after an exchange. -/
structure AnswersExchanged (x : Exchange) (l m : Located d) : Prop where
  path : m.placed.path = l.placed.path.exchange x
  kind : m.op.kind = l.op.kind
  depth : m.depth = l.depth
  escapes : m.op.escapes = l.op.escapes
  entry : m.entry = l.entry.exchange x
  exit? : m.exit? = l.exit?.map (Point.exchange x)
  breakTarget? : m.context.breakTarget? = l.context.breakTarget?.map (Point.exchange x)
  loopHeader? : m.context.loopHeader? = l.context.loopHeader?.map (Point.exchange x)

theorem path_exchange (l : Located d) :
    (l.exchange x).placed.path = l.placed.path.exchange x := l.context.opPath_exchange l.index

theorem answersExchanged {p : Program d} {h : Home} {l : Located d} (hl : l ∈ p.operations h) :
    l.AnswersExchanged x (l.exchange x) where
  path := l.path_exchange
  kind := Op.kind_exchange _ _
  depth := l.context.depth_exchange
  escapes := l.op.escapes_exchange _
  entry := by
    rw [entry, PlacedOp.entry, path_exchange]
    exact entryOf_exchange l.op _
  exit? := by
    simp only [exit?, exchange, Op.fallsThrough_exchange, l.context.successor_exchange]
    split
    · rfl
    · rfl
  breakTarget? := (Program.mem_operations.mp hl).1.loop_exchange.1
  loopHeader? := (Program.mem_operations.mp hl).1.loop_exchange.2

end Located

theorem preorderFrom_exchange {c : Context d} {i : Nat} {s : Sequence d}
    (hs : ∀ e ∈ s, ∀ j, ((preorderOf c j e).map (Located.exchange x)).Perm
      (preorderOf (c.exchange x) j (e.exchange x ⟨c.path, j⟩))) :
    ((preorderFrom c i s).map (Located.exchange x)).Perm
      (preorderFrom (c.exchange x) i (exchangeFrom x c.path i s)) := by
  induction s generalizing i with
  | nil => exact .nil
  | cons o s ih =>
    rw [List.forall_mem_cons] at hs
    rw [preorderFrom, List.map_append, exchangeFrom, preorderFrom]
    exact (hs.1 i).append (ih hs.2)

/-- The tree of an operation holds the same operations after an exchange; only those in exchanged
arms are met in another order. -/
theorem preorderOf_exchange (o : Op d) : ∀ (c : Context d) (i : Nat),
    ((preorderOf c i o).map (Located.exchange x)).Perm
      (preorderOf (c.exchange x) i (o.exchange x ⟨c.path, i⟩)) := by
  induction o using Op.region_induction with
  | step o ih =>
    intro c i
    have hregion : ∀ p ∈ o.regions,
        ((c.descend i p.1 p.2).preorder.map (Located.exchange x)).Perm
          ((c.descend i p.1 p.2).exchange x).preorder := by
      intro p hp
      rw [Context.preorder, Context.preorder, Context.ops_exchange]
      exact preorderFrom_exchange fun e he j => ih p hp e he _ j
    have hregions := (Op.regions_exchange (x := x) ⟨c.path, i⟩ o).flatMap_right
      fun p => ((c.exchange x).descend i p.1 p.2).preorder
    rw [List.flatMap_map] at hregions
    -- First the walk through each region changes its order, then the regions change places.
    rw [preorderOf_eq, preorderOf_eq, List.map_cons, List.map_flatMap]
    exact .cons _ ((List.Perm.flatMap_left _ hregion).trans hregions.symm)

namespace Program

variable (p : Program d) (h : Home)

theorem operations_exchange :
    ((p.operations h).map (Located.exchange x)).Perm ((p.exchange x h).operations h) := by
  rw [operations_eq, operations_eq]
  exact preorderFrom_exchange fun e _ j => preorderOf_exchange e _ j

theorem count_exchange : countSequence (p.exchange x h).body = countSequence p.body := by
  rw [← length_operations _ h, ← (p.operations_exchange h).length_eq, List.length_map,
    length_operations]

theorem nesting_exchange : (p.exchange x h).nesting = p.nesting := by
  apply eq_of_forall_ge_iff
  intro n
  rw [nesting_le_iff h, nesting_le_iff h]
  constructor
  · intro hall l hl
    have hmem := (p.operations_exchange (x := x) h).mem_iff.mp (List.mem_map_of_mem hl)
    rw [← (Located.answersExchanged (x := x) hl).depth]
    exact hall _ hmem
  · intro hall m hm
    obtain ⟨l, hl, rfl⟩ := List.mem_map.mp ((p.operations_exchange h).mem_iff.mpr hm)
    rw [(Located.answersExchanged hl).depth]
    exact hall l hl

theorem countP_exchange {q : Op d → Bool}
    (hq : ∀ (path : OpPath) (o : Op d), q (o.exchange x path) = q o) :
    ((p.exchange x h).operations .main).countP (fun l => q l.op) =
      (p.operations .main).countP fun l => q l.op := by
  have hperm := (p.operations_exchange (x := x) h).countP_eq fun l => q l.op
  have hsame : (fun l : Located d => q l.op) ∘ Located.exchange x = fun l => q l.op :=
    funext fun l => hq _ _
  rw [List.countP_map, hsame] at hperm
  rw [countP_operations, ← countP_operations _ h, ← hperm, countP_operations, countP_operations]

theorem summarize_exchange : (p.exchange x h).summarize = p.summarize := by
  rw [summarize_eq, summarize_eq, escapes_exchange, p.countP_exchange h Op.isLoop_exchange,
    p.countP_exchange h Op.absorbs_exchange]

theorem validate_exchange (s : Config.Settings) :
    (p.exchange x h).validate s = p.validate s := by
  rw [validate_eq, validate_eq, nesting_exchange, count_exchange, summarize_exchange,
    escapes_exchange]

/-- The arms of conditionals are alike.  If the two arms are exchanged in any set of conditionals,
at whatever depths, then every validation has the same report or the same error.  A walk hands out
the same operations in some order, each as deep as before and escaping or not as before; and its
place, its entry, its successor, its break target and loop header are what they were, with the names
of the arms exchanged on the way wherever it goes through one of the conditionals. -/
theorem arms_symmetric (x : Exchange) (p : Program d) (h : Home) :
    (∀ s, (p.exchange x h).validate s = p.validate s) ∧
    ((p.operations h).map (Located.exchange x)).Perm ((p.exchange x h).operations h) ∧
    (∀ l ∈ p.operations h, l.AnswersExchanged x (l.exchange x)) ∧
    (p.exchange x h).entry h = (p.entry h).exchange x ∧
    (p.exchange x h).exit h = (p.exit h).exchange x := by
  refine ⟨p.validate_exchange h, p.operations_exchange h, fun l hl => l.answersExchanged hl, ?_,
    rfl⟩
  have hexchange : (p.context h).exchange x = (p.exchange x h).context h := rfl
  rw [entry_eq_point, entry_eq_point, ← hexchange,
    Context.point_of_exit (p.context h).exit_exchange]

/-- With the arms of its conditional exchanged, the sample has its break in the then arm; it still
leaves the loop for the scope behind it. -/
theorem arms_symmetric_sample :
    let x : Exchange := fun path => path == ⟨sampleScope.path, 0⟩
    let arm : SequencePath := ⟨.main, [⟨0, .thenArm⟩, ⟨0, .body⟩, ⟨0, .body⟩]⟩
    sampleBreak ∈ sample.operations .main ∧
    sampleBreak.exchange x ∈ (sample.exchange x .main).operations .main ∧
    (sampleBreak.exchange x).entry = .entry ⟨arm, 0⟩ ∧
    (sampleBreak.exchange x).context.breakTarget? = some (.entry ⟨⟨.main, [⟨1, .body⟩]⟩, 0⟩) ∧
    (sample.exchange x .main).validate (.ofPreset .strict) =
      sample.validate (.ofPreset .strict) := by
  intro x arm
  obtain ⟨hvalidate, hperm, hanswers, -⟩ := arms_symmetric x sample .main
  have hbreak := hanswers sampleBreak sampleBreak_mem
  exact ⟨sampleBreak_mem, hperm.mem_iff.mp (List.mem_map_of_mem sampleBreak_mem),
    hbreak.entry.trans (by decide), hbreak.breakTarget?.trans (by decide), hvalidate _⟩

end Program

end RegionFlow

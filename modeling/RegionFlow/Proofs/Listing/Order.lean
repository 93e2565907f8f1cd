import Mathlib.Data.List.Perm.Basic
import RegionFlow.Proofs.Flow.Navigation
import RegionFlow.Proofs.Listing.Program
set_option autoImplicit false

namespace RegionFlow

variable {d : Dialect}

def Located.headerLine (l : Located d) : Line := .header l.depth l.op.header

def Op.hasElse : Op d → Bool
  | .conditional _ _ e => !e.isEmpty
  | _ => false

/-- The lines of an operation that are not lines of its regions, and not its header. -/
def Op.marks (n : Nat) (o : Op d) : List Line :=
  (if o.hasElse then [.otherwise n] else []) ++ if o.regions.isEmpty then [] else [.close n]

def Located.ownLines (l : Located d) : List Line := l.headerLine :: l.op.marks l.depth

theorem Op.filter_blockLines (n : Nat) (o : Op d) : (o.blockLines n).filter Line.isHeader =
    o.regions.flatMap fun p => (sequenceLines (n + 1) p.2).filter Line.isHeader := by
  cases o with
  | conditional c t e =>
    cases e with
    | nil => simp [blockLines, regions, sequenceLines, Line.isHeader]
    | cons o e => simp [blockLines, regions, Line.isHeader]
  | whileLoop c b => simp [blockLines, regions, Line.isHeader]
  | scope g b => simp [blockLines, regions, Line.isHeader]
  | _ => rfl

theorem sequenceLines_headers_of {c : Context d} {i : Nat} {s : Sequence d}
    (hs : ∀ e ∈ s, ∀ j, (e.lines c.depth).filter Line.isHeader =
      (preorderOf c j e).map Located.headerLine) :
    (sequenceLines c.depth s).filter Line.isHeader =
      (preorderFrom c i s).map Located.headerLine := by
  induction s generalizing i with
  | nil => rfl
  | cons o s ih =>
    rw [List.forall_mem_cons] at hs
    rw [sequenceLines, preorderFrom, List.filter_append, List.map_append, hs.1 i, ih hs.2]

theorem Op.lines_headers (o : Op d) : ∀ (c : Context d) (i : Nat),
    (o.lines c.depth).filter Line.isHeader = (preorderOf c i o).map Located.headerLine := by
  induction o using Op.region_induction with
  | step o ih =>
    intro c i
    have hregion : ∀ p ∈ o.regions, (sequenceLines (c.depth + 1) p.2).filter Line.isHeader =
        (c.descend i p.1 p.2).preorder.map Located.headerLine :=
      fun p hp => sequenceLines_headers_of fun e he j => ih p hp e he (c.descend i p.1 p.2) j
    rw [lines_eq, List.filter_cons_of_pos rfl, filter_blockLines, preorderOf_eq, List.map_cons,
      List.map_flatMap, List.flatMap_congr hregion]
    rfl

theorem sequenceLines_headers (c : Context d) (i : Nat) (s : Sequence d) :
    (sequenceLines c.depth s).filter Line.isHeader =
      (preorderFrom c i s).map Located.headerLine :=
  sequenceLines_headers_of fun e _ j => e.lines_headers c j

theorem Op.blockLines_perm (n : Nat) (o : Op d) :
    (o.blockLines n).Perm
      ((o.regions.flatMap fun p => sequenceLines (n + 1) p.2) ++ o.marks n) := by
  cases o with
  | conditional c t e =>
    cases e with
    | nil => simp [blockLines, regions, marks, hasElse, sequenceLines]
    | cons o e =>
      simp only [blockLines, regions, marks, hasElse, List.isEmpty_cons, Bool.false_eq_true,
        if_false, Bool.not_false, if_true, List.flatMap_cons, List.flatMap_nil, List.append_nil,
        List.append_assoc, List.cons_append, List.nil_append]
      exact List.Perm.append_left _ List.perm_middle.symm
  | whileLoop c b => simp [blockLines, regions, marks, hasElse]
  | scope g b => simp [blockLines, regions, marks, hasElse]
  | _ => simp [blockLines, regions, marks, hasElse]

theorem sequenceLines_perm {c : Context d} {i : Nat} {s : Sequence d}
    (hs : ∀ e ∈ s, ∀ j, (e.lines c.depth).Perm ((preorderOf c j e).flatMap Located.ownLines)) :
    (sequenceLines c.depth s).Perm ((preorderFrom c i s).flatMap Located.ownLines) := by
  induction s generalizing i with
  | nil => exact .nil
  | cons o s ih =>
    rw [List.forall_mem_cons] at hs
    rw [sequenceLines, preorderFrom, List.flatMap_append]
    exact (hs.1 i).append (ih hs.2)

/-- Up to their order, the lines of an operation are those that the operations in its tree have of
their own. -/
theorem Op.lines_perm (o : Op d) : ∀ (c : Context d) (i : Nat),
    (o.lines c.depth).Perm ((preorderOf c i o).flatMap Located.ownLines) := by
  induction o using Op.region_induction with
  | step o ih =>
    intro c i
    have hregion : ∀ p ∈ o.regions, (sequenceLines (c.depth + 1) p.2).Perm
        ((c.descend i p.1 p.2).preorder.flatMap Located.ownLines) :=
      fun p hp => sequenceLines_perm fun e he j => ih p hp e he (c.descend i p.1 p.2) j
    have hregions := List.Perm.flatMap_left o.regions hregion
    rw [lines_eq, preorderOf_eq, List.flatMap_cons, List.flatMap_assoc]
    refine .cons _ ((o.blockLines_perm c.depth).trans ?_)
    exact List.perm_append_comm.trans (hregions.append_left _)

theorem length_flatMap_ownLines (ls : List (Located d)) :
    (ls.flatMap Located.ownLines).length = ls.length +
      (ls.countP fun l => !l.op.regions.isEmpty) + ls.countP fun l => l.op.hasElse := by
  induction ls with
  | nil => rfl
  | cons l ls ih =>
    simp only [List.flatMap_cons, List.length_append, ih, Located.ownLines, Op.marks,
      List.length_cons, List.countP_cons]
    cases l.op.hasElse <;> cases l.op.regions.isEmpty <;> simp <;> omega

/-- Lines that list what is below a context: none is further to the left than the context is deep,
and the headers among them are the operations that a walk from there hands out. -/
structure Context.ListedBy (c : Context d) (ls : List Line) : Prop where
  depth_le : ∀ x ∈ ls, c.depth ≤ x.depth
  headers : ls.filter Line.isHeader = (Walk.start c).toList.map Located.headerLine

/-- The lines after the header of an operation, as far as they belong to it: the lines of its
regions, an else line between two arms if the second has an element, and an end line after all
regions. -/
inductive Located.Block (l : Located d) : List Line → Prop where
  | bare (h : l.op.regions = []) : l.Block []
  | body {s : Sequence d} {ls : List Line} (h : l.op.regions = [(.body, s)])
      (hs : (l.context.descend l.index .body s).ListedBy ls) : l.Block (ls ++ [.close l.depth])
  | thenArm {t : Sequence d} {ls : List Line} (h : l.op.regions = [(.thenArm, t), (.elseArm, [])])
      (ht : (l.context.descend l.index .thenArm t).ListedBy ls) : l.Block (ls ++ [.close l.depth])
  | arms {t e : Sequence d} {ls ms : List Line} (h : l.op.regions = [(.thenArm, t), (.elseArm, e)])
      (he : e ≠ []) (ht : (l.context.descend l.index .thenArm t).ListedBy ls)
      (hs : (l.context.descend l.index .elseArm e).ListedBy ms) :
      l.Block (ls ++ .otherwise l.depth :: (ms ++ [.close l.depth]))

theorem Op.le_depth_of_mem_lines (o : Op d) : ∀ n, ∀ x ∈ o.lines n, n ≤ x.depth := by
  induction o using Op.region_induction with
  | step o ih =>
    intro n x hx
    rw [lines_eq] at hx
    rcases List.mem_cons.mp hx with rfl | hx
    · exact Nat.le_refl n
    · rcases mem_blockLines hx with ⟨p, hp, hx⟩ | rfl | rfl
      · obtain ⟨e, he, hx⟩ := mem_sequenceLines hx
        exact Nat.le_of_succ_le (ih p hp e he (n + 1) x hx)
      · exact Nat.le_refl n
      · exact Nat.le_refl n

theorem Context.listedBy (c : Context d) : c.ListedBy (sequenceLines c.depth c.ops) where
  depth_le := by
    intro x hx
    obtain ⟨o, -, hx⟩ := mem_sequenceLines hx
    exact o.le_depth_of_mem_lines c.depth x hx
  headers := by
    rw [Walk.toList_start]
    exact sequenceLines_headers c 0 c.ops

theorem Located.block (l : Located d) : l.Block (l.op.blockLines l.depth) := by
  have hlisted : ∀ r s, (l.context.descend l.index r s).ListedBy (sequenceLines (l.depth + 1) s) :=
    fun r s => (l.context.descend l.index r s).listedBy
  obtain ⟨c, i, o⟩ := l
  cases o with
  | conditional f t e =>
    cases e with
    | nil =>
      have hblock := Block.thenArm (l := ⟨c, i, .conditional f t []⟩) rfl (hlisted .thenArm t)
      simpa [Op.blockLines] using hblock
    | cons o e =>
      have hblock := Block.arms (l := ⟨c, i, .conditional f t (o :: e)⟩) rfl (List.cons_ne_nil o e)
        (hlisted .thenArm t) (hlisted .elseArm (o :: e))
      simpa [Op.blockLines] using hblock
  | whileLoop f b => exact .body rfl (hlisted .body b)
  | scope g b => exact .body rfl (hlisted .body b)
  | _ => exact .bare rfl

theorem Op.blockLines_split {o : Op d} {r : Region} {s : Sequence d} (hr : (r, s) ∈ o.regions)
    (n : Nat) : ∃ before after pre post, o.regions = before ++ (r, s) :: after ∧
      o.blockLines n = pre ++ (sequenceLines (n + 1) s ++ post) ∧ pre.filter Line.isHeader =
        before.flatMap fun p => (sequenceLines (n + 1) p.2).filter Line.isHeader := by
  cases o with
  | conditional c t e =>
    simp only [regions, List.mem_cons, List.not_mem_nil, or_false, Prod.mk.injEq] at hr
    rcases hr with ⟨rfl, rfl⟩ | ⟨rfl, rfl⟩
    · exact ⟨[], [(.elseArm, e)], [], _, rfl, List.append_assoc _ _ _, rfl⟩
    · refine ⟨[(.thenArm, t)], [], sequenceLines (n + 1) t ++
        if s.isEmpty then [] else [.otherwise n], [.close n], rfl, ?_, ?_⟩
      · cases s with
        | nil => simp [blockLines, sequenceLines]
        | cons o s => simp [blockLines]
      · cases s with
        | nil => simp
        | cons o s => simp [Line.isHeader]
  | whileLoop c b =>
    obtain ⟨rfl, rfl⟩ := Prod.mk.inj (List.mem_singleton.mp hr)
    exact ⟨[], [], [], [.close n], rfl, rfl, rfl⟩
  | scope g b =>
    obtain ⟨rfl, rfl⟩ := Prod.mk.inj (List.mem_singleton.mp hr)
    exact ⟨[], [], [], [.close n], rfl, rfl, rfl⟩
  | _ => simp [regions] at hr

theorem sequenceLines_append (n : Nat) (s t : Sequence d) :
    sequenceLines n (s ++ t) = sequenceLines n s ++ sequenceLines n t := by
  induction s with
  | nil => rfl
  | cons o s ih => rw [List.cons_append, sequenceLines, sequenceLines, ih, List.append_assoc]

namespace Context

variable {base c : Context d}

theorem lines_split {i : Nat} {o : Op d} (ho : c.ops[i]? = some o) : ∃ before after pre post,
    c.preorder = before ++ (preorderOf c i o ++ after) ∧
    sequenceLines c.depth c.ops = pre ++ (o.lines c.depth ++ post) ∧
    pre.filter Line.isHeader = before.map Located.headerLine := by
  refine ⟨_, _, sequenceLines c.depth (c.ops.take i), sequenceLines c.depth (c.ops.drop (i + 1)),
    preorder_split ho, ?_, sequenceLines_headers c 0 _⟩
  conv_lhs => rw [← List.take_append_drop i c.ops, sequenceLines_append, drop_eq_cons ho,
    sequenceLines]

/-- The lines of a region on the way down, and the walk to it. -/
theorem Below.lines_split (h : base.Below c) : ∃ before after pre post,
    base.preorder = before ++ (c.preorder ++ after) ∧
    sequenceLines base.depth base.ops = pre ++ (sequenceLines c.depth c.ops ++ post) ∧
    pre.filter Line.isHeader = before.map Located.headerLine := by
  induction h with
  | here => exact ⟨[], [], [], [], by simp, by simp, rfl⟩
  | @region c i o r s _ ho hr ih =>
    obtain ⟨before, after, pre, post, hwalk, hlines, hpre⟩ := ih
    obtain ⟨before', after', pre', post', hwalk', hlines', hpre'⟩ := Context.lines_split ho
    obtain ⟨rs, rs', pre'', post'', hregions, hblock, hpre''⟩ := Op.blockLines_split hr c.depth
    have hheaders : pre''.filter Line.isHeader =
        (rs.flatMap fun p => (c.descend i p.1 p.2).preorder).map Located.headerLine := by
      rw [hpre'', List.map_flatMap]
      exact List.flatMap_congr fun p _ => sequenceLines_headers (c.descend i p.1 p.2) 0 p.2
    refine ⟨before ++ (before' ++ ⟨c, i, o⟩ ::
        rs.flatMap fun p => (c.descend i p.1 p.2).preorder),
      (rs'.flatMap fun p => (c.descend i p.1 p.2).preorder) ++ (after' ++ after),
      pre ++ (pre' ++ Located.headerLine ⟨c, i, o⟩ :: pre''), post'' ++ (post' ++ post), ?_, ?_, ?_⟩
    · rw [hwalk, hwalk', preorderOf_eq, hregions]
      simp
    · rw [hlines, hlines', Op.lines_eq, hblock]
      simp [Located.headerLine, Located.depth]
    · rw [List.filter_append, List.filter_append, List.filter_cons_of_pos rfl, hpre, hpre',
        hheaders]
      simp

end Context

namespace Program

variable {p : Program d} {h : Home} {l : Located d}

theorem lines_at (hl : l ∈ p.operations h) : ∃ before after pre post,
    p.operations h = before ++ l :: after ∧
    sequenceLines 0 p.body = pre ++ l.headerLine :: (l.op.blockLines l.depth ++ post) ∧
    pre.filter Line.isHeader = before.map Located.headerLine := by
  obtain ⟨hbelow, ho⟩ := mem_operations.mp hl
  obtain ⟨before, after, pre, post, hwalk, hlines, hpre⟩ := hbelow.lines_split
  obtain ⟨before', after', pre', post', hwalk', hlines', hpre'⟩ := Context.lines_split ho
  refine ⟨before ++ before', (l.op.regions.flatMap fun p =>
      (l.context.descend l.index p.1 p.2).preorder) ++ (after' ++ after),
    pre ++ pre', post' ++ post, ?_, ?_, ?_⟩
  · rw [operations_eq, hwalk, hwalk', preorderOf_eq]
    simp
  · have hbody : sequenceLines 0 p.body =
        sequenceLines (p.context h).depth (p.context h).ops := rfl
    rw [hbody, hlines, hlines', Op.lines_eq]
    simp [Located.headerLine, Located.depth]
  · rw [List.filter_append, List.map_append, hpre, hpre']

/-- A listing and a walk describe one tree.  The text of a program is a row of lines, each with two
spaces for every level and a line feed.  The header lines are, in this order, the depths and headers
of the operations that a walk hands out.  The header of each operation is followed by the lines of
its regions and, if it has regions, an end line of its own depth right after them; between the arms
of a conditional is an else line of its depth exactly if the else arm has an element.  There are no
other lines, which gives their number. -/
theorem listing_follows_walk (p : Program d) (h : Home) :
    p.text.toList = (sequenceLines 0 p.body).flatMap
      (fun x => List.replicate (2 * x.depth) ' ' ++ (x.text.toList ++ ['\n'])) ∧
    (sequenceLines 0 p.body).filter Line.isHeader = (p.operations h).map Located.headerLine ∧
    (∀ l ∈ p.operations h, ∃ before after pre block post,
      p.operations h = before ++ l :: after ∧
      sequenceLines 0 p.body = pre ++ l.headerLine :: (block ++ post) ∧
      pre.filter Line.isHeader = before.map Located.headerLine ∧ l.Block block) ∧
    (sequenceLines 0 p.body).Perm ((p.operations h).flatMap Located.ownLines) ∧
    (sequenceLines 0 p.body).length = (p.operations h).length +
      ((p.operations h).countP fun l => !l.op.regions.isEmpty) +
      (p.operations h).countP fun l => l.op.hasElse := by
  have hperm : (sequenceLines 0 p.body).Perm ((p.operations h).flatMap Located.ownLines) := by
    rw [operations_eq]
    exact sequenceLines_perm (c := p.context h) fun e _ j => e.lines_perm (p.context h) j
  refine ⟨?_, ?_, ?_, hperm, ?_⟩
  · rw [text, sequenceText, String.toList_join, List.flatMap_map]
    refine List.flatMap_congr fun x _ => ?_
    rw [← x.toList_render [], List.append_nil]
  · exact (p.context h).listedBy.headers
  · intro l hl
    obtain ⟨before, after, pre, post, hwalk, hlines, hpre⟩ := lines_at hl
    exact ⟨before, after, pre, _, post, hwalk, hlines, hpre, l.block⟩
  · rw [hperm.length_eq, length_flatMap_ownLines]

theorem listing_follows_walk_sample :
    let arms : Located .imp :=
      ⟨sampleScope, 0, .conditional (.constant (.bool true)) [] [.breakLoop]⟩
    arms ∈ sample.operations .main ∧ arms.depth = 2 ∧ ∃ before after pre block post,
      sample.operations .main = before ++ arms :: after ∧
      sequenceLines 0 sample.body = pre ++ .header 2 "if true" :: (block ++ post) ∧
      pre.filter Line.isHeader = before.map Located.headerLine ∧ arms.Block block := by
  intro arms
  have hl : arms ∈ sample.operations .main := mem_operations.mpr ⟨sampleScope_below, rfl⟩
  exact ⟨hl, rfl, (listing_follows_walk sample .main).2.2.1 arms hl⟩

end Program

end RegionFlow

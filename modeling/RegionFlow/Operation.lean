import RegionFlow.Expression
set_option autoImplicit false

namespace RegionFlow

/-- The core dialect has flat blocks; the imp dialect adds scopes. -/
inductive Dialect where
  | core
  | imp
  deriving DecidableEq, Repr

def Dialect.name : Dialect → String
  | .core => "core"
  | .imp => "imp"

def Dialect.hasScopes : Dialect → Bool
  | .core => false
  | .imp => true

inductive Kind where
  | skip
  | assign
  | conditional
  | whileLoop
  | breakLoop
  | breakIteration
  | terminate
  | scope
  deriving DecidableEq, Repr

def Kind.name : Kind → String
  | .skip => "skip"
  | .assign => "assign"
  | .conditional => "conditional"
  | .whileLoop => "while_loop"
  | .breakLoop => "break_loop"
  | .breakIteration => "break_iteration"
  | .terminate => "terminate"
  | .scope => "scope"

def Dialect.breakKind : Dialect → Kind
  | .core => .breakLoop
  | .imp => .breakIteration

def Dialect.kinds : Dialect → List Kind
  | .core => [.skip, .assign, .conditional, .whileLoop, .breakLoop, .terminate]
  | .imp => [.skip, .assign, .conditional, .whileLoop, .breakIteration, .terminate, .scope]

def Dialect.kind? (d : Dialect) (name : String) : Option Kind :=
  d.kinds.find? fun k => k.name == name

inductive Region where
  | thenArm
  | elseArm
  | body
  deriving DecidableEq, Repr, Hashable

def Region.name : Region → String
  | .thenArm => "then"
  | .elseArm => "else"
  | .body => "body"

def Region.ofName? : String → Option Region
  | "then" => some .thenArm
  | "else" => some .elseArm
  | "body" => some .body
  | _ => none

inductive Shape where
  | atomic
  | terminate
  | break_
  | branch
  | loop
  | transparent
  deriving DecidableEq, Repr

def Shape.name : Shape → String
  | .atomic => "atomic"
  | .terminate => "terminate"
  | .break_ => "break"
  | .branch => "branch"
  | .loop => "loop"
  | .transparent => "transparent"

/-- The two dialects share one tree.  They differ in the name of the break, and only the imp dialect
has scopes. -/
inductive Op (d : Dialect) where
  | skip
  | assign (target : Variable) (value : Expression)
  | conditional (condition : Expression) (thenArm elseArm : List (Op d))
  | whileLoop (condition : Expression) (body : List (Op d))
  | breakLoop
  | terminate
  | scope (grouping : d.hasScopes = true) (body : List (Op d))

abbrev Sequence (d : Dialect) : Type := List (Op d)

namespace Op

variable {d : Dialect}

def scope? (body : Sequence d) : Option (Op d) :=
  if g : d.hasScopes = true then some (.scope g body) else none

def kind : Op d → Kind
  | .skip => .skip
  | .assign _ _ => .assign
  | .conditional _ _ _ => .conditional
  | .whileLoop _ _ => .whileLoop
  | .breakLoop => d.breakKind
  | .terminate => .terminate
  | .scope _ _ => .scope

def shape : Op d → Shape
  | .skip => .atomic
  | .assign _ _ => .atomic
  | .conditional _ _ _ => .branch
  | .whileLoop _ _ => .loop
  | .breakLoop => .break_
  | .terminate => .terminate
  | .scope _ _ => .transparent

def header : Op d → String
  | .skip => "skip"
  | .assign x e => x.name ++ " = " ++ e.text
  | .conditional c _ _ => "if " ++ c.text
  | .whileLoop c _ => "while " ++ c.text
  | .breakLoop => "break"
  | .terminate => "terminate"
  | .scope _ _ => "scope"

/-- The regions of the operation with their names, the then arm before the else arm. -/
def regions : Op d → List (Region × Sequence d)
  | .conditional _ t e => [(.thenArm, t), (.elseArm, e)]
  | .whileLoop _ b => [(.body, b)]
  | .scope _ b => [(.body, b)]
  | .skip => []
  | .assign _ _ => []
  | .breakLoop => []
  | .terminate => []

def region? (o : Op d) (r : Region) : Option (Sequence d) :=
  (o.regions.find? fun p => p.1 == r).map fun p => p.2

def isLoop : Op d → Bool
  | .whileLoop _ _ => true
  | _ => false

def isBreak : Op d → Bool
  | .breakLoop => true
  | _ => false

/-- Control leaves a terminate or a break by a jump; all else can run to its end. -/
def fallsThrough : Op d → Bool
  | .terminate => false
  | .breakLoop => false
  | _ => true

end Op

mutual

def Op.same {d : Dialect} : Op d → Op d → Bool
  | .skip, .skip => true
  | .assign x e, .assign y f => decide (x = y) && decide (e = f)
  | .conditional c t e, .conditional c' t' e' =>
      decide (c = c') && sameSequence t t' && sameSequence e e'
  | .whileLoop c b, .whileLoop c' b' => decide (c = c') && sameSequence b b'
  | .breakLoop, .breakLoop => true
  | .terminate, .terminate => true
  | .scope _ b, .scope _ b' => sameSequence b b'
  | _, _ => false

def sameSequence {d : Dialect} : List (Op d) → List (Op d) → Bool
  | [], [] => true
  | a :: as, b :: bs => a.same b && sameSequence as bs
  | _, _ => false

end

mutual

theorem Op.same_iff {d : Dialect} : ∀ a b : Op d, a.same b = true ↔ a = b
  | .skip, b => by cases b <;> simp [Op.same]
  | .assign x e, b => by cases b <;> simp [Op.same]
  | .conditional c t e, b => by
    cases b <;> simp [Op.same, sameSequence_iff t, sameSequence_iff e, and_assoc]
  | .whileLoop c s, b => by cases b <;> simp [Op.same, sameSequence_iff s]
  | .breakLoop, b => by cases b <;> simp [Op.same]
  | .terminate, b => by cases b <;> simp [Op.same]
  | .scope g s, b => by cases b <;> simp [Op.same, sameSequence_iff s]

theorem sameSequence_iff {d : Dialect} : ∀ s t : List (Op d), sameSequence s t = true ↔ s = t
  | [], t => by cases t <;> simp [sameSequence]
  | a :: s, t => by cases t <;> simp [sameSequence, Op.same_iff a, sameSequence_iff s]

end

instance {d : Dialect} : DecidableEq (Op d) := fun a b =>
  decidable_of_iff (a.same b = true) (Op.same_iff a b)

mutual

def Op.count {d : Dialect} : Op d → Nat
  | .conditional _ t e => 1 + countSequence t + countSequence e
  | .whileLoop _ b => 1 + countSequence b
  | .scope _ b => 1 + countSequence b
  | .skip => 1
  | .assign _ _ => 1
  | .breakLoop => 1
  | .terminate => 1

def countSequence {d : Dialect} : List (Op d) → Nat
  | [] => 0
  | o :: rest => o.count + countSequence rest

end

section

variable {d : Dialect}

mutual

/-- A property holds of every operation if it passes from the elements of all its regions to an
operation. -/
theorem Op.region_induction {motive : Op d → Prop}
    (step : ∀ o : Op d, (∀ p ∈ o.regions, ∀ e ∈ p.2, motive e) → motive o) :
    ∀ o : Op d, motive o
  | .conditional c t e => by
    apply step
    intro p hp
    simp only [Op.regions, List.mem_cons, List.not_mem_nil, or_false] at hp
    rcases hp with rfl | rfl
    · exact sequence_induction step t
    · exact sequence_induction step e
  | .whileLoop c b => by
    apply step
    intro p hp
    simp only [Op.regions, List.mem_cons, List.not_mem_nil, or_false] at hp
    subst hp
    exact sequence_induction step b
  | .scope g b => by
    apply step
    intro p hp
    simp only [Op.regions, List.mem_cons, List.not_mem_nil, or_false] at hp
    subst hp
    exact sequence_induction step b
  | .skip => step _ (by simp [Op.regions])
  | .assign _ _ => step _ (by simp [Op.regions])
  | .breakLoop => step _ (by simp [Op.regions])
  | .terminate => step _ (by simp [Op.regions])

theorem sequence_induction {motive : Op d → Prop}
    (step : ∀ o : Op d, (∀ p ∈ o.regions, ∀ e ∈ p.2, motive e) → motive o) :
    ∀ s : List (Op d), ∀ e ∈ s, motive e
  | [] => by simp
  | o :: rest => by
    rw [List.forall_mem_cons]
    exact ⟨Op.region_induction step o, sequence_induction step rest⟩

end

/-- The name of a region determines the region. -/
theorem Op.regions_functional {o : Op d} {r : Region} {s t : Sequence d}
    (hs : (r, s) ∈ o.regions) (ht : (r, t) ∈ o.regions) : s = t := by
  cases o <;> simp [Op.regions] at hs ht
  case conditional =>
    rcases hs with ⟨rfl, rfl⟩ | ⟨rfl, rfl⟩ <;> simp at ht <;> exact ht.symm
  case whileLoop => rw [hs.2, ht.2]
  case scope => rw [hs.2, ht.2]

theorem Op.region?_eq_some_iff {o : Op d} {r : Region} {s : Sequence d} :
    o.region? r = some s ↔ (r, s) ∈ o.regions := by
  cases o with
  | conditional => cases r <;> simp [region?, regions, @eq_comm _ s]
  | whileLoop => cases r <;> simp [region?, regions, @eq_comm _ s]
  | scope => cases r <;> simp [region?, regions, @eq_comm _ s]
  | _ => simp [region?, regions]

theorem Op.regions_pairwise (o : Op d) : o.regions.Pairwise fun p q => p.1 ≠ q.1 := by
  cases o <;> simp [Op.regions]

theorem Op.body_mem_regions (g : d.hasScopes = true) (b : Sequence d) :
    (.body, b) ∈ (Op.scope g b).regions := List.mem_singleton.mpr rfl

theorem Op.region_of_scope {g : d.hasScopes = true} {b s : Sequence d} {r : Region}
    (hr : (r, s) ∈ (Op.scope g b).regions) : r = .body ∧ s = b :=
  Prod.mk.inj (List.mem_singleton.mp hr)

theorem Op.eq_scope {o : Op d} (hs : o.shape = .transparent) : ∃ g b, o = .scope g b := by
  cases o <;> simp [Op.shape] at hs
  case scope g b => exact ⟨g, b, rfl⟩

theorem Op.fallsThrough_of_region {o : Op d} {p : Region × Sequence d} (hp : p ∈ o.regions) :
    o.fallsThrough = true := by
  cases o <;> simp [Op.regions, Op.fallsThrough] at hp ⊢

theorem countSequence_append (s t : Sequence d) :
    countSequence (s ++ t) = countSequence s + countSequence t := by
  induction s with
  | nil => simp [countSequence]
  | cons o s ih => simp [countSequence, ih, Nat.add_assoc]

theorem Op.count_eq (o : Op d) : o.count = 1 + countSequence (o.regions.flatMap Prod.snd) := by
  cases o <;> simp [Op.count, Op.regions, countSequence, countSequence_append, Nat.add_assoc]

theorem Op.count_pos (o : Op d) : 0 < o.count := by
  rw [Op.count_eq]
  omega

theorem getElem?_of_drop {s : Sequence d} {i : Nat} {o : Op d} {rest : List (Op d)}
    (hs : s.drop i = o :: rest) : s[i]? = some o ∧ s.drop (i + 1) = rest := by
  constructor
  · rw [← List.head?_drop, hs, List.head?_cons]
  · rw [← List.drop_drop, hs, List.drop_one, List.tail_cons]

theorem drop_eq_cons {s : Sequence d} {i : Nat} {o : Op d} (ho : s[i]? = some o) :
    s.drop i = o :: s.drop (i + 1) := by
  obtain ⟨hi, rfl⟩ := List.getElem?_eq_some_iff.mp ho
  exact List.drop_eq_getElem_cons hi

end

structure Program (d : Dialect) where
  body : Sequence d
  deriving DecidableEq

namespace Program

def empty {d : Dialect} : Program d := ⟨[]⟩

end Program

inductive Line where
  | header (depth : Nat) (text : String)
  | otherwise (depth : Nat)
  | close (depth : Nat)
  deriving DecidableEq, Repr

namespace Line

def depth : Line → Nat
  | .header n _ => n
  | .otherwise n => n
  | .close n => n

def text : Line → String
  | .header _ t => t
  | .otherwise _ => "else"
  | .close _ => "end"

def render (l : Line) : String := "".pushn ' ' (2 * l.depth) ++ l.text ++ "\n"

end Line

mutual

/-- One header line for each operation, then the lines of its regions one level deeper, an `else`
line where a conditional has a non-empty else arm, and an `end` line after the last region. -/
def Op.lines {d : Dialect} (depth : Nat) : Op d → List Line
  | o@(.conditional _ t e) =>
      .header depth o.header :: (sequenceLines (depth + 1) t ++
        (if e.isEmpty then [] else .otherwise depth :: sequenceLines (depth + 1) e) ++
        [.close depth])
  | o@(.whileLoop _ b) => .header depth o.header :: (sequenceLines (depth + 1) b ++ [.close depth])
  | o@(.scope _ b) => .header depth o.header :: (sequenceLines (depth + 1) b ++ [.close depth])
  | o@.skip => [.header depth o.header]
  | o@(.assign _ _) => [.header depth o.header]
  | o@.breakLoop => [.header depth o.header]
  | o@.terminate => [.header depth o.header]

def sequenceLines {d : Dialect} (depth : Nat) : List (Op d) → List Line
  | [] => []
  | o :: rest => o.lines depth ++ sequenceLines depth rest

end

def sequenceText {d : Dialect} (s : Sequence d) : String :=
  String.join ((sequenceLines 0 s).map Line.render)

def Program.text {d : Dialect} (p : Program d) : String := sequenceText p.body

inductive Part (d : Dialect) where
  | op (o : Op d)
  | sequence (s : Sequence d)
  deriving DecidableEq

namespace Part

variable {d : Dialect}

def elements : Part d → Sequence d
  | .op o => [o]
  | .sequence s => s

def join : List (Part d) → Sequence d
  | [] => []
  | p :: rest => p.elements ++ join rest

def whileLoop (condition : Expression) (body : Part d) : Op d :=
  .whileLoop condition body.elements

def conditional (condition : Expression) (thenArm elseArm : Part d) : Op d :=
  .conditional condition thenArm.elements elseArm.elements

def program (p : Part d) : Program d := ⟨p.elements⟩

end Part

end RegionFlow

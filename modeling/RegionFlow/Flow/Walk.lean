import RegionFlow.Flow.Context
set_option autoImplicit false

namespace RegionFlow

structure Located (d : Dialect) where
  context : Context d
  index : Nat
  op : Op d

namespace Located

variable {d : Dialect}

def placed (l : Located d) : PlacedOp d := ⟨⟨l.context.path, l.index⟩, l.op⟩

def entry (l : Located d) : Point := l.placed.entry

def exit? (l : Located d) : Option Point :=
  if l.op.fallsThrough then some (l.context.successor l.index) else none

def depth (l : Located d) : Nat := l.context.depth

end Located

structure Pending (d : Dialect) where
  context : Context d
  index : Nat
  rest : Sequence d

/-- The sequences entered and not yet finished, the innermost first.  An operation is handed out
before the contents of its regions, and these before the elements after it. -/
structure Walk (d : Dialect) where
  stack : List (Pending d)

namespace Walk

variable {d : Dialect}

def start (c : Context d) : Walk d := ⟨[⟨c, 0, c.ops⟩]⟩

def inner (c : Context d) (i : Nat) (o : Op d) : List (Pending d) :=
  o.regions.map fun p => ⟨c.descend i p.1 p.2, 0, p.2⟩

def nextIn? : List (Pending d) → Option (Located d × List (Pending d))
  | [] => none
  | ⟨_, _, []⟩ :: below => nextIn? below
  | ⟨c, i, o :: rest⟩ :: below => some (⟨c, i, o⟩, inner c i o ++ ⟨c, i + 1, rest⟩ :: below)

def remaining : List (Pending d) → Nat
  | [] => 0
  | p :: below => countSequence p.rest + remaining below

theorem remaining_append (s t : List (Pending d)) :
    remaining (s ++ t) = remaining s + remaining t := by
  induction s with
  | nil => simp [remaining]
  | cons p s ih => simp [remaining, ih]; omega

theorem remaining_inner (c : Context d) (i : Nat) (o : Op d) :
    remaining (inner c i o) + 1 = o.count := by
  cases o <;> simp [inner, Op.regions, remaining, Op.count] <;> omega

/-- Each step of a walk hands out one of the operations still to come. -/
theorem remaining_of_nextIn? {s t : List (Pending d)} {l : Located d}
    (h : nextIn? s = some (l, t)) : remaining t + 1 = remaining s := by
  induction s with
  | nil => simp [nextIn?] at h
  | cons p s ih =>
    obtain ⟨c, i, ops⟩ := p
    cases ops with
    | nil => simp only [nextIn?] at h; simpa [remaining, countSequence] using ih h
    | cons o rest =>
      simp only [nextIn?, Option.some.injEq, Prod.mk.injEq] at h
      obtain ⟨-, rfl⟩ := h
      have := remaining_inner c i o
      simp only [remaining_append, remaining, countSequence]
      omega

def next? (w : Walk d) : Option (Located d × Walk d) :=
  (nextIn? w.stack).map fun p => (p.1, ⟨p.2⟩)

def toListFrom (s : List (Pending d)) : List (Located d) :=
  match _h : nextIn? s with
  | none => []
  | some (l, t) => l :: toListFrom t
termination_by remaining s
decreasing_by have := remaining_of_nextIn? _h; omega

def toList (w : Walk d) : List (Located d) := toListFrom w.stack

def take (w : Walk d) : Nat → List (Located d) × Walk d
  | 0 => ([], w)
  | n + 1 =>
    match w.next? with
    | none => ([], w)
    | some (l, rest) =>
      let (ls, rest) := rest.take n
      (l :: ls, rest)

/-- Shows each operation still to come to a visitor with a state, until the visitor stops with a
result. -/
def visitFrom {σ β : Type} (visit : σ → Located d → σ × Option β) (state : σ)
    (s : List (Pending d)) : σ × Option β :=
  match _h : nextIn? s with
  | none => (state, none)
  | some (l, t) =>
    match visit state l with
    | (state, some result) => (state, some result)
    | (state, none) => visitFrom visit state t
termination_by remaining s
decreasing_by have := remaining_of_nextIn? _h; omega

def visit {σ β : Type} (w : Walk d) (f : σ → Located d → σ × Option β) (state : σ) :
    σ × Option β :=
  visitFrom f state w.stack

end Walk

mutual

def preorderOf {d : Dialect} (c : Context d) (i : Nat) : Op d → List (Located d)
  | o@(.conditional _ t e) =>
      ⟨c, i, o⟩ :: (preorderFrom (c.descend i .thenArm t) 0 t ++
        preorderFrom (c.descend i .elseArm e) 0 e)
  | o@(.whileLoop _ b) => ⟨c, i, o⟩ :: preorderFrom (c.descend i .body b) 0 b
  | o@(.scope _ b) => ⟨c, i, o⟩ :: preorderFrom (c.descend i .body b) 0 b
  | o@.skip => [⟨c, i, o⟩]
  | o@(.assign _ _) => [⟨c, i, o⟩]
  | o@.breakLoop => [⟨c, i, o⟩]
  | o@.terminate => [⟨c, i, o⟩]

def preorderFrom {d : Dialect} (c : Context d) (i : Nat) : List (Op d) → List (Located d)
  | [] => []
  | o :: rest => preorderOf c i o ++ preorderFrom c (i + 1) rest

end

/-- The traversal of a walk as one recursion over the tree. -/
def Context.preorder {d : Dialect} (c : Context d) : List (Located d) := preorderFrom c 0 c.ops

namespace Program

variable {d : Dialect}

def walk (p : Program d) (h : Home) : Walk d := .start (p.context h)

def operations (p : Program d) (h : Home) : List (Located d) := (p.walk h).toList

def visit {σ β : Type} (p : Program d) (h : Home) (f : σ → Located d → σ × Option β) (state : σ) :
    σ × Option β :=
  (p.walk h).visit f state

end Program

end RegionFlow

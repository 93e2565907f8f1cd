import RegionFlow.Config.Settings
import RegionFlow.Place
set_option autoImplicit false

/-!
What follows an operation depends on what stands around it.  A context holds that: a root sequence
and, for each region entered from there, the index of the owner and the region itself.
-/

namespace RegionFlow

inductive Error where
  | kindMismatch (expected found : Kind)
  | notInContext (kind : Kind)
  | notARegion (kind : Kind)
  | nestingTooDeep (depth limit : Nat)
  | strayBreak
  | config (error : Config.Error)
  deriving DecidableEq, Repr

namespace Error

/-- The caller broke the rules of the query, whatever the program. -/
def isContractViolation : Error → Bool
  | .kindMismatch _ _ => true
  | .notInContext _ => true
  | .notARegion _ => true
  | .nestingTooDeep _ _ => false
  | .strayBreak => false
  | .config _ => false

def message? : Error → Option String
  | .kindMismatch expected found =>
      some ("Contract violation: expected " ++ expected.name ++ " operation, found " ++ found.name)
  | .notInContext k =>
      some ("Contract violation: " ++ k.name ++
        " operation is not an element of the queried context")
  | .notARegion k =>
      some ("Contract violation: sequence is not a region of the " ++ k.name ++ " operation")
  | .nestingTooDeep depth limit =>
      some ("Nesting depth " ++ Nat.repr depth ++ " exceeds limit " ++ Nat.repr limit)
  | .strayBreak => some "Break is reachable outside of any loop"
  | .config e => e.message?.map fun m => "Configuration error: " ++ m

end Error

structure Frame (d : Dialect) where
  owner : Nat
  region : Region
  ops : Sequence d

def Frame.step {d : Dialect} (f : Frame d) : Step := ⟨f.owner, f.region⟩

/-- A sequence together with all that stands around it, up to a root sequence.  The region
entered last comes first among the frames. -/
structure Context (d : Dialect) where
  root : PlacedSequence d
  frames : List (Frame d)

namespace Context

variable {d : Dialect}

def ofRoot (s : PlacedSequence d) : Context d := ⟨s, []⟩

def ops (c : Context d) : Sequence d :=
  match c.frames with
  | [] => c.root.ops
  | f :: _ => f.ops

def path (c : Context d) : SequencePath :=
  { c.root.path with steps := c.frames.map Frame.step ++ c.root.path.steps }

def sequence (c : Context d) : PlacedSequence d := ⟨c.path, c.ops⟩

def get? (c : Context d) (i : Nat) : Option (PlacedOp d) :=
  c.ops[i]?.map fun o => ⟨⟨c.path, i⟩, o⟩

theorem get?_sequence (c : Context d) (i : Nat) : c.sequence.get? i = c.get? i := rfl

def depth (c : Context d) : Nat := c.frames.length

def isRoot (c : Context d) : Bool := c.frames.isEmpty

def owners (c : Context d) : List Nat := (c.frames.map Frame.owner).reverse

def parent? (c : Context d) : Option (Context d) :=
  match c.frames with
  | [] => none
  | _ :: outer => some ⟨c.root, outer⟩

def owner? (c : Context d) : Option (PlacedOp d) :=
  match c.frames with
  | [] => none
  | f :: outer => (Context.mk c.root outer).get? f.owner

def descend (c : Context d) (index : Nat) (r : Region) (ops : Sequence d) : Context d :=
  ⟨c.root, ⟨index, r, ops⟩ :: c.frames⟩

/-- The context of a region of an operation.  The operation must be an element of the sequence,
and the region must be one of its own; both are told by their places. -/
def enter (c : Context d) (o : PlacedOp d) (s : PlacedSequence d) : Except Error (Context d) :=
  match c.sequence.indexOf? o with
  | none => .error (.notInContext o.op.kind)
  | some i =>
    match o.regions.find? fun p => p.2.path == s.path with
    | none => .error (.notARegion o.op.kind)
    | some (r, region) => .ok (c.descend i r region.ops)

/-- The point where control goes on after the element at an index: before the next element, or,
after the last one, where it goes on after the owner of the sequence. -/
def successorIn (root : PlacedSequence d) : List (Frame d) → Nat → Point
  | [], i =>
    match (Context.mk root []).get? (i + 1) with
    | some next => next.entry
    | none => root.exit
  | f :: outer, i =>
    match (Context.mk root (f :: outer)).get? (i + 1) with
    | some next => next.entry
    | none => successorIn root outer f.owner

def successor (c : Context d) (index : Nat) : Point := successorIn c.root c.frames index

def exit (c : Context d) : Point :=
  match c.frames with
  | [] => c.root.exit
  | f :: outer => successorIn c.root outer f.owner

def loopAmong (root : PlacedSequence d) : List (Frame d) → Option (Context d × PlacedOp d)
  | [] => none
  | f :: outer =>
    let c := Context.mk root outer
    match c.ops[f.owner]? with
    | some o => if o.isLoop then some (c, ⟨⟨c.path, f.owner⟩, o⟩) else loopAmong root outer
    | none => loopAmong root outer

def enclosingLoop? (c : Context d) : Option (Context d × PlacedOp d) := loopAmong c.root c.frames

/-- The point where control goes on after an operation that falls through.  The operation must be
an element of the sequence. -/
def exitOf (c : Context d) (o : PlacedOp d) : Except Error (Option Point) :=
  match c.sequence.indexOf? o with
  | none => .error (.notInContext o.op.kind)
  | some i => .ok (if o.op.fallsThrough then some (c.successor i) else none)

def breakTarget? (c : Context d) : Option Point :=
  c.enclosingLoop?.map fun l => l.1.successor l.2.path.index

def loopHeader? (c : Context d) : Option Point :=
  c.enclosingLoop?.map fun l => l.2.entry

def debugText (c : Context d) : String :=
  "Context \x7b depth: " ++ Nat.repr c.depth ++ ", path: [" ++
    ", ".intercalate (c.owners.map Nat.repr) ++ "] \x7d"

def follow? (c : Context d) : List Step → Option (Context d)
  | [] => some c
  | s :: rest =>
    match c.ops[s.owner]? with
    | none => none
    | some o =>
      match o.region? s.region with
      | none => none
      | some ops => (c.descend s.owner s.region ops).follow? rest

end Context

namespace Program

variable {d : Dialect}

def context (p : Program d) (h : Home) : Context d := .ofRoot (p.placed h)

def entry (p : Program d) (h : Home) : Point := (p.placed h).entry

def exit (p : Program d) (h : Home) : Point := (p.placed h).exit

def contextAt? (p : Program d) (s : SequencePath) : Option (Context d) :=
  (p.context s.home).follow? s.steps.reverse

def opAt? (p : Program d) (o : OpPath) : Option (Context d × PlacedOp d) :=
  (p.contextAt? o.sequence).bind fun c => (c.get? o.index).map fun e => (c, e)

end Program

end RegionFlow

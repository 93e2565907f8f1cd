import Std.Data.HashMap
import Std.Data.HashSet
import RegionFlow.Operation
set_option autoImplicit false

/-!
A sequence is found by the regions entered on the way from the body of a program to it, and an
operation by its index in such a sequence.  Two operations are the same operation exactly when they
have the same place, however alike they are as values.
-/

namespace RegionFlow

/-- Which of two programs under discussion a place belongs to. -/
inductive Home where
  | main
  | other
  deriving DecidableEq, Repr, Hashable

structure Step where
  owner : Nat
  region : Region
  deriving DecidableEq, Repr, Hashable

/-- The place of a sequence: the regions entered to reach it, the innermost first. -/
structure SequencePath where
  home : Home
  steps : List Step
  deriving DecidableEq, Repr, Hashable

structure OpPath where
  sequence : SequencePath
  index : Nat
  deriving DecidableEq, Repr, Hashable

namespace SequencePath

def body (h : Home) : SequencePath := ⟨h, []⟩

end SequencePath

def OpPath.enter (p : OpPath) (r : Region) : SequencePath :=
  { p.sequence with steps := ⟨p.index, r⟩ :: p.sequence.steps }

def Home.mark : Home → String
  | .main => ""
  | .other => "other:"

def Step.name (s : Step) : String := Nat.repr s.owner ++ "." ++ s.region.name

def SequencePath.name (p : SequencePath) : String :=
  p.home.mark ++ ".".intercalate (p.steps.reverse.map Step.name)

def OpPath.name (p : OpPath) : String :=
  p.sequence.home.mark ++
    ".".intercalate (p.sequence.steps.reverse.map Step.name ++ [Nat.repr p.index])

def dotted : List Char → List (List Char)
  | [] => [[]]
  | c :: cs =>
    match dotted cs with
    | [] => [[c]]
    | piece :: rest => if c = '.' then [] :: piece :: rest else (c :: piece) :: rest

def index? : List Char → Option Nat
  | '+' :: cs => digits? cs
  | cs => digits? cs
where
  digits? (cs : List Char) : Option Nat :=
    if !cs.isEmpty && cs.all Char.isDigit then some (Nat.ofDigitChars 10 cs 0) else none

def steps? : List (List Char) → Option (List Step)
  | [] => some []
  | [_] => none
  | i :: r :: rest => do
    let owner ← index? i
    let region ← Region.ofName? (String.ofList r)
    let inner ← steps? rest
    return ⟨owner, region⟩ :: inner

def Home.unmark : List Char → Home × List Char
  | 'o' :: 't' :: 'h' :: 'e' :: 'r' :: ':' :: cs => (.other, cs)
  | cs => (.main, cs)

def SequencePath.ofName? (name : String) : Option SequencePath :=
  match Home.unmark name.toList with
  | (h, []) => some (.body h)
  | (h, cs) => (steps? (dotted cs)).map fun steps => ⟨h, steps.reverse⟩

def OpPath.ofName? (name : String) : Option OpPath :=
  let (h, cs) := Home.unmark name.toList
  let pieces := dotted cs
  match index? (pieces.getLastD []), steps? pieces.dropLast with
  | some i, some steps => some ⟨⟨h, steps.reverse⟩, i⟩
  | _, _ => none

structure PlacedOp (d : Dialect) where
  path : OpPath
  op : Op d

structure PlacedSequence (d : Dialect) where
  path : SequencePath
  ops : Sequence d

namespace PlacedOp

variable {d : Dialect}

def regions (o : PlacedOp d) : List (Region × PlacedSequence d) :=
  o.op.regions.map fun p => (p.1, ⟨o.path.enter p.1, p.2⟩)

end PlacedOp

namespace PlacedSequence

variable {d : Dialect}

def get? (s : PlacedSequence d) (i : Nat) : Option (PlacedOp d) :=
  s.ops[i]?.map fun o => ⟨⟨s.path, i⟩, o⟩

def elements (s : PlacedSequence d) : List (PlacedOp d) :=
  s.ops.mapIdx fun i o => ⟨⟨s.path, i⟩, o⟩

theorem getElem?_elements (s : PlacedSequence d) (i : Nat) : s.elements[i]? = s.get? i := by
  simp [elements, get?]

/-- Looks an operation up among the elements.  What counts is its place: an equal one that stands
elsewhere is not found. -/
def indexOf? (s : PlacedSequence d) (o : PlacedOp d) : Option Nat :=
  s.elements.findIdx? fun e => e.path == o.path

theorem indexOf?_eq_some_iff {s : PlacedSequence d} {o : PlacedOp d} {i : Nat} :
    s.indexOf? o = some i ↔ o.path = ⟨s.path, i⟩ ∧ i < s.ops.length := by
  have hpath : ∀ j, (hj : j < s.elements.length) → s.elements[j].path = ⟨s.path, j⟩ := by
    intro j hj
    simp [elements]
  rw [indexOf?, List.findIdx?_eq_some_iff_getElem]
  constructor
  · rintro ⟨hi, hfound, -⟩
    rw [hpath, beq_iff_eq] at hfound
    exact ⟨hfound.symm, by simpa [elements] using hi⟩
  · rintro ⟨ho, hi⟩
    refine ⟨by simpa [elements] using hi, ?_, ?_⟩
    · rw [hpath, ho, beq_self_eq_true]
    · intro j hj
      rw [hpath, ho, beq_iff_eq, OpPath.mk.injEq]
      exact fun h => Nat.ne_of_lt hj h.2

end PlacedSequence

def Program.placed {d : Dialect} (p : Program d) (h : Home) : PlacedSequence d := ⟨.body h, p.body⟩

inductive Point where
  | entry (op : OpPath)
  | exit (sequence : SequencePath)
  deriving DecidableEq, Repr, Hashable

namespace Point

def name : Point → String
  | .entry p => "entry:" ++ p.name
  | .exit s => "exit:" ++ s.name

def isEntry : Point → Bool
  | .entry _ => true
  | .exit _ => false

def role : Point → String
  | .entry _ => "entry"
  | .exit _ => "exit"

end Point

mutual

def entryOf {d : Dialect} (path : OpPath) : Op d → Point
  | .scope _ b => sequenceEntryOf (path.enter .body) b
  | .skip => .entry path
  | .assign _ _ => .entry path
  | .conditional _ _ _ => .entry path
  | .whileLoop _ _ => .entry path
  | .breakLoop => .entry path
  | .terminate => .entry path

/-- A scope has no point of its own: control that enters it is before the first element of its body,
or after the body if that is empty. -/
def sequenceEntryOf {d : Dialect} (path : SequencePath) : List (Op d) → Point
  | [] => .exit path
  | o :: _ => entryOf ⟨path, 0⟩ o

end

def PlacedOp.entry {d : Dialect} (o : PlacedOp d) : Point := entryOf o.path o.op

def PlacedSequence.entry {d : Dialect} (s : PlacedSequence d) : Point :=
  sequenceEntryOf s.path s.ops

def PlacedSequence.exit {d : Dialect} (s : PlacedSequence d) : Point := .exit s.path

abbrev PointMap (α : Type) : Type := Std.HashMap Point α

abbrev PointSet : Type := Std.HashSet Point

end RegionFlow

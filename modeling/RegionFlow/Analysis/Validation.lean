import RegionFlow.Config.Analysis
import RegionFlow.Flow.Walk
set_option autoImplicit false

namespace RegionFlow

mutual

/-- Whether a break inside the operation leaves it.  A loop absorbs every break that reaches it, so
a loop itself never escapes. -/
def Op.escapes {d : Dialect} : Op d → Bool
  | .breakLoop => true
  | .conditional _ t e => sequenceEscapes t || sequenceEscapes e
  | .scope _ b => sequenceEscapes b
  | .whileLoop _ _ => false
  | .skip => false
  | .assign _ _ => false
  | .terminate => false

def sequenceEscapes {d : Dialect} : List (Op d) → Bool
  | [] => false
  | o :: rest => o.escapes || sequenceEscapes rest

end

theorem sequenceEscapes_append {d : Dialect} (s t : Sequence d) :
    sequenceEscapes (s ++ t) = (sequenceEscapes s || sequenceEscapes t) := by
  induction s with
  | nil => rfl
  | cons o s ih => simp [sequenceEscapes, ih, Bool.or_assoc]

def Program.escapes {d : Dialect} (p : Program d) : Bool := sequenceEscapes p.body

/-- Whether a break can be reached outside of every loop, the number of loops at all depths, and the
number of those that a break leaves. -/
structure EscapeSummary where
  escapes : Bool
  loops : Nat
  absorbingLoops : Nat
  deriving DecidableEq, Repr

namespace EscapeSummary

def empty : EscapeSummary := ⟨false, 0, 0⟩

def plainLoops (s : EscapeSummary) : Nat := s.loops - s.absorbingLoops

def add {d : Dialect} (s : EscapeSummary) (l : Located d) : EscapeSummary :=
  match l.op with
  | .whileLoop _ b =>
      { s with
        loops := s.loops + 1
        absorbingLoops := if sequenceEscapes b then s.absorbingLoops + 1 else s.absorbingLoops }
  | _ => s

end EscapeSummary

def Program.summarize {d : Dialect} (p : Program d) : EscapeSummary :=
  (p.operations .main).foldl EscapeSummary.add { EscapeSummary.empty with escapes := p.escapes }

structure Report where
  operations : Nat
  maxDepth : Nat
  escape : EscapeSummary
  deriving DecidableEq, Repr

def Report.empty : Report := ⟨0, 0, .empty⟩

structure Tally where
  operations : Nat
  maxDepth : Nat
  deriving DecidableEq, Repr

/-- Counts one more operation, unless it is too deep. -/
def Tally.add {d : Dialect} (limit : Nat) (t : Tally) (l : Located d) : Tally × Option Nat :=
  if limit < l.depth then (t, some l.depth)
  else (⟨t.operations + 1, max t.maxDepth l.depth⟩, none)

/-- The check of the depth comes first, and it stops at the first operation that is too deep. -/
def Program.validate {d : Dialect} (p : Program d) (s : Config.Settings) : Except Error Report :=
  match p.visit .main (Tally.add s.maxNestingDepth.toNat) ⟨0, 0⟩ with
  | (_, some depth) => .error (.nestingTooDeep depth s.maxNestingDepth.toNat)
  | (t, none) =>
    let escape := p.summarize
    if escape.escapes && !s.allowStrayBreak then .error .strayBreak
    else .ok ⟨t.operations, t.maxDepth, escape⟩

def validatorSettings (c : Config.Analysis) : Except Error Config.Settings :=
  match c.build with
  | .ok c => .ok c.effective
  | .error e => .error (.config e)

end RegionFlow

import RegionFlow.Analysis.Validation
import RegionFlow.Proofs.Flow.Preorder
set_option autoImplicit false

namespace RegionFlow

variable {d : Dialect}

def Region.opposite : Region → Region
  | .thenArm => .elseArm
  | .elseArm => .thenArm
  | .body => .body

/-- Which conditionals have their arms exchanged, by the places where they stand. -/
abbrev Exchange : Type := OpPath → Bool

def Exchange.region (x : Exchange) (owner : OpPath) (r : Region) : Region :=
  if x owner then r.opposite else r

/-- The regions entered, the innermost first, by the names that they have after an exchange. -/
def exchangeSteps (x : Exchange) (h : Home) : List Step → List Step
  | [] => []
  | s :: outer => ⟨s.owner, x.region ⟨⟨h, outer⟩, s.owner⟩ s.region⟩ :: exchangeSteps x h outer

def SequencePath.exchange (x : Exchange) (p : SequencePath) : SequencePath :=
  { p with steps := exchangeSteps x p.home p.steps }

def OpPath.exchange (x : Exchange) (p : OpPath) : OpPath := ⟨p.sequence.exchange x, p.index⟩

def Point.exchange (x : Exchange) : Point → Point
  | .entry p => .entry (p.exchange x)
  | .exit s => .exit (s.exchange x)

theorem Exchange.region_body (x : Exchange) (owner : OpPath) : x.region owner .body = .body :=
  ite_self _

theorem OpPath.exchange_enter (x : Exchange) (p : OpPath) (r : Region) :
    (p.enter r).exchange x = (p.exchange x).enter (x.region p r) := rfl

mutual

def Op.exchange {d : Dialect} (x : Exchange) (path : OpPath) : Op d → Op d
  | .conditional c t e =>
      if x path then
        .conditional c (exchangeFrom x (path.enter .elseArm) 0 e)
          (exchangeFrom x (path.enter .thenArm) 0 t)
      else
        .conditional c (exchangeFrom x (path.enter .thenArm) 0 t)
          (exchangeFrom x (path.enter .elseArm) 0 e)
  | .whileLoop c b => .whileLoop c (exchangeFrom x (path.enter .body) 0 b)
  | .scope g b => .scope g (exchangeFrom x (path.enter .body) 0 b)
  | .skip => .skip
  | .assign y e => .assign y e
  | .breakLoop => .breakLoop
  | .terminate => .terminate

def exchangeFrom {d : Dialect} (x : Exchange) (path : SequencePath) (i : Nat) :
    List (Op d) → List (Op d)
  | [] => []
  | o :: rest => o.exchange x ⟨path, i⟩ :: exchangeFrom x path (i + 1) rest

end

def Program.exchange (x : Exchange) (p : Program d) (h : Home) : Program d :=
  ⟨exchangeFrom x (.body h) 0 p.body⟩

section

variable {x : Exchange}

theorem getElem?_exchangeFrom (path : SequencePath) (s : Sequence d) (i j : Nat) :
    (exchangeFrom x path i s)[j]? = s[j]?.map (Op.exchange x ⟨path, i + j⟩) := by
  induction s generalizing i j with
  | nil => rfl
  | cons o s ih =>
    cases j with
    | zero => rfl
    | succ j =>
      have hindex : i + 1 + j = i + (j + 1) := by omega
      rw [exchangeFrom, List.getElem?_cons_succ, List.getElem?_cons_succ, ih, hindex]

namespace Op

variable (path : OpPath) (o : Op d)

theorem shape_exchange : (o.exchange x path).shape = o.shape := by
  cases o with
  | conditional c t e =>
    rw [exchange]
    split <;> rfl
  | _ => rfl

theorem kind_exchange : (o.exchange x path).kind = o.kind := by
  cases o with
  | conditional c t e =>
    rw [exchange]
    split <;> rfl
  | _ => rfl

/-- The regions are those of the operation, up to the order of exchanged arms. -/
theorem regions_exchange : (o.exchange x path).regions.Perm
    (o.regions.map fun p => (x.region path p.1, exchangeFrom x (path.enter p.1) 0 p.2)) := by
  cases o with
  | conditional c t e =>
    rw [exchange]
    cases hx : x path with
    | true =>
      simp only [if_true, regions, List.map_cons, List.map_nil, Exchange.region, hx]
      exact List.Perm.swap _ _ _
    | false => simp [regions, Exchange.region, hx]
  | whileLoop c b => simp [exchange, regions, Exchange.region_body]
  | scope g b => simp [exchange, regions, Exchange.region_body]
  | _ => exact .nil

end Op

/-- The entry of a scope goes down through bodies only, and these keep their names. -/
theorem entryOf_exchange (o : Op d) : ∀ path : OpPath,
    entryOf (path.exchange x) (o.exchange x path) = (entryOf path o).exchange x := by
  induction o using Op.region_induction with
  | step o ih =>
    intro path
    have hbody : (path.enter .body).exchange x = (path.exchange x).enter .body := by
      rw [OpPath.exchange_enter, Exchange.region_body]
    cases o with
    | conditional c t e =>
      rw [Op.exchange]
      split <;> rfl
    | scope g b =>
      cases b with
      | nil => exact congrArg Point.exit hbody.symm
      | cons e rest =>
        have he := ih _ (Op.body_mem_regions g (e :: rest)) e List.mem_cons_self
          ⟨path.enter .body, 0⟩
        rw [OpPath.exchange, hbody] at he
        exact he
    | _ => rfl

theorem sequenceEscapes_exchangeFrom {path : SequencePath} {s : Sequence d} {i : Nat}
    (hs : ∀ e ∈ s, ∀ path : OpPath, (e.exchange x path).escapes = e.escapes) :
    sequenceEscapes (exchangeFrom x path i s) = sequenceEscapes s := by
  induction s generalizing i with
  | nil => rfl
  | cons o s ih =>
    rw [List.forall_mem_cons] at hs
    rw [exchangeFrom, sequenceEscapes, hs.1, ih hs.2, sequenceEscapes]

theorem Op.escapes_exchange (o : Op d) :
    ∀ path : OpPath, (o.exchange x path).escapes = o.escapes := by
  induction o using Op.region_induction with
  | step o ih =>
    intro path
    have hregion : ∀ p ∈ o.regions,
        sequenceEscapes (exchangeFrom x (path.enter p.1) 0 p.2) = sequenceEscapes p.2 :=
      fun p hp => sequenceEscapes_exchangeFrom (ih p hp)
    cases o with
    | conditional c t e =>
      have ht := hregion (.thenArm, t) (by simp [Op.regions])
      have he := hregion (.elseArm, e) (by simp [Op.regions])
      rw [Op.exchange]
      split
      · -- The arms stand the other way round, but either one lets a break escape.
        rw [Op.escapes, ht, he, Op.escapes, Bool.or_comm]
      · rw [Op.escapes, ht, he, Op.escapes]
    | scope g b => exact hregion (.body, b) (Op.body_mem_regions g b)
    | _ => rfl

theorem Program.escapes_exchange (p : Program d) (h : Home) :
    (p.exchange x h).escapes = p.escapes :=
  sequenceEscapes_exchangeFrom fun o _ => o.escapes_exchange

end

end RegionFlow

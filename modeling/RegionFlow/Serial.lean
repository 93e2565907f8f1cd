import RegionFlow.Analysis.Validation
import RegionFlow.Json.Reader
set_option autoImplicit false

/-!
How values of the library are put into JSON. A record is an object, or an array of its fields in
order.  A case without a payload is its name, or an object with that name and null; a case with a
payload is an object with one field, named for the case.  Reading keeps count of how many arrays and
objects may still be entered.
-/

namespace RegionFlow.Json

def nesting : Nat := maxDepth

/-- Whether records may be arrays everywhere, or the payload of a case must be an object if it is a
record of the case's own. -/
inductive Payloads where
  | anyForm
  | objects
  deriving DecidableEq, Repr

/-- The fields with known names, each at most once.  Unknown ones are left out, or refused by a
record that is closed. -/
def knownFields? (names : List String) (closed : Bool) :
    List (JsonText × Json) → Option (List (String × Json))
  | [] => some []
  | (none, _) :: _ => none
  | (some k, j) :: rest =>
    match knownFields? names closed rest with
    | none => none
    | some fields =>
      if names.contains k then
        if fields.any fun f => f.1 == k then none else some ((k, j) :: fields)
      else if closed then none
      else some fields

def recordFields? (names : List String) (closed : Bool) : Json → Option (List (String × Json))
  | .object fields => knownFields? names closed fields
  | .array items => if items.length = names.length then some (names.zip items) else none
  | _ => none

def payloadFields? (p : Payloads) (names : List String) : Json → Option (List (String × Json))
  | .array items =>
    match p with
    | .anyForm => recordFields? names false (.array items)
    | .objects => none
  | j => recordFields? names false j

def field? {α : Type} (fields : List (String × Json)) (name : String) (read? : Json → Option α) :
    Option α :=
  (fields.lookup name).bind read?

/-- The value of a field that may be null or left out. -/
def optionalField? {α : Type} (fields : List (String × Json)) (name : String)
    (read? : Json → Option α) : Option (Option α) :=
  match fields.lookup name with
  | none => some none
  | some .null => some none
  | some j => (read? j).map some

def case? : Json → Option (String × Json)
  | .object [(some name, payload)] => some (name, payload)
  | _ => none

def bareCase? (nesting : Nat) : Json → Option String
  | .string (some name) => some name
  | .object [(some name, .null)] => if nesting = 0 then none else some name
  | _ => none

def ofCase (name : String) (payload : Json) : Json := record [(name, payload)]

def readAs? {α : Type} (ofJson? : Json → Option α) (text : String) : Option α :=
  (read? text).bind ofJson?

end RegionFlow.Json

namespace RegionFlow.Config

open Json

def Preset.toJson (p : Preset) : Json := .ofString p.name

def Preset.ofJson? (nesting : Nat) (j : Json) : Option Preset := (j.bareCase? nesting).bind ofName?

def Settings.toJson (s : Settings) : Json :=
  record [("max_nesting_depth", .integer s.maxNestingDepth.toNat),
    ("allow_stray_break", .bool s.allowStrayBreak)]

def Settings.ofJson? (nesting : Nat) (j : Json) : Option Settings :=
  if nesting = 0 then none
  else do
    let fields ← j.recordFields? fieldNames true
    let depth ← field? fields "max_nesting_depth" (natBelow? UInt64.size)
    let stray ← field? fields "allow_stray_break" Json.bool?
    return ⟨.ofNat depth, stray⟩

def presentField {α : Type} (name : String) (toJson : α → Json) : Option α → List (String × Json)
  | none => []
  | some a => [(name, toJson a)]

def Overrides.toJson (o : Overrides) : Json :=
  record (presentField "validation" Settings.toJson o.validation)

def Overrides.ofJson? : Nat → Json → Option Overrides
  | 0, _ => none
  | nesting + 1, j => do
    let fields ← j.recordFields? fieldNames true
    let validation ← optionalField? fields "validation" (Settings.ofJson? nesting)
    return ⟨validation⟩

def Export.toJson (e : Export) : Json :=
  record (presentField "version" (fun v : UInt32 => .integer v.toNat) e.version ++
    [("preset", .ofString e.preset)] ++
    presentField "overrides" Overrides.toJson e.overrides)

def Export.ofJson? : Nat → Json → Option Export
  | 0, _ => none
  | nesting + 1, j => do
    let fields ← j.recordFields? fieldNames true
    let version ← optionalField? fields "version" (natBelow? UInt32.size)
    let preset ← field? fields "preset" text?
    let overrides ← optionalField? fields "overrides" (Overrides.ofJson? nesting)
    return ⟨version.map .ofNat, preset, overrides⟩

end RegionFlow.Config

namespace RegionFlow

open Json

def Literal.toJson : Literal → Json
  | .unsigned n => ofCase "Unsigned" (.integer n.toNat)
  | .signed n => ofCase "Signed" (.integer n.toInt)
  | .bool b => ofCase "Bool" (.bool b)

def Literal.ofJson? (nesting : Nat) (j : Json) : Option Literal :=
  if nesting = 0 then none
  else
    match j.case? with
    | some ("Unsigned", v) => (v.natBelow? UInt64.size).map fun n => .unsigned (.ofNat n)
    | some ("Signed", v) =>
      (v.intWithin? Int64.minValue.toInt (Int64.maxValue.toInt + 1)).map fun n => .signed (.ofInt n)
    | some ("Bool", v) => v.bool?.map .bool
    | _ => none

def Variable.toJson (x : Variable) : Json := record [("name", .ofString x.name)]

def Variable.ofJson? (nesting : Nat) (j : Json) : Option Variable :=
  if nesting = 0 then none
  else do
    let fields ← j.recordFields? ["name"] false
    let name ← field? fields "name" text?
    return ⟨name⟩

def ArithmeticKind.caseName : ArithmeticKind → String
  | .add => "Add"
  | .sub => "Sub"
  | .mul => "Mul"
  | .div => "Div"
  | .rem => "Rem"

def ArithmeticKind.ofCaseName? : String → Option ArithmeticKind
  | "Add" => some .add
  | "Sub" => some .sub
  | "Mul" => some .mul
  | "Div" => some .div
  | "Rem" => some .rem
  | _ => none

def ArithmeticKind.toJson (k : ArithmeticKind) : Json := .ofString k.caseName

def ArithmeticKind.ofJson? (nesting : Nat) (j : Json) : Option ArithmeticKind :=
  (j.bareCase? nesting).bind ofCaseName?

def Predicate.caseName : Predicate → String
  | .eq => "Eq"
  | .ne => "Ne"
  | .lt => "Lt"
  | .le => "Le"
  | .gt => "Gt"
  | .ge => "Ge"

def Predicate.ofCaseName? : String → Option Predicate
  | "Eq" => some .eq
  | "Ne" => some .ne
  | "Lt" => some .lt
  | "Le" => some .le
  | "Gt" => some .gt
  | "Ge" => some .ge
  | _ => none

def Predicate.toJson (p : Predicate) : Json := .ofString p.caseName

def Predicate.ofJson? (nesting : Nat) (j : Json) : Option Predicate :=
  (j.bareCase? nesting).bind ofCaseName?

def Expression.toJson : Expression → Json
  | .constant v => ofCase "Constant" v.toJson
  | .read x => ofCase "Variable" x.toJson
  | .arithmetic k l r =>
      ofCase "Arithmetic" (record [("kind", k.toJson), ("lhs", l.toJson), ("rhs", r.toJson)])
  | .relational p l r =>
      ofCase "Relational" (record [("predicate", p.toJson), ("lhs", l.toJson), ("rhs", r.toJson)])

def Expression.ofJson? (p : Payloads) : Nat → Json → Option Expression
  | 0, _ => none
  | 1, _ => none
  | nesting + 2, j =>
    match j.case? with
    | some ("Constant", v) => (Literal.ofJson? (nesting + 1) v).map .constant
    | some ("Variable", v) => (Variable.ofJson? (nesting + 1) v).map .read
    | some ("Arithmetic", v) => do
      let fields ← v.payloadFields? p ["kind", "lhs", "rhs"]
      let kind ← field? fields "kind" (ArithmeticKind.ofJson? nesting)
      let lhs ← field? fields "lhs" (Expression.ofJson? p nesting)
      let rhs ← field? fields "rhs" (Expression.ofJson? p nesting)
      return .arithmetic kind lhs rhs
    | some ("Relational", v) => do
      let fields ← v.payloadFields? p ["predicate", "lhs", "rhs"]
      let predicate ← field? fields "predicate" (Predicate.ofJson? nesting)
      let lhs ← field? fields "lhs" (Expression.ofJson? p nesting)
      let rhs ← field? fields "rhs" (Expression.ofJson? p nesting)
      return .relational predicate lhs rhs
    | _ => none

variable {d : Dialect}

mutual

def Op.toJson {d : Dialect} : Op d → Json
  | .skip => ofCase (Op.skip : Op d).kind.name .null
  | .assign x e =>
      ofCase (Op.assign x e : Op d).kind.name (record [("target", x.toJson), ("value", e.toJson)])
  | .conditional c t e =>
      ofCase (Op.conditional c t e).kind.name (record [("condition", c.toJson),
        ("then_branch", .array (sequenceItems t)), ("else_branch", .array (sequenceItems e))])
  | .whileLoop c b =>
      ofCase (Op.whileLoop c b).kind.name
        (record [("condition", c.toJson), ("body", .array (sequenceItems b))])
  | .breakLoop => ofCase (Op.breakLoop : Op d).kind.name .null
  | .terminate => ofCase (Op.terminate : Op d).kind.name .null
  | .scope g b => ofCase (Op.scope g b).kind.name (.array (sequenceItems b))

def sequenceItems {d : Dialect} : List (Op d) → List Json
  | [] => []
  | o :: rest => o.toJson :: sequenceItems rest

end

def sequenceToJson (s : Sequence d) : Json := .array (sequenceItems s)

def Op.payload : Op d → Json
  | .skip => .null
  | .assign x e => record [("target", x.toJson), ("value", e.toJson)]
  | .conditional c t e =>
      record [("condition", c.toJson), ("then_branch", sequenceToJson t),
        ("else_branch", sequenceToJson e)]
  | .whileLoop c b => record [("condition", c.toJson), ("body", sequenceToJson b)]
  | .breakLoop => .null
  | .terminate => .null
  | .scope _ b => sequenceToJson b

def Program.toJson (p : Program d) : Json := sequenceToJson p.body

def Op.bare? (d : Dialect) (k : Kind) : Option (Op d) :=
  if k = .skip then some .skip
  else if k = .terminate then some .terminate
  else if k = d.breakKind then some .breakLoop
  else none

mutual

/-- An operation takes one level for its case, and its payload one more. -/
def Op.ofJson? (d : Dialect) (p : Payloads) : Nat → Json → Option (Op d)
  | 0, _ => none
  | 1, j =>
    match j.case? with
    | some (name, .null) => (d.kind? name).bind (Op.bare? d)
    | _ => none
  | nesting + 2, j =>
    match j.case? with
    | none => none
    | some (name, v) =>
      match d.kind? name with
      | none => none
      | some .assign => do
        let fields ← v.recordFields? ["target", "value"] false
        let target ← field? fields "target" (Variable.ofJson? nesting)
        let value ← field? fields "value" (Expression.ofJson? p nesting)
        return .assign target value
      | some .conditional => do
        let fields ← v.recordFields? ["condition", "then_branch", "else_branch"] false
        let condition ← field? fields "condition" (Expression.ofJson? p nesting)
        let thenArm ← field? fields "then_branch" (sequenceOfJson? d p nesting)
        let elseArm ← field? fields "else_branch" (sequenceOfJson? d p nesting)
        return .conditional condition thenArm elseArm
      | some .whileLoop => do
        let fields ← v.recordFields? ["condition", "body"] false
        let condition ← field? fields "condition" (Expression.ofJson? p nesting)
        let body ← field? fields "body" (sequenceOfJson? d p nesting)
        return .whileLoop condition body
      | some .scope => (sequenceOfJson? d p (nesting + 1) v).bind Op.scope?
      | some k =>
        match v with
        | .null => Op.bare? d k
        | _ => none

def sequenceOfJson? (d : Dialect) (p : Payloads) : Nat → Json → Option (Sequence d)
  | 0, _ => none
  | nesting + 1, j => j.items?.bind fun items => items.mapM (Op.ofJson? d p nesting)

end

def Program.ofJson? (d : Dialect) (p : Payloads) (nesting : Nat) (j : Json) : Option (Program d) :=
  (sequenceOfJson? d p nesting j).map fun body => ⟨body⟩

def Op.payloadAs (o : Op d) (k : Kind) : Except Error Json :=
  if o.kind = k then .ok o.payload else .error (.kindMismatch k o.kind)

def countBound : Nat := UInt64.size

def EscapeSummary.toJson (s : EscapeSummary) : Json :=
  record [("escapes", .bool s.escapes), ("loops", .integer s.loops),
    ("absorbing_loops", .integer s.absorbingLoops)]

def EscapeSummary.ofJson? (nesting : Nat) (j : Json) : Option EscapeSummary :=
  if nesting = 0 then none
  else do
    let fields ← j.recordFields? ["escapes", "loops", "absorbing_loops"] false
    let escapes ← field? fields "escapes" Json.bool?
    let loops ← field? fields "loops" (natBelow? countBound)
    let absorbingLoops ← field? fields "absorbing_loops" (natBelow? countBound)
    return ⟨escapes, loops, absorbingLoops⟩

def Report.toJson (r : Report) : Json :=
  record [("operations", .integer r.operations), ("max_depth", .integer r.maxDepth),
    ("escape", r.escape.toJson)]

def Report.ofJson? : Nat → Json → Option Report
  | 0, _ => none
  | nesting + 1, j => do
    let fields ← j.recordFields? ["operations", "max_depth", "escape"] false
    let operations ← field? fields "operations" (natBelow? countBound)
    let maxDepth ← field? fields "max_depth" (natBelow? countBound)
    let escape ← field? fields "escape" (EscapeSummary.ofJson? nesting)
    return ⟨operations, maxDepth, escape⟩

def Report.text (r : Report) : String := r.toJson.pretty

end RegionFlow

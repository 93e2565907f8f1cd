set_option autoImplicit false

namespace RegionFlow.Config

inductive Preset where
  | strict
  | permissive
  deriving DecidableEq, Repr

namespace Preset

def default : Preset := .strict

def name : Preset → String
  | .strict => "strict"
  | .permissive => "permissive"

def ofName? : String → Option Preset
  | "strict" => some .strict
  | "permissive" => some .permissive
  | _ => none

/-- The preset of this name in any mixture of cases.  Only ASCII letters are folded: no other
character has a lower case made of ASCII letters alone that occur in the names. -/
def parse? (text : String) : Option Preset := ofName? (text.map Char.toLower)

theorem ofName?_name (p : Preset) : ofName? p.name = some p := by cases p <;> rfl

end Preset

structure RangeError where
  field : String
  value : String
  min : String
  max : String
  hint : String
  deriving DecidableEq, Repr

def RangeError.message (e : RangeError) : String :=
  "Invalid range for field '" ++ e.field ++ "': " ++ e.value ++ " not in " ++ e.min ++ "..=" ++
    e.max ++ ". " ++ e.hint

inductive Error where
  | unreadable
  | malformed
  | missingVersion
  | unsupportedVersion (found : UInt32) (supported : List UInt32)
  | unknownPreset (name : String)
  | range (error : RangeError)
  deriving DecidableEq, Repr

def unknownPresetMessage (name : String) : String :=
  "Unknown preset '" ++ name ++ "'. Valid presets: strict, permissive"

/-- The text of an error; what is wrong with unreadable or malformed text has none of its own. -/
def Error.message? : Error → Option String
  | .unreadable => none
  | .malformed => none
  | .missingVersion =>
      some ("Missing 'version' field in configuration file. " ++
        "Add 'version: 1' to the top of your YAML file.")
  | .unsupportedVersion found supported =>
      some ("Unsupported configuration version " ++ Nat.repr found.toNat ++
        ". Supported versions: " ++ ", ".intercalate (supported.map fun v => Nat.repr v.toNat))
  | .unknownPreset name => some (unknownPresetMessage name)
  | .range e => some e.message

structure Settings where
  maxNestingDepth : UInt64
  allowStrayBreak : Bool
  deriving DecidableEq, Repr

namespace Settings

def ofPreset : Preset → Settings
  | .strict => ⟨64, false⟩
  | .permissive => ⟨1024, true⟩

def minDepth : Nat := 1

def maxDepth : Nat := 4096

def depthError (depth : UInt64) : RangeError where
  field := "max_nesting_depth"
  value := Nat.repr depth.toNat
  min := Nat.repr minDepth
  max := Nat.repr maxDepth
  hint := "Nesting depth bounds recursion in every structural query"

def validate (s : Settings) : Except RangeError Unit :=
  if minDepth ≤ s.maxNestingDepth.toNat ∧ s.maxNestingDepth.toNat ≤ maxDepth then .ok ()
  else .error (depthError s.maxNestingDepth)

def title : String := "ValidationConfig"

end Settings

def validateAll : List Settings → Except RangeError Unit
  | [] => .ok ()
  | s :: rest =>
    match s.validate with
    | .ok () => validateAll rest
    | .error e => .error e

end RegionFlow.Config

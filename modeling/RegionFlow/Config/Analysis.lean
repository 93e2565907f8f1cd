import RegionFlow.Config.Settings
import RegionFlow.Yaml.Document
set_option autoImplicit false

namespace RegionFlow.Config

structure Overrides where
  validation : Option Settings
  deriving DecidableEq, Repr

/-- No fields but these may occur in a stored configuration. -/
structure Export where
  version : Option UInt32
  preset : String
  overrides : Option Overrides
  deriving DecidableEq, Repr

def Settings.fieldNames : List String := ["max_nesting_depth", "allow_stray_break"]

def Overrides.fieldNames : List String := ["validation"]

def Export.fieldNames : List String := ["version", "preset", "overrides"]

open Yaml (Node)

def Settings.ofNode? (root n : Node) : Option Settings := do
  let fields ← Node.fields? root fieldNames n
  let depth ← Node.field? (Node.unsigned? root UInt64.size) fields "max_nesting_depth"
  let stray ← Node.field? (Node.bool? root) fields "allow_stray_break"
  return ⟨.ofNat depth, stray⟩

def Overrides.ofNode? (root n : Node) : Option Overrides := do
  let fields ← Node.fields? root fieldNames n
  let validation ← Node.optionalField? root (Settings.ofNode? root) fields "validation"
  return ⟨validation⟩

def Export.ofNode? (root n : Node) : Option Export := do
  let fields ← Node.fields? root fieldNames n
  let version ← Node.optionalField? root (Node.unsigned? root UInt32.size) fields "version"
  let preset ← Node.field? (Node.text? root) fields "preset"
  let overrides ← Node.optionalField? root (Overrides.ofNode? root) fields "overrides"
  return ⟨version.map .ofNat, preset, overrides⟩

def Export.ofYaml? (text : String) : Option Export := do
  let root ← Yaml.document? text
  Export.ofNode? root root

structure Analysis where
  preset : Preset
  validation : Option Settings
  deriving DecidableEq, Repr

namespace Analysis

def ofPreset (p : Preset) : Analysis := ⟨p, none⟩

def default : Analysis := ofPreset .default

def title : String := "AnalysisConfig"

def effective (c : Analysis) : Settings := c.validation.getD (.ofPreset c.preset)

/-- An override holds all settings: what it does not change is pinned to what it was. -/
def override (c : Analysis) (change : Settings → Settings) : Analysis :=
  { c with validation := some (change c.effective) }

/-- Only an override can be out of bounds. -/
def validate (c : Analysis) : Except RangeError Unit := validateAll c.validation.toList

def build (c : Analysis) : Except Error Analysis :=
  match c.validate with
  | .ok () => .ok c
  | .error e => .error (.range e)

def schemaVersion : UInt32 := 1

def supportedVersions : List UInt32 := [schemaVersion]

def toExport (c : Analysis) : Export where
  version := some schemaVersion
  preset := c.preset.name
  overrides := c.validation.map fun s => ⟨some s⟩

def overrideYaml (s : Settings) : String :=
  "overrides:\n  validation:\n    max_nesting_depth: " ++ Nat.repr s.maxNestingDepth.toNat ++
    "\n    allow_stray_break: " ++ (if s.allowStrayBreak then "true" else "false") ++ "\n"

def toYaml (c : Analysis) : String :=
  "version: " ++ Nat.repr schemaVersion.toNat ++ "\npreset: " ++ c.preset.name ++ "\n" ++
    (c.validation.map overrideYaml).getD ""

/-- The configuration that a stored form describes.  The version is checked first, then the name
of the preset, then the override. -/
def ofExport (e : Export) : Except Error Analysis :=
  match e.version with
  | none => .error .missingVersion
  | some v =>
    if supportedVersions.contains v then
      match Preset.parse? e.preset with
      | none => .error (.unknownPreset e.preset)
      | some p => build ⟨p, e.overrides.bind Overrides.validation⟩
    else .error (.unsupportedVersion v supportedVersions)

def ofYaml (text : String) : Except Error Analysis :=
  match Export.ofYaml? text with
  | none => .error .malformed
  | some e => ofExport e

def ofFile (contents : Option ByteArray) : Except Error Analysis :=
  match contents.bind String.fromUTF8? with
  | none => .error .unreadable
  | some text => ofYaml text

end Analysis

end RegionFlow.Config

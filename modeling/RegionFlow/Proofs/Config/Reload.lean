import RegionFlow.Config.Analysis
import RegionFlow.Proofs.Yaml.FieldScan
set_option autoImplicit false

namespace RegionFlow.Yaml

theorem digitsValue?_ten {ds : List Char} (hne : ds ≠ []) (hds : ∀ c ∈ ds, c.isDigit = true) :
    digitsValue? 10 ds = some (Nat.ofDigitChars 10 ds 0) := by
  have hfold : ∀ n, ds.foldl (fun n c => n.bind fun n => (hexDigit? c).bind fun d =>
      if d < 10 then some (10 * n + d) else none) (some n) = some (Nat.ofDigitChars 10 ds n) := by
    clear hne
    induction ds with
    | nil => simp
    | cons c ds ih =>
      rw [List.forall_mem_cons] at hds
      have hdigit : 48 ≤ c.toNat ∧ c.toNat ≤ 57 := Char.isDigit_iff_toNat.mp hds.1
      have hhex : hexDigit? c = some (c.toNat - 48) := by simp [hexDigit?, hds.1]
      have hlt : c.toNat - 48 < 10 := by omega
      intro n
      simp [hhex, hlt, ih hds.2, Nat.ofDigitChars_cons]
  simp [digitsValue?, hne, hfold]

/-- A number is read back from its decimal numeral. -/
theorem unsignedText?_decimal (n : Nat) : unsignedText? (Nat.toDigits 10 n) = some n := by
  obtain ⟨d, ds, hds, hd⟩ := Text.decimal_eq_cons n
  have hvalue : digitsValue? 10 (Nat.toDigits 10 n) = some n := by
    rw [digitsValue?_ten Nat.toDigits_ne_nil fun c hc => Text.isDigit_of_mem_decimal hc,
      Nat.ofDigitChars_ten_toDigits]
  have hplus : startsWith (· == '+') (Nat.toDigits 10 n) = false := by
    rw [hds, startsWith, beq_eq_false_iff_ne]
    rintro rfl
    exact absurd hd (by decide)
  rcases Nat.eq_zero_or_pos n with rfl | hpos
  · rfl
  · have hzero : d ≠ '0' := by
      have hhead := Text.head?_decimal_ne_zero hpos
      rwa [hds, List.head?_cons, Ne, Option.some.injEq] at hhead
    rw [hds] at hplus hvalue ⊢
    simp [unsignedText?, hplus, hzero, hvalue]

def Node.word (w : List Char) : Node := .scalar none none .plain (String.ofList w)

variable (root : Node)

theorem Node.text?_word (w : List Char) : text? root (.word w) = some (String.ofList w) := rfl

theorem Node.optional?_mapping {α : Type} {read? : Node → Option α} {anchor : Option Nat}
    {entries : List Entry} {x : α} (h : read? (.mapping anchor entries) = some x) :
    optional? root read? (.mapping anchor entries) = some (some x) := by
  simp [optional?, follow, h]

theorem Node.unsigned?_decimal {bound n : Nat} (h : n < bound) :
    Node.unsigned? root bound (.word (Nat.toDigits 10 n)) = some n := by
  simp [unsigned?, plainText?, word, follow, unsignedText?_decimal, h]

end RegionFlow.Yaml

namespace RegionFlow.Config

open Yaml

theorem Preset.parse?_name (p : Preset) : Preset.parse? p.name = some p := by
  have hlower : p.name.map Char.toLower = p.name := by
    rw [← String.toList_inj, String.toList_map]
    cases p <;> decide
  rw [parse?, hlower, ofName?_name]

namespace Analysis

def boolWord (b : Bool) : String := if b then "true" else "false"

def overrideFields (s : Settings) : List Field :=
  [⟨0, "overrides".toList, none⟩, ⟨2, "validation".toList, none⟩,
    ⟨4, "max_nesting_depth".toList, some (Nat.toDigits 10 s.maxNestingDepth.toNat)⟩,
    ⟨4, "allow_stray_break".toList, some (boolWord s.allowStrayBreak).toList⟩]

def storedFields (c : Analysis) : List Field :=
  ⟨0, "version".toList, some (Nat.toDigits 10 schemaVersion.toNat)⟩ ::
    ⟨0, "preset".toList, some c.preset.name.toList⟩ ::
    (c.validation.map overrideFields).getD []

/-- The override of stray breaks is written as its word. -/
theorem overrideYaml_eq (s : Settings) : overrideYaml s =
    "overrides:\n  validation:\n    max_nesting_depth: " ++ Nat.repr s.maxNestingDepth.toNat ++
      "\n    allow_stray_break: " ++ boolWord s.allowStrayBreak ++ "\n" := rfl

theorem toList_overrideYaml (s : Settings) :
    (overrideYaml s).toList = writeFields (overrideFields s) := by
  simp only [overrideYaml_eq, String.toList_append, Nat.toList_repr, overrideFields, writeFields,
    Field.write, Field.value]
  simp

theorem toList_toYaml (c : Analysis) : c.toYaml.toList = writeFields c.storedFields := by
  obtain ⟨preset, validation⟩ := c
  cases validation with
  | none => simp [toYaml, storedFields, writeFields, Field.write, Field.value]
  | some s =>
    simp only [toYaml, storedFields, String.toList_append, Option.map_some, Option.getD_some,
      toList_overrideYaml]
    simp [writeFields, Field.write, Field.value]

theorem isBare_boolWord (b : Bool) : IsBare (boolWord b).toList := by
  cases b <;> exact isBare_of_all (by decide)

theorem isBare_presetName (p : Preset) : IsBare p.name.toList := by
  cases p <;> exact isBare_of_all (by decide)

theorem areFields_overrideFields (s : Settings) : AreFields (overrideFields s) := by
  refine .cons ⟨isBare_of_all (by decide), by decide, by simp⟩ (by simp) ?_
  refine .cons ⟨isBare_of_all (by decide), by decide, by simp⟩ (by simp) ?_
  refine .cons (Field.isPlain_word (isBare_of_all (by decide)) (by decide) (isBare_decimal _))
    (by simp [firstColumn]) ?_
  exact .cons (Field.isPlain_word (isBare_of_all (by decide)) (by decide) (isBare_boolWord _))
    (by simp [firstColumn]) .nil

theorem areFields_storedFields (c : Analysis) : AreFields c.storedFields := by
  obtain ⟨preset, validation⟩ := c
  refine .cons (Field.isPlain_word (isBare_of_all (by decide)) (by decide) (isBare_decimal _))
    (by simp [firstColumn]) (.cons (Field.isPlain_word (isBare_of_all (by decide)) (by decide)
      (isBare_presetName preset)) ?_ ?_)
  · cases validation <;> simp [firstColumn, overrideFields]
  · cases validation with
    | none => exact .nil
    | some s => exact areFields_overrideFields s

def settingsNode (s : Settings) : Node :=
  .mapping none [
    .mk (.word "max_nesting_depth".toList) (.word (Nat.toDigits 10 s.maxNestingDepth.toNat)),
    .mk (.word "allow_stray_break".toList) (.word (boolWord s.allowStrayBreak).toList)]

def overrideNode (s : Settings) : Node :=
  .mapping none [.mk (.word "validation".toList) (settingsNode s)]

def storedNode (c : Analysis) : Node :=
  .mapping none (
    .mk (.word "version".toList) (.word (Nat.toDigits 10 schemaVersion.toNat)) ::
    .mk (.word "preset".toList) (.word c.preset.name.toList) ::
    (c.validation.map fun s => [.mk (.word "overrides".toList) (overrideNode s)]).getD [])

/-- The sections of an override open a mapping each, and all are closed at the end. -/
theorem fieldsTokens_sections {version preset overrides validation depth stray : Field}
    (hversion : version.column = 0) (hpreset : preset.column = 0)
    (hoverrides : overrides.column = 0) (hvalidation : validation.column = 2)
    (hdepth : depth.column = 4) (hstray : stray.column = 4) :
    fieldsTokens [] [version, preset, overrides, validation, depth, stray] =
      .blockMappingStart :: (version.tokens ++ preset.tokens ++ overrides.tokens ++
        .blockMappingStart :: (validation.tokens ++
          .blockMappingStart :: (depth.tokens ++ stray.tokens ++
            [.blockEnd, .blockEnd, .blockEnd]))) := by
  simp [fieldsTokens, Field.closed, Field.opening, Field.opened, Field.left, Field.continues,
    hversion, hpreset, hoverrides, hvalidation, hdepth, hstray]

theorem documentRoot?_storedFields (c : Analysis) :
    documentRoot? (fieldsTokens [] c.storedFields) = some (c.storedNode, []) := by
  obtain ⟨preset, validation⟩ := c
  -- what the words are does not matter here
  cases validation with
  | none =>
    rw [storedFields, storedNode]
    generalize Nat.toDigits 10 schemaVersion.toNat = version
    generalize preset.name.toList = name
    rfl
  | some s =>
    simp only [storedFields, storedNode, Option.map_some, Option.getD_some, overrideFields,
      overrideNode, settingsNode]
    rw [fieldsTokens_sections rfl rfl rfl rfl rfl rfl]
    generalize Nat.toDigits 10 schemaVersion.toNat = version
    generalize preset.name.toList = name
    generalize Nat.toDigits 10 s.maxNestingDepth.toNat = depth
    generalize (boolWord s.allowStrayBreak).toList = stray
    rfl

variable (root : Node)

theorem bool?_boolWord (b : Bool) : Node.bool? root (.word (boolWord b).toList) = some b := by
  cases b <;> rfl

theorem ofNode?_settingsNode (s : Settings) :
    Settings.ofNode? root (settingsNode s) = some s := by
  have hdepth := Node.unsigned?_decimal root s.maxNestingDepth.toNat_lt_size
  simp [Settings.ofNode?, settingsNode, Node.fields?, Node.follow, Node.fieldsOf?, Node.text?_word,
    Settings.fieldNames, Node.field?, List.lookup_cons, hdepth, bool?_boolWord]

theorem ofNode?_overrideNode (s : Settings) :
    Overrides.ofNode? root (overrideNode s) = some ⟨some s⟩ := by
  have hvalidation : Node.optional? root (Settings.ofNode? root) (settingsNode s) =
      some (some s) := Node.optional?_mapping root (ofNode?_settingsNode root s)
  simp [Overrides.ofNode?, overrideNode, Node.fields?, Node.follow, Node.fieldsOf?,
    Node.text?_word, Overrides.fieldNames, Node.optionalField?, hvalidation]

theorem ofNode?_storedNode (c : Analysis) :
    Export.ofNode? root c.storedNode = some c.toExport := by
  obtain ⟨preset, validation⟩ := c
  have hversion : Node.optional? root (Node.unsigned? root UInt32.size)
      (.word (Nat.toDigits 10 schemaVersion.toNat)) = some (some 1) := rfl
  cases validation with
  | none =>
    simp [Export.ofNode?, storedNode, Node.fields?, Node.follow, Node.fieldsOf?, Node.text?_word,
      Export.fieldNames, Node.optionalField?, Node.field?, List.lookup_cons, hversion]
    rfl
  | some s =>
    have hoverrides : Node.optional? root (Overrides.ofNode? root) (overrideNode s) =
        some (some ⟨some s⟩) := Node.optional?_mapping root (ofNode?_overrideNode root s)
    simp [Export.ofNode?, storedNode, Node.fields?, Node.follow, Node.fieldsOf?, Node.text?_word,
      Export.fieldNames, Node.optionalField?, Node.field?, List.lookup_cons, hversion, hoverrides]
    rfl

theorem ofYaml?_toYaml (c : Analysis) : Export.ofYaml? c.toYaml = some c.toExport := by
  have htokens := tokens?_fields (areFields_storedFields c) (toList_toYaml c)
  simp [Export.ofYaml?, document?, htokens, documentRoot?_storedFields, ofNode?_storedNode]

theorem ofExport_toExport (c : Analysis) : ofExport c.toExport = c.build := by
  obtain ⟨preset, validation⟩ := c
  cases validation <;> simp [ofExport, toExport, supportedVersions, Preset.parse?_name]

theorem ofYaml_of_export {text : String} (c : Analysis)
    (h : Export.ofYaml? text = some c.toExport) : ofYaml text = c.build := by
  rw [ofYaml, h]
  exact ofExport_toExport c

theorem ofYaml_toYaml (c : Analysis) : ofYaml c.toYaml = c.build :=
  ofYaml_of_export c (ofYaml?_toYaml c)

theorem build_override (p : Preset) (s : Settings) :
    build ⟨p, some s⟩ =
      if Settings.minDepth ≤ s.maxNestingDepth.toNat ∧
        s.maxNestingDepth.toNat ≤ Settings.maxDepth then .ok ⟨p, some s⟩
      else .error (.range (Settings.depthError s.maxNestingDepth)) := by
  rw [build, validate, Option.toList_some, validateAll, Settings.validate]
  by_cases hdepth : Settings.minDepth ≤ s.maxNestingDepth.toNat ∧
      s.maxNestingDepth.toNat ≤ Settings.maxDepth
  · rw [if_pos hdepth, if_pos hdepth]
    rfl
  · rw [if_neg hdepth, if_neg hdepth]

theorem eq_of_build {c d : Analysis} (h : c.build = .ok d) : d = c := by
  rw [build] at h
  cases hc : c.validate with
  | ok => simpa [hc] using h.symm
  | error e => simp [hc] at h

/-- A stored form that is accepted names a preset, which is checked together with the override. -/
theorem exists_preset_of_ofExport {e : Export} {c : Analysis} (h : ofExport e = .ok c) :
    ∃ p, Preset.parse? e.preset = some p ∧
      build ⟨p, e.overrides.bind Overrides.validation⟩ = .ok c := by
  obtain ⟨version, preset, overrides⟩ := e
  cases version with
  | none => cases h
  | some v =>
    cases hv : supportedVersions.contains v with
    | false =>
      simp only [ofExport, hv] at h
      cases h
    | true =>
      cases hp : Preset.parse? preset with
      | none =>
        simp only [ofExport, hv, hp] at h
        cases h
      | some p => exact ⟨p, rfl, by simpa only [ofExport, hv, hp, if_true] using h⟩

theorem exists_export_of_ofYaml {text : String} {c : Analysis} (h : ofYaml text = .ok c) :
    ∃ e, Export.ofYaml? text = some e ∧ ofExport e = .ok c := by
  rw [ofYaml] at h
  cases he : Export.ofYaml? text with
  | none =>
    rw [he] at h
    cases h
  | some e =>
    rw [he] at h
    exact ⟨e, rfl, h⟩

theorem build_of_ofYaml {text : String} {c : Analysis} (h : ofYaml text = .ok c) :
    c.build = .ok c := by
  obtain ⟨e, -, he⟩ := exists_export_of_ofYaml h
  obtain ⟨p, -, hbuild⟩ := exists_preset_of_ofExport he
  rwa [← eq_of_build hbuild] at hbuild

/-- Storing and loading is building: a configuration without an override comes back as it is, and
one with an override does so, or is refused, as the depth of the override says, even where that
override repeats the settings of the preset.  So whatever a text is loaded to is stored
faithfully. -/
theorem export_reload (c : Analysis) :
    ofYaml c.toYaml = c.build ∧
    c.build =
      (match c.validation with
      | none => .ok c
      | some s =>
        if 1 ≤ s.maxNestingDepth.toNat ∧ s.maxNestingDepth.toNat ≤ 4096 then .ok c
        else .error (.range {
          field := "max_nesting_depth"
          value := Nat.repr s.maxNestingDepth.toNat
          min := "1"
          max := "4096"
          hint := "Nesting depth bounds recursion in every structural query" })) ∧
    ∀ text, ofYaml text = .ok c → ofYaml c.toYaml = .ok c := by
  refine ⟨ofYaml_toYaml c, ?_, fun text h => by rw [ofYaml_toYaml, build_of_ofYaml h]⟩
  obtain ⟨preset, validation⟩ := c
  cases validation with
  | none => rfl
  | some s => exact build_override preset s

theorem export_reload_pinned :
    ofYaml ("preset: 'strict'\noverrides:\n  validation:\n    allow_stray_break: False\n" ++
        "    max_nesting_depth: 0x40 # as before\nversion: +1\n") =
      .ok ⟨.strict, some (.ofPreset .strict)⟩ ∧
    ofYaml (toYaml ⟨.strict, some (.ofPreset .strict)⟩) =
      .ok ⟨.strict, some (.ofPreset .strict)⟩ := by
  refine ⟨?load, (export_reload _).2.2 _ ?load⟩
  exact (ofYaml_of_export ⟨.strict, some (.ofPreset .strict)⟩ (by decide +kernel)).trans rfl

end Analysis

end RegionFlow.Config

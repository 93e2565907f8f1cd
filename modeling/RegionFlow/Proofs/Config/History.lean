import RegionFlow.Analysis.Validation
import RegionFlow.Proofs.Config.Reload
set_option autoImplicit false

/-!
A configuration starts as the default one and is changed step by step.  Presets and stored texts
start it afresh; overrides change settings one by one.  What counts in the end is, for each setting,
who gave it last.
-/

namespace RegionFlow.Config

def Settings.change (depth : Option UInt64) (stray : Option Bool) (s : Settings) : Settings :=
  ⟨depth.getD s.maxNestingDepth, stray.getD s.allowStrayBreak⟩

inductive Change where
  | preset (p : Preset)
  | load (text : String)
  | build
  | override (depth : Option UInt64) (stray : Option Bool)

structure Basis where
  preset : Preset
  given : Option Settings

namespace Basis

def settings (b : Basis) : Settings :=
  match b.given with
  | some s => s
  | none => .ofPreset b.preset

end Basis

namespace Change

def basis? : Change → Option Basis
  | .preset p => some ⟨p, none⟩
  | .load text => do
    let e ← Export.ofYaml? text
    let p ← Preset.parse? e.preset
    return ⟨p, e.overrides.bind Overrides.validation⟩
  | .build => none
  | .override _ _ => none

def depth? : Change → Option UInt64
  | .override depth _ => depth
  | _ => none

def stray? : Change → Option Bool
  | .override _ stray => stray
  | _ => none

def isOverride : Change → Bool
  | .override _ _ => true
  | _ => false

/-- What the latest start in a history is from, the latest step first. -/
def basisOf (history : List Change) : Basis :=
  (history.findSome? basis?).getD ⟨.default, none⟩

def sinceBasis (history : List Change) : List Change :=
  history.takeWhile fun step => step.basis?.isNone

variable {step : Change} {history : List Change}

theorem basisOf_some {b : Basis} (h : step.basis? = some b) : basisOf (step :: history) = b := by
  rw [basisOf, List.findSome?_cons, h, Option.getD_some]

theorem basisOf_none (h : step.basis? = none) : basisOf (step :: history) = basisOf history := by
  rw [basisOf, List.findSome?_cons, h, basisOf]

theorem sinceBasis_some {b : Basis} (h : step.basis? = some b) :
    sinceBasis (step :: history) = [] := by
  rw [sinceBasis, List.takeWhile_cons_of_neg (by simp [h])]

theorem sinceBasis_none (h : step.basis? = none) :
    sinceBasis (step :: history) = step :: sinceBasis history := by
  rw [sinceBasis, List.takeWhile_cons_of_pos (by simp [h]), sinceBasis]

end Change

namespace Analysis

def apply (c : Analysis) : Change → Except Error Analysis
  | .preset p => .ok (ofPreset p)
  | .load text => ofYaml text
  | .build => c.build
  | .override depth stray => .ok (c.override (Settings.change depth stray))

/-- The configurations that are reached from the default one, with the steps that succeeded on the
way, the latest first. -/
inductive Reached : List Change → Analysis → Prop where
  | default : Reached [] default
  | change {history : List Change} {c c' : Analysis} {step : Change} (hc : Reached history c)
      (h : c.apply step = .ok c') : Reached (step :: history) c'

theorem basis_of_ofYaml {text : String} {c : Analysis} (h : ofYaml text = .ok c) :
    (Change.load text).basis? = some ⟨c.preset, c.validation⟩ := by
  obtain ⟨e, he, hc⟩ := exists_export_of_ofYaml h
  obtain ⟨p, hp, hbuild⟩ := exists_preset_of_ofExport hc
  simp [Change.basis?, he, hp, eq_of_build hbuild]

/-- A configuration is what its history makes of it: the presets and texts it was started from, and
for each setting whatever was given last since then. -/
structure Follows (history : List Change) (c : Analysis) : Prop where
  preset : c.preset = (Change.basisOf history).preset
  depth : c.effective.maxNestingDepth =
    ((Change.sinceBasis history).findSome? Change.depth?).getD
      (Change.basisOf history).settings.maxNestingDepth
  stray : c.effective.allowStrayBreak =
    ((Change.sinceBasis history).findSome? Change.stray?).getD
      (Change.basisOf history).settings.allowStrayBreak
  recorded : c.validation.isSome =
    ((Change.sinceBasis history).any Change.isOverride || (Change.basisOf history).given.isSome)

theorem effective_eq_settings (c : Analysis) :
    c.effective = (Basis.mk c.preset c.validation).settings := by
  obtain ⟨preset, validation⟩ := c
  cases validation <;> rfl

namespace Follows

variable {history : List Change} {c c' : Analysis} {step : Change}

theorem of_basis (h : step.basis? = some ⟨c.preset, c.validation⟩) :
    Follows (step :: history) c where
  preset := by rw [Change.basisOf_some h]
  depth := by rw [Change.sinceBasis_some h, Change.basisOf_some h, effective_eq_settings]; rfl
  stray := by rw [Change.sinceBasis_some h, Change.basisOf_some h, effective_eq_settings]; rfl
  recorded := by rw [Change.sinceBasis_some h, Change.basisOf_some h]; rfl

theorem extend (hc : Follows history c) (hbasis : step.basis? = none)
    (hpreset : c'.preset = c.preset)
    (hdepth : c'.effective.maxNestingDepth = step.depth?.getD c.effective.maxNestingDepth)
    (hstray : c'.effective.allowStrayBreak = step.stray?.getD c.effective.allowStrayBreak)
    (hrecorded : c'.validation.isSome = (step.isOverride || c.validation.isSome)) :
    Follows (step :: history) c' where
  preset := by rw [Change.basisOf_none hbasis, hpreset, hc.preset]
  depth := by
    rw [Change.basisOf_none hbasis, Change.sinceBasis_none hbasis, hdepth, hc.depth,
      List.findSome?_cons]
    cases step.depth? <;> rfl
  stray := by
    rw [Change.basisOf_none hbasis, Change.sinceBasis_none hbasis, hstray, hc.stray,
      List.findSome?_cons]
    cases step.stray? <;> rfl
  recorded := by
    rw [Change.basisOf_none hbasis, Change.sinceBasis_none hbasis, hrecorded, hc.recorded,
      List.any_cons, Bool.or_assoc]

theorem apply (hc : Follows history c) (h : c.apply step = .ok c') :
    Follows (step :: history) c' := by
  cases step with
  | preset p =>
    obtain rfl := Except.ok.inj h
    exact of_basis rfl
  | load text => exact of_basis (basis_of_ofYaml h)
  | build =>
    obtain rfl := eq_of_build h
    exact hc.extend rfl rfl rfl rfl rfl
  | override depth stray =>
    obtain rfl := Except.ok.inj h
    exact hc.extend rfl rfl rfl rfl rfl

end Follows

/-- By induction on the steps: a fresh start leaves nothing of what was before, and any other step
is the latest word on what it gives. -/
theorem Reached.follows {history : List Change} {c : Analysis} (h : Reached history c) :
    Follows history c := by
  induction h with
  | default => exact ⟨rfl, rfl, rfl, rfl⟩
  | change _ h ih => exact ih.apply h

/-- The settings of a preset are valid, so it makes no difference that only an override is
checked. -/
theorem validate_eq_effective (c : Analysis) : c.validate = c.effective.validate := by
  obtain ⟨preset, validation⟩ := c
  cases validation with
  | none =>
    -- Nothing is checked here, and the bounds hold for each preset.
    cases preset <;> rfl
  | some s =>
    rw [validate, Option.toList_some, validateAll]
    cases hs : s.validate with
    | ok => exact hs.symm
    | error e => exact hs.symm

theorem validatorSettings_eq (c : Analysis) : validatorSettings c =
    match c.effective.validate with
    | .ok () => .ok c.effective
    | .error e => .error (.config (.range e)) := by
  rw [validatorSettings, build, validate_eq_effective]
  cases c.effective.validate <;> rfl

/-- The last writer wins, and the checks agree.  In a configuration that is reached from the default
one, the preset is that of the latest preset or stored text; a setting is the one that an override
since then gave last, or else the one in the stored text, or else that of the preset; and an
override is recorded exactly if there was one since then, even one without any values, or one in
the stored text.  The checks of the configuration, of the settings that count, and of a validator
made from it accept the same depths, and complain about the others in the same words. -/
theorem last_writer_wins {history : List Change} {c : Analysis} (h : Reached history c) :
    let basis := Change.basisOf history
    let since := Change.sinceBasis history
    let s := c.effective
    let complaint : RangeError :=
      { field := "max_nesting_depth"
        value := Nat.repr s.maxNestingDepth.toNat
        min := "1"
        max := "4096"
        hint := "Nesting depth bounds recursion in every structural query" }
    c.preset = basis.preset ∧
    s.maxNestingDepth = (since.findSome? Change.depth?).getD
      (match basis.given with
      | some stored => stored.maxNestingDepth
      | none => (Settings.ofPreset basis.preset).maxNestingDepth) ∧
    s.allowStrayBreak = (since.findSome? Change.stray?).getD
      (match basis.given with
      | some stored => stored.allowStrayBreak
      | none => (Settings.ofPreset basis.preset).allowStrayBreak) ∧
    (c.validation.isSome = true ↔
      (∃ step ∈ since, step.isOverride = true) ∨ basis.given.isSome = true) ∧
    s.validate = (if 1 ≤ s.maxNestingDepth.toNat ∧ s.maxNestingDepth.toNat ≤ 4096 then .ok ()
      else .error complaint) ∧
    c.validate = s.validate ∧
    validatorSettings c = (if 1 ≤ s.maxNestingDepth.toNat ∧ s.maxNestingDepth.toNat ≤ 4096
      then .ok s else .error (.config (.range complaint))) := by
  intro basis since s complaint
  obtain ⟨hpreset, hdepth, hstray, hrecorded⟩ := h.follows
  have hvalid : s.validate = (if 1 ≤ s.maxNestingDepth.toNat ∧ s.maxNestingDepth.toNat ≤ 4096
      then .ok () else .error complaint) := rfl
  refine ⟨hpreset, ?_, ?_, ?_, hvalid, c.validate_eq_effective, ?_⟩
  · rw [hdepth, Basis.settings]
    cases basis.given <;> rfl
  · rw [hstray, Basis.settings]
    cases basis.given <;> rfl
  · rw [hrecorded, Bool.or_eq_true, List.any_eq_true]
  · have hs : c.effective.validate = s.validate := rfl
    rw [validatorSettings_eq, hs, hvalid]
    by_cases hbounds : 1 ≤ s.maxNestingDepth.toNat ∧ s.maxNestingDepth.toNat ≤ 4096
    · rw [if_pos hbounds, if_pos hbounds]
    · rw [if_neg hbounds, if_neg hbounds]

/-- A stored text with settings of its own, then an override of one of them, a check, an override of
the other by a depth that is out of bounds: each override leaves alone what it does not give. -/
theorem last_writer_wins_twice :
    let text := "version: 1\npreset: strict\noverrides:\n  validation:\n" ++
      "    max_nesting_depth: 20\n    allow_stray_break: false\n"
    let history : List Change :=
      [.override (some 0) none, .build, .override none (some true), .load text, .preset .permissive]
    let c : Analysis := ⟨.strict, some ⟨0, true⟩⟩
    Reached history c ∧ c.preset = (Change.basisOf history).preset ∧
    c.effective.maxNestingDepth =
      ((Change.sinceBasis history).findSome? Change.depth?).getD 20 ∧
    c.effective.allowStrayBreak =
      ((Change.sinceBasis history).findSome? Change.stray?).getD false ∧
    validatorSettings c = .error (.config (.range (Settings.depthError 0))) := by
  intro text history c
  -- The text is what the configuration is stored as, so it is read back.
  have hload : ofYaml text = .ok ⟨.strict, some ⟨20, false⟩⟩ :=
    (ofYaml_of_export ⟨.strict, some ⟨20, false⟩⟩ (by decide +kernel)).trans rfl
  have hc : Reached history c :=
    .change (.change (.change (.change (.change .default rfl) hload) rfl) rfl) rfl
  have hbasis : Change.basisOf history = ⟨.strict, some ⟨20, false⟩⟩ := by
    rw [Change.basisOf_none rfl, Change.basisOf_none rfl, Change.basisOf_none rfl]
    exact Change.basisOf_some (basis_of_ofYaml hload)
  obtain ⟨hpreset, hdepth, hstray, -, -, -, hvalidator⟩ := last_writer_wins hc
  rw [hbasis] at hdepth hstray
  exact ⟨hc, hpreset, hdepth, hstray, hvalidator⟩

end Analysis

end RegionFlow.Config

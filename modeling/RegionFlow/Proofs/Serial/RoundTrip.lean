import RegionFlow.Proofs.Analysis.Verdict
import RegionFlow.Proofs.Serial.Recovery
set_option autoImplicit false

namespace RegionFlow

open Json

theorem Literal.one_le_depth (v : Literal) : 1 ≤ v.toJson.depth := by
  cases v <;> exact one_le_depth_record _

theorem Literal.recovers (v : Literal) : Recovers Literal.toJson Literal.ofJson? v := by
  refine .of_levels 1 ?_ v.one_le_depth ?_
  · cases v with
    | unsigned n => exact Exact.ofCase (.integer _)
    | signed n => exact Exact.ofCase (.integer _)
    | bool b => exact Exact.ofCase (.bool b)
  · intro n _
    rw [Literal.ofJson?, if_neg n.succ_ne_zero]
    cases v with
    | unsigned m => simp [Literal.toJson, natBelow?_integer m.toNat_lt_size]
    | signed m =>
      have hlow : Int64.minValue.toInt ≤ m.toInt := Int64.minValue_le_toInt m
      have hhigh : m.toInt < Int64.maxValue.toInt + 1 := Int.lt_add_one_of_le m.toInt_le
      simp only [Literal.toJson, case?_ofCase, intWithin?, hlow, hhigh, and_self, if_true,
        Option.map_some, Int64.ofInt_toInt]
    | bool b => simp [Literal.toJson, Json.bool?]

theorem Variable.recovers (x : Variable) : Recovers Variable.toJson Variable.ofJson? x := by
  refine .of_record rfl (by simpa using .string x.name) fun n _ => ?_
  rw [Variable.ofJson?, if_neg n.succ_ne_zero, recordFields?_record (by simp) (by simp)]
  simp [ofString, text?]

theorem ArithmeticKind.recovers (k : ArithmeticKind) :
    Recovers ArithmeticKind.toJson ArithmeticKind.ofJson? k where
  exact := .string _
  read := by
    intro nesting _
    cases k <;> rfl

theorem Predicate.recovers (p : Predicate) : Recovers Predicate.toJson Predicate.ofJson? p where
  exact := .string _
  read := by
    intro nesting _
    cases p <;> rfl

theorem Expression.recovers (p : Payloads) (e : Expression) :
    Recovers Expression.toJson (Expression.ofJson? p) e := by
  induction e with
  | constant v =>
    refine .of_case v.recovers v.one_le_depth rfl fun n hv => ?_
    simp only [ofJson?, case?_ofCase, hv, Option.map_some]
  | read x =>
    refine .of_case x.recovers (one_le_depth_record _) rfl fun n hx => ?_
    simp only [ofJson?, case?_ofCase, hx, Option.map_some]
  | arithmetic k l r ihl ihr =>
    refine .of_case_three k.recovers ihl ihr rfl fun n hk hl hr => ?_
    simp only [ofJson?, case?_ofCase, payloadFields?_record]
    exact read_three (by simp) hk hl hr arithmetic
  | relational q l r ihl ihr =>
    refine .of_case_three q.recovers ihl ihr rfl fun n hq hl hr => ?_
    simp only [ofJson?, case?_ofCase, payloadFields?_record]
    exact read_three (by simp) hq hl hr relational

section

variable {d : Dialect} (p : Payloads)

theorem sequenceItems_eq_map (s : Sequence d) : sequenceItems s = s.map Op.toJson := by
  induction s with
  | nil => rfl
  | cons o s ih => rw [sequenceItems, ih, List.map_cons]

theorem sequence_recovers {s : Sequence d} (h : ∀ o ∈ s, Recovers Op.toJson (Op.ofJson? d p) o) :
    Recovers sequenceToJson (sequenceOfJson? d p) s := by
  have hitems : sequenceToJson s = .array (s.map Op.toJson) := by
    rw [sequenceToJson, sequenceItems_eq_map]
  refine .of_levels 1 ?_ ?_ ?_
  · rw [hitems]
    refine .array fun j hj => ?_
    obtain ⟨o, ho, rfl⟩ := List.mem_map.mp hj
    exact (h o ho).exact
  · rw [hitems]
    exact one_le_depth_array _
  · intro n hdepth
    rw [hitems, array_depth_le, List.forall_mem_map] at hdepth
    have hread : ∀ o ∈ s, Op.ofJson? d p n o.toJson = some o :=
      fun o ho => (h o ho).read n (hdepth o ho)
    rw [hitems, sequenceOfJson?]
    exact mapM_map_of_forall hread

/-- The name of a kind is not the name of another kind of the dialect. -/
theorem Op.kind?_name (o : Op d) : d.kind? o.kind.name = some o.kind := by
  cases d with
  | core =>
    cases o with
    | scope g b => exact absurd g (by decide)
    | _ => rfl
  | imp => cases o <;> rfl

theorem Op.toJson_eq (o : Op d) : o.toJson = ofCase o.kind.name o.payload := by
  cases o <;> rfl

theorem Op.bare?_kind {o : Op d} (hpayload : o.payload = .null) : Op.bare? d o.kind = some o := by
  cases o with
  | skip => rfl
  | breakLoop => cases d <;> rfl
  | terminate => rfl
  | _ => nomatch hpayload

theorem Op.ofJson?_bare {o : Op d} (hpayload : o.payload = .null) (n : Nat) :
    Op.ofJson? d p (n + 1) (ofCase o.kind.name .null) = some o := by
  have hbare := bare?_kind hpayload
  cases n with
  | zero => simp only [Op.ofJson?, case?_ofCase, o.kind?_name, Option.bind_some, hbare]
  | succ n =>
    simp only [Op.ofJson?, case?_ofCase, o.kind?_name]
    cases o with
    | skip => exact hbare
    | breakLoop => cases d <;> exact hbare
    | terminate => exact hbare
    | _ => nomatch hpayload

theorem Op.recovers_of_bare {o : Op d} (hpayload : o.payload = .null) :
    Recovers Op.toJson (Op.ofJson? d p) o := by
  have hjson : o.toJson = ofCase o.kind.name .null := by rw [o.toJson_eq, hpayload]
  refine .of_levels 1 ?_ ?_ ?_
  · rw [hjson]
    exact Exact.ofCase .null
  · rw [hjson]
    exact one_le_depth_record _
  · intro n _
    rw [hjson]
    exact Op.ofJson?_bare p hpayload n

theorem Op.recovers (o : Op d) : Recovers Op.toJson (Op.ofJson? d p) o := by
  induction o using Op.region_induction with
  | step o ih =>
  -- The elements of each region are recovered, so each region is.
  have hregion : ∀ r ∈ o.regions, Recovers sequenceToJson (sequenceOfJson? d p) r.2 :=
    fun r hr => sequence_recovers p (ih r hr)
  cases o with
  | skip => exact recovers_of_bare p rfl
  | breakLoop => exact recovers_of_bare p rfl
  | terminate => exact recovers_of_bare p rfl
  | assign x e =>
    refine .of_case_two x.recovers (e.recovers p) (toJson_eq _) fun n hx he => ?_
    simp only [ofJson?, case?_ofCase, kind?_name]
    exact read_two (by simp) hx he assign
  | conditional c t e =>
    simp only [regions, List.forall_mem_cons] at hregion
    obtain ⟨ht, he, -⟩ := hregion
    refine .of_case_three (c.recovers p) ht he (toJson_eq _) fun n hc ht he => ?_
    simp only [ofJson?, case?_ofCase, kind?_name]
    exact read_three (by simp) hc ht he conditional
  | whileLoop c b =>
    simp only [regions, List.forall_mem_cons] at hregion
    obtain ⟨hb, -⟩ := hregion
    refine .of_case_two (c.recovers p) hb (toJson_eq _) fun n hc hb => ?_
    simp only [ofJson?, case?_ofCase, kind?_name]
    exact read_two (by simp) hc hb whileLoop
  | scope g b =>
    simp only [regions, List.forall_mem_cons] at hregion
    obtain ⟨hb, -⟩ := hregion
    refine .of_case hb (one_le_depth_array _) (toJson_eq _) fun n hb => ?_
    simp only [ofJson?, case?_ofCase, kind?_name]
    simp only [kind, hb, Option.bind_some, scope?, g, dite_true]

theorem Program.recovers (q : Program d) : Recovers Program.toJson (Program.ofJson? d p) q := by
  have hbody := sequence_recovers (s := q.body) p fun o _ => o.recovers p
  refine ⟨hbody.exact, ?_⟩
  intro nesting hdepth
  rw [Program.ofJson?, Program.toJson, hbody.read nesting hdepth, Option.map_some]

end

namespace Config

theorem Preset.recovers (p : Preset) : Recovers Preset.toJson Preset.ofJson? p where
  exact := .string _
  read := by
    intro nesting _
    cases p <;> rfl

theorem Settings.recovers (s : Settings) : Recovers Settings.toJson Settings.ofJson? s := by
  refine .of_record rfl (by simp [Exact.integer, Exact.bool]) fun n _ => ?_
  have hdepth := natBelow?_integer s.maxNestingDepth.toNat_lt_size
  have hstray : Json.bool? (.bool s.allowStrayBreak) = some s.allowStrayBreak := rfl
  rw [Settings.ofJson?, if_neg n.succ_ne_zero, fieldNames]
  refine (read_two (by simp) hdepth hstray fun m stray => Settings.mk (.ofNat m) stray).trans ?_
  rw [UInt64.ofNat_toNat]

theorem presentField_lookup {α : Type} (name : String) (toJson : α → Json) (a? : Option α) :
    (presentField name toJson a?).lookup name = a?.map toJson := by
  cases a? with
  | none => rfl
  | some a => simp [presentField]

theorem Overrides.recovers (o : Overrides) : Recovers Overrides.toJson Overrides.ofJson? o := by
  obtain ⟨v⟩ := o
  have hexact : ∀ f ∈ presentField "validation" Settings.toJson v, Exact f.2 := by
    cases v with
    | none => simp [presentField]
    | some s => simp [presentField, s.recovers.exact]
  refine .of_record rfl hexact fun n hdepth => ?_
  have hv : optionalField? (presentField "validation" Settings.toJson v) "validation"
      (Settings.ofJson? n) = some v := by
    refine optionalField?_of_lookup (presentField_lookup _ _ v) nofun ?_
    rintro s rfl
    exact s.recovers.read n (hdepth ("validation", s.toJson) (by simp [presentField]))
  rw [Overrides.ofJson?,
    recordFields?_record (by cases v <;> simp [presentField, fieldNames])
      (by cases v <;> simp [presentField])]
  simp [hv]

def Export.fields (e : Export) : List (String × Json) :=
  presentField "version" (fun v : UInt32 => .integer v.toNat) e.version ++
    [("preset", .ofString e.preset)] ++ presentField "overrides" Overrides.toJson e.overrides

theorem Export.fields_lookup (e : Export) :
    e.fields.lookup "version" = (e.version.map UInt32.toNat).map (fun n => .integer n) ∧
      e.fields.lookup "preset" = some (.ofString e.preset) ∧
      e.fields.lookup "overrides" = e.overrides.map Overrides.toJson := by
  obtain ⟨v, preset, o⟩ := e
  cases v with
  | none => cases o <;> exact ⟨rfl, rfl, rfl⟩
  | some v => cases o <;> exact ⟨rfl, rfl, rfl⟩

theorem Export.recordFields?_toJson (e : Export) :
    e.toJson.recordFields? fieldNames true = some e.fields := by
  obtain ⟨v, preset, o⟩ := e
  refine recordFields?_record ?_ ?_
  · cases v <;> cases o <;> simp [presentField, fieldNames]
  · cases v <;> cases o <;> simp [presentField]

theorem Export.fields_exact (e : Export) : ∀ f ∈ e.fields, Exact f.2 := by
  obtain ⟨v, preset, o⟩ := e
  cases v <;> cases o <;>
    simp [fields, presentField, Exact.integer, Exact.string, ofString,
      (Overrides.recovers _).exact]

theorem Export.recovers (e : Export) : Recovers Export.toJson Export.ofJson? e := by
  have hjson : e.toJson = record e.fields := rfl
  refine .of_record hjson e.fields_exact fun n hdepth => ?_
  obtain ⟨hversion, hpreset, hoverrides⟩ := e.fields_lookup
  have hv : optionalField? e.fields "version" (natBelow? UInt32.size) =
      some (e.version.map UInt32.toNat) := by
    refine optionalField?_of_lookup hversion nofun ?_
    intro m hm
    obtain ⟨v, -, rfl⟩ := Option.map_eq_some_iff.mp hm
    exact natBelow?_integer v.toNat_lt_size
  have ho : optionalField? e.fields "overrides" (Overrides.ofJson? n) = some e.overrides := by
    refine optionalField?_of_lookup hoverrides nofun ?_
    intro o ho
    have hmem : ("overrides", o.toJson) ∈ e.fields := by
      rw [Export.fields, Option.mem_def.mp ho]
      simp [presentField]
    exact o.recovers.read n (hdepth _ hmem)
  have hround : UInt32.ofNat ∘ UInt32.toNat = id := funext fun v => UInt32.ofNat_toNat
  rw [Export.ofJson?, ← hjson, e.recordFields?_toJson]
  simp [hv, ho, field?, hpreset, ofString, text?, hround]

end Config

def EscapeSummary.InRange (s : EscapeSummary) : Prop :=
  s.loops < countBound ∧ s.absorbingLoops < countBound

instance (s : EscapeSummary) : Decidable s.InRange := inferInstanceAs (Decidable (_ ∧ _))

theorem EscapeSummary.recovers {s : EscapeSummary} (hs : s.InRange) :
    Recovers EscapeSummary.toJson EscapeSummary.ofJson? s := by
  refine .of_record rfl (by simp [Exact.integer, Exact.bool]) fun n _ => ?_
  have hescapes : Json.bool? (.bool s.escapes) = some s.escapes := rfl
  rw [EscapeSummary.ofJson?, if_neg n.succ_ne_zero]
  exact read_three (by simp) hescapes (natBelow?_integer hs.1) (natBelow?_integer hs.2)
    EscapeSummary.mk

def Report.InRange (r : Report) : Prop :=
  r.operations < countBound ∧ r.maxDepth < countBound ∧ r.escape.InRange

instance (r : Report) : Decidable r.InRange := inferInstanceAs (Decidable (_ ∧ _ ∧ _))

theorem Report.recovers {r : Report} (hr : r.InRange) :
    Recovers Report.toJson Report.ofJson? r := by
  obtain ⟨hoperations, hmax, hescape⟩ := hr
  have hescape := EscapeSummary.recovers hescape
  refine .of_record rfl (by simp [Exact.integer, hescape.exact]) fun n hdepth => ?_
  have hescape := hescape.read n (hdepth ("escape", r.escape.toJson) (by simp))
  rw [Report.ofJson?]
  exact read_three (by simp) (natBelow?_integer hoperations) (natBelow?_integer hmax) hescape
    Report.mk

/-- Validation reports no more of a program than it has operations. -/
theorem Program.report_inRange {d : Dialect} {p : Program d} {s : Config.Settings} {r : Report}
    (hcount : countSequence p.body < countBound) (hr : p.validate s = .ok r) : r.InRange := by
  have hloops : ∀ q : Located d → Bool, (p.operations .main).countP q < countBound := by
    intro q
    have hle := List.countP_le_length (p := q) (l := p.operations .main)
    rw [length_operations] at hle
    omega
  rcases p.visit_tally s.maxNestingDepth.toNat with ⟨-, t, hvisit⟩ | ⟨hnesting, hvisit⟩
  · rw [Program.validate, hvisit] at hr
    cases hr
  · rw [Program.validate, hvisit] at hr
    simp only at hr
    split at hr
    · cases hr
    · cases hr
      have hlimit : s.maxNestingDepth.toNat < countBound := s.maxNestingDepth.toNat_lt_size
      refine ⟨hcount, Nat.lt_of_le_of_lt hnesting hlimit, ?_⟩
      rw [summarize_eq]
      exact ⟨hloops _, hloops _⟩

theorem Report.depth_le (r : Report) : r.toJson.depth ≤ Json.maxDepth := by
  have h : r.toJson.depth ≤ 1 + 1 := by
    simp [Report.toJson, EscapeSummary.toJson, record_depth_le, depth]
  exact Nat.le_trans h (by decide)

/-- Reading undoes writing: every value that nests no deeper than the reader enters is read back
from its compact and from its indented text, and every report from the text it is shown as. -/
theorem json_round_trip :
    (∀ v, RoundTrips Literal.toJson Literal.ofJson? v) ∧
    (∀ x, RoundTrips Variable.toJson Variable.ofJson? x) ∧
    (∀ k, RoundTrips ArithmeticKind.toJson ArithmeticKind.ofJson? k) ∧
    (∀ q, RoundTrips Predicate.toJson Predicate.ofJson? q) ∧
    (∀ p e, RoundTrips Expression.toJson (Expression.ofJson? p) e) ∧
    (∀ (d : Dialect) (p : Payloads) (o : Op d), RoundTrips Op.toJson (Op.ofJson? d p) o) ∧
    (∀ (d : Dialect) (p : Payloads) (q : Program d),
      RoundTrips Program.toJson (Program.ofJson? d p) q) ∧
    (∀ p, RoundTrips Config.Preset.toJson Config.Preset.ofJson? p) ∧
    (∀ s, RoundTrips Config.Settings.toJson Config.Settings.ofJson? s) ∧
    (∀ e, RoundTrips Config.Export.toJson Config.Export.ofJson? e) ∧
    (∀ s : EscapeSummary, s.InRange → RoundTrips EscapeSummary.toJson EscapeSummary.ofJson? s) ∧
    (∀ r : Report, r.InRange → RoundTrips Report.toJson Report.ofJson? r ∧
      readAs? (Report.ofJson? nesting) r.text = some r) := by
  refine ⟨fun v => v.recovers.roundTrips, fun x => x.recovers.roundTrips,
    fun k => k.recovers.roundTrips, fun q => q.recovers.roundTrips,
    fun p e => (e.recovers p).roundTrips, fun d p o => (o.recovers p).roundTrips,
    fun d p q => (q.recovers p).roundTrips, fun p => p.recovers.roundTrips,
    fun s => s.recovers.roundTrips, fun e => e.recovers.roundTrips,
    fun s hs => (EscapeSummary.recovers hs).roundTrips, fun r hr => ?_⟩
  have hround := (Report.recovers hr).roundTrips
  exact ⟨hround, (hround r.depth_le).2⟩

/-- A name of control characters, quotes and backslashes, the ends of both integer ranges, and an
export without its optional fields are all read back. -/
theorem json_round_trip_extremes :
    readAs? (Program.ofJson? .imp .anyForm nesting)
      (Program.toJson (d := .imp) ⟨[.scope rfl [.conditional
        (.relational .lt (.read ⟨"\"\\/\n\t\x00\x1f\x7f"⟩)
          (.constant (.unsigned 18446744073709551615)))
        [.assign ⟨""⟩ (.constant (.signed (-9223372036854775808)))] [.breakLoop]]]⟩).compact =
      some ⟨[.scope rfl [.conditional
        (.relational .lt (.read ⟨"\"\\/\n\t\x00\x1f\x7f"⟩)
          (.constant (.unsigned 18446744073709551615)))
        [.assign ⟨""⟩ (.constant (.signed (-9223372036854775808)))] [.breakLoop]]]⟩ ∧
    readAs? (Config.Export.ofJson? nesting)
      (Config.Export.toJson ⟨none, "\"\\\x08é", some ⟨none⟩⟩).compact =
      some ⟨none, "\"\\\x08é", some ⟨none⟩⟩ ∧
    readAs? (Report.ofJson? nesting) (Report.text ⟨3, 2, ⟨true, 18446744073709551615, 0⟩⟩) =
      some ⟨3, 2, ⟨true, 18446744073709551615, 0⟩⟩ := by
  obtain ⟨-, -, -, -, -, -, hprogram, -, -, hexport, -, hreport⟩ := json_round_trip
  exact ⟨(hprogram .imp .anyForm _ (by decide)).1, (hexport _ (by decide)).1,
    (hreport _ (by decide)).2⟩

end RegionFlow

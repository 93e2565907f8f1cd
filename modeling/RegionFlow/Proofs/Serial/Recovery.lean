import RegionFlow.Proofs.Json.Reading
import RegionFlow.Serial
set_option autoImplicit false

namespace RegionFlow.Json

theorem itemsDepth_le {items : List Json} {n : Nat} :
    itemsDepth items ≤ n ↔ ∀ j ∈ items, j.depth ≤ n := by
  induction items with
  | nil => simp [itemsDepth]
  | cons j items ih => rw [itemsDepth, Nat.max_le, ih, List.forall_mem_cons]

theorem fieldsDepth_le {fields : List (JsonText × Json)} {n : Nat} :
    fieldsDepth fields ≤ n ↔ ∀ f ∈ fields, f.2.depth ≤ n := by
  induction fields with
  | nil => simp [fieldsDepth]
  | cons f fields ih => rw [fieldsDepth, Nat.max_le, ih, List.forall_mem_cons]

theorem array_depth_le {items : List Json} {n : Nat} :
    (array items).depth ≤ n + 1 ↔ ∀ j ∈ items, j.depth ≤ n := by
  rw [depth, Nat.add_comm, Nat.add_le_add_iff_right, itemsDepth_le]

theorem record_depth_le {fields : List (String × Json)} {n : Nat} :
    (record fields).depth ≤ n + 1 ↔ ∀ f ∈ fields, f.2.depth ≤ n := by
  rw [record, depth, Nat.add_comm, Nat.add_le_add_iff_right, fieldsDepth_le]
  exact List.forall_mem_map

theorem ofCase_depth_le {name : String} {payload : Json} {n : Nat} :
    (ofCase name payload).depth ≤ n + 1 ↔ payload.depth ≤ n := by
  simp [ofCase, record_depth_le]

theorem one_le_depth_array (items : List Json) : 1 ≤ (array items).depth := by
  rw [depth]
  omega

theorem one_le_depth_record (fields : List (String × Json)) : 1 ≤ (record fields).depth := by
  rw [record, depth]
  omega

theorem two_le_depth_ofCase {name : String} {payload : Json} (h : 1 ≤ payload.depth) :
    2 ≤ (ofCase name payload).depth := by
  simp only [ofCase, record, depth, List.map_cons, List.map_nil, fieldsDepth]
  omega

theorem Exact.record {fields : List (String × Json)} (h : ∀ f ∈ fields, Exact f.2) :
    Exact (record fields) := by
  refine .object ?_ ?_
  · intro f hf
    obtain ⟨g, -, rfl⟩ := List.mem_map.mp hf
    rfl
  · intro f hf
    obtain ⟨g, hg, rfl⟩ := List.mem_map.mp hf
    exact h g hg

theorem Exact.ofCase {name : String} {payload : Json} (h : Exact payload) :
    Exact (ofCase name payload) := .record (by simpa using h)

@[simp] theorem case?_ofCase (name : String) (payload : Json) :
    (ofCase name payload).case? = some (name, payload) := rfl

/-- A record that names known fields, none twice, is read as it was written. -/
theorem recordFields?_record {names : List String} {closed : Bool} {fields : List (String × Json)}
    (hknown : ∀ f ∈ fields, names.contains f.1 = true) (hnodup : (fields.map Prod.fst).Nodup) :
    (record fields).recordFields? names closed = some fields := by
  rw [record, recordFields?]
  induction fields with
  | nil => rfl
  | cons f fields ih =>
    obtain ⟨k, j⟩ := f
    rw [List.forall_mem_cons] at hknown
    rw [List.map_cons, List.nodup_cons] at hnodup
    have hfresh : (fields.any fun f => f.1 == k) = false := by
      rw [List.any_eq_false]
      intro f hf hk
      exact hnodup.1 (List.mem_map.mpr ⟨f, hf, by simpa using hk⟩)
    rw [List.map_cons, knownFields?, ih hknown.2 hnodup.2]
    simp only [hknown.1, hfresh, if_true, Bool.false_eq_true, if_false]

theorem payloadFields?_record (p : Payloads) (names : List String) (fields : List (String × Json)) :
    (record fields).payloadFields? p names = (record fields).recordFields? names false := rfl

theorem natBelow?_integer {bound n : Nat} (h : n < bound) :
    natBelow? bound (.integer n) = some n := if_pos h

@[simp] theorem field?_first {α : Type} (name : String) (j : Json) (fields : List (String × Json))
    (ofJson? : Json → Option α) : field? ((name, j) :: fields) name ofJson? = ofJson? j := by
  rw [field?, List.lookup_cons_self, Option.bind_some]

theorem field?_later {α : Type} {name other : String} (h : name ≠ other) (j : Json)
    (fields : List (String × Json)) (ofJson? : Json → Option α) :
    field? ((other, j) :: fields) name ofJson? = field? fields name ofJson? := by
  rw [field?, field?, List.lookup_cons, beq_eq_false_iff_ne.mpr h]

section

variable {α β γ δ : Type} {x y z : String} {closed : Bool} {j k l : Json}
  {readA? : Json → Option α} {readB? : Json → Option β} {readC? : Json → Option γ}
  {a : α} {b : β} {c : γ}

theorem read_two (hnodup : [x, y].Nodup) (ha : readA? j = some a) (hb : readB? k = some b)
    (make : α → β → δ) :
    (do
      let fields ← (record [(x, j), (y, k)]).recordFields? [x, y] closed
      let a ← field? fields x readA?
      let b ← field? fields y readB?
      return make a b) = some (make a b) := by
  have hfields : (record [(x, j), (y, k)]).recordFields? [x, y] closed = some [(x, j), (y, k)] :=
    recordFields?_record (by simp) hnodup
  have hyx : y ≠ x := by
    rintro rfl
    simp at hnodup
  rw [hfields]
  simp [field?_later hyx, ha, hb]

theorem read_three (hnodup : [x, y, z].Nodup) (ha : readA? j = some a) (hb : readB? k = some b)
    (hc : readC? l = some c) (make : α → β → γ → δ) :
    (do
      let fields ← (record [(x, j), (y, k), (z, l)]).recordFields? [x, y, z] closed
      let a ← field? fields x readA?
      let b ← field? fields y readB?
      let c ← field? fields z readC?
      return make a b c) = some (make a b c) := by
  have hfields : (record [(x, j), (y, k), (z, l)]).recordFields? [x, y, z] closed =
      some [(x, j), (y, k), (z, l)] := recordFields?_record (by simp) hnodup
  have hyx : y ≠ x := by
    rintro rfl
    simp at hnodup
  have hzx : z ≠ x := by
    rintro rfl
    simp at hnodup
  have hzy : z ≠ y := by
    rintro rfl
    simp at hnodup
  rw [hfields]
  simp [field?_later hyx, field?_later hzx, field?_later hzy, ha, hb, hc]

end

/-- A field that may be left out is read as it was written, for no value is written as null. -/
theorem optionalField?_of_lookup {α : Type} {fields : List (String × Json)} {name : String}
    {toJson : α → Json} {ofJson? : Json → Option α} {a? : Option α}
    (hlookup : fields.lookup name = a?.map toJson) (hnull : ∀ a, toJson a ≠ .null)
    (hread : ∀ a ∈ a?, ofJson? (toJson a) = some a) :
    optionalField? fields name ofJson? = some a? := by
  rw [optionalField?.eq_def, hlookup]
  cases a? with
  | none => rfl
  | some a =>
    have hread := hread a rfl
    have hnull := hnull a
    rw [Option.map_some]
    generalize toJson a = j at hread hnull
    cases j with
    | null => exact absurd rfl hnull
    | _ => simp [hread]

/-- The reader gets the value back from what the writer makes of it, if it may enter as many
containers as stand there inside one another. -/
structure Recovers {α : Type} (toJson : α → Json) (ofJson? : Nat → Json → Option α) (a : α) :
    Prop where
  exact : Exact (toJson a)
  read : ∀ nesting, (toJson a).depth ≤ nesting → ofJson? nesting (toJson a) = some a

theorem Recovers.of_levels {α : Type} {toJson : α → Json} {ofJson? : Nat → Json → Option α} {a : α}
    (levels : Nat) (hexact : Exact (toJson a)) (hlevels : levels ≤ (toJson a).depth)
    (hread : ∀ n, (toJson a).depth ≤ n + levels → ofJson? (n + levels) (toJson a) = some a) :
    Recovers toJson ofJson? a where
  exact := hexact
  read := by
    intro nesting hdepth
    obtain ⟨n, rfl⟩ := Nat.exists_eq_add_of_le' (Nat.le_trans hlevels hdepth)
    exact hread n hdepth

section

variable {α β γ δ : Type} {toA : α → Json} {ofA? : Nat → Json → Option α} {a : α}
  {toB : β → Json} {ofB? : Nat → Json → Option β} {b : β}
  {toC : γ → Json} {ofC? : Nat → Json → Option γ} {c : γ}
  {toJson : δ → Json} {ofJson? : Nat → Json → Option δ} {v : δ} {name : String}
  {fields : List (String × Json)}

theorem Recovers.of_record (hjson : toJson v = record fields) (hexact : ∀ f ∈ fields, Exact f.2)
    (hread : ∀ n, (∀ f ∈ fields, f.2.depth ≤ n) → ofJson? (n + 1) (record fields) = some v) :
    Recovers toJson ofJson? v := by
  refine .of_levels 1 (hjson ▸ .record hexact) (hjson ▸ one_le_depth_record _) ?_
  intro n hdepth
  rw [hjson] at hdepth ⊢
  exact hread n (record_depth_le.mp hdepth)

theorem Recovers.of_case (ha : Recovers toA ofA? a) (hlevel : 1 ≤ (toA a).depth)
    (hjson : toJson v = ofCase name (toA a))
    (hread : ∀ n, ofA? (n + 1) (toA a) = some a → ofJson? (n + 2) (ofCase name (toA a)) = some v) :
    Recovers toJson ofJson? v := by
  refine .of_levels 2 (hjson ▸ .ofCase ha.exact) (hjson ▸ two_le_depth_ofCase hlevel) ?_
  intro n hdepth
  rw [hjson] at hdepth ⊢
  exact hread n (ha.read (n + 1) (ofCase_depth_le.mp hdepth))

theorem Recovers.of_case_record (hjson : toJson v = ofCase name (record fields))
    (hexact : ∀ f ∈ fields, Exact f.2)
    (hread : ∀ n, (∀ f ∈ fields, f.2.depth ≤ n) →
      ofJson? (n + 2) (ofCase name (record fields)) = some v) :
    Recovers toJson ofJson? v := by
  refine .of_levels 2 (hjson ▸ .ofCase (.record hexact))
    (hjson ▸ two_le_depth_ofCase (one_le_depth_record _)) ?_
  intro n hdepth
  rw [hjson] at hdepth ⊢
  exact hread n (record_depth_le.mp (ofCase_depth_le.mp hdepth))

variable {x y z : String}

theorem Recovers.of_case_two (ha : Recovers toA ofA? a) (hb : Recovers toB ofB? b)
    (hjson : toJson v = ofCase name (record [(x, toA a), (y, toB b)]))
    (hread : ∀ n, ofA? n (toA a) = some a → ofB? n (toB b) = some b →
      ofJson? (n + 2) (ofCase name (record [(x, toA a), (y, toB b)])) = some v) :
    Recovers toJson ofJson? v := by
  refine .of_case_record hjson (by simp [ha.exact, hb.exact]) fun n hdepth => ?_
  simp only [List.forall_mem_cons] at hdepth
  obtain ⟨hadepth, hbdepth, -⟩ := hdepth
  exact hread n (ha.read n hadepth) (hb.read n hbdepth)

theorem Recovers.of_case_three (ha : Recovers toA ofA? a) (hb : Recovers toB ofB? b)
    (hc : Recovers toC ofC? c)
    (hjson : toJson v = ofCase name (record [(x, toA a), (y, toB b), (z, toC c)]))
    (hread : ∀ n, ofA? n (toA a) = some a → ofB? n (toB b) = some b → ofC? n (toC c) = some c →
      ofJson? (n + 2) (ofCase name (record [(x, toA a), (y, toB b), (z, toC c)])) = some v) :
    Recovers toJson ofJson? v := by
  refine .of_case_record hjson (by simp [ha.exact, hb.exact, hc.exact]) fun n hdepth => ?_
  simp only [List.forall_mem_cons] at hdepth
  obtain ⟨hadepth, hbdepth, hcdepth, -⟩ := hdepth
  exact hread n (ha.read n hadepth) (hb.read n hbdepth) (hc.read n hcdepth)

end

/-- A value that does not nest too deep is read back from its compact and from its indented text. -/
def RoundTrips {α : Type} (toJson : α → Json) (ofJson? : Nat → Json → Option α) (a : α) : Prop :=
  (toJson a).depth ≤ maxDepth →
    readAs? (ofJson? nesting) (toJson a).compact = some a ∧
      readAs? (ofJson? nesting) (toJson a).pretty = some a

theorem Recovers.roundTrips {α : Type} {toJson : α → Json} {ofJson? : Nat → Json → Option α} {a : α}
    (h : Recovers toJson ofJson? a) : RoundTrips toJson ofJson? a := by
  intro hdepth
  have hread : ofJson? nesting (toJson a) = some a := h.read nesting hdepth
  constructor
  · rw [readAs?, h.exact.read?_compact, Option.bind_some, hread]
  · rw [readAs?, h.exact.read?_pretty, Option.bind_some, hread]

theorem mapM_map_of_forall {α : Type} {toJson : α → Json} {ofJson? : Json → Option α} {as : List α}
    (h : ∀ a ∈ as, ofJson? (toJson a) = some a) : (as.map toJson).mapM ofJson? = some as := by
  induction as with
  | nil => rfl
  | cons a as ih =>
    rw [List.forall_mem_cons] at h
    rw [List.map_cons, List.mapM_cons, h.1, ih h.2]
    rfl

end RegionFlow.Json

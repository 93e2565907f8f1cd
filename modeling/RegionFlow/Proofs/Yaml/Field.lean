import RegionFlow.Proofs.Text.Word
import RegionFlow.Yaml.Scan
set_option autoImplicit false

/-!
Block mappings, written one field a line.  Behind the colon of a field stands a word, or nothing;
then the fields of a mapping of its own may follow it, indented deeper.  What the scanner makes of a
line is read off its column: it closes the mappings that are indented deeper, and opens one unless
the innermost one left stands there.
-/

namespace RegionFlow.Yaml

/-- A word that needs no quotes. -/
structure IsBare (w : List Char) : Prop where
  chars : ∀ c ∈ w, isWord c = true
  head : ∃ c rest, w = c :: rest ∧ c ≠ '-'

theorem isBare_of_all {w : List Char} (h : (w.all isWord && startsWith (· != '-') w) = true) :
    IsBare w := by
  rw [Bool.and_eq_true, List.all_eq_true] at h
  obtain ⟨hchars, hhead⟩ := h
  cases w with
  | nil => simp [startsWith] at hhead
  | cons c rest => exact ⟨hchars, c, rest, rfl, by simpa [startsWith] using hhead⟩

theorem isBare_decimal (n : Nat) : IsBare (Nat.toDigits 10 n) := by
  have hword : ∀ c : Char, c.isDigit = true → isWord c = true := fun c hc => by
    simp [isWord, Char.isAlphanum, hc]
  obtain ⟨d, ds, hds, hd⟩ := Text.decimal_eq_cons n
  refine ⟨fun c hc => hword c (Text.isDigit_of_mem_decimal hc), d, ds, hds, ?_⟩
  rintro rfl
  exact absurd hd (by decide)

theorem ne_of_isWord {c : Char} (hc : isWord c = true) (x : Char) (hx : isWord x = false) :
    c ≠ x := by
  rintro rfl
  simp [hc] at hx

theorem beq_eq_false_of_isWord {c : Char} (hc : isWord c = true) (x : Char)
    (hx : isWord x = false) : (c == x) = false :=
  beq_eq_false_iff_ne.mpr (ne_of_isWord hc x hx)

theorem isGap_eq_false_of_isWord {c : Char} (hc : isWord c = true) : isGap c = false := by
  have hne := beq_eq_false_of_isWord hc
  simp (disch := decide) only [isGap, isBlank, isBreak, hne, Bool.or_self]

theorem isFlowIndicator_eq_false_of_isWord {c : Char} (hc : isWord c = true) :
    isFlowIndicator c = false := by
  have hne := beq_eq_false_of_isWord hc
  simp (disch := decide) only [isFlowIndicator, hne, Bool.or_self]

theorem isPrintable_of_isWord {c : Char} (hc : isWord c = true) : isPrintable c = true := by
  have hupper : c.isUpper = true → 65 ≤ c.toNat ∧ c.toNat ≤ 90 := fun h => of_decide_eq_true h
  have hlower : c.isLower = true → 97 ≤ c.toNat ∧ c.toNat ≤ 122 := fun h =>
    (Bool.and_eq_true_iff.mp h).imp of_decide_eq_true of_decide_eq_true
  have hrange : 32 ≤ c.toNat ∧ c.toNat ≤ 126 := by
    simp only [isWord, Bool.or_eq_true, beq_iff_eq] at hc
    obtain (halnum | rfl) | rfl := hc
    · obtain halpha | hdigit := Bool.or_eq_true_iff.mp halnum
      · obtain h | h := Bool.or_eq_true_iff.mp halpha
        · have := hupper h
          omega
        · have := hlower h
          omega
      · have hbounds : 48 ≤ c.toNat ∧ c.toNat ≤ 57 := Char.isDigit_iff_toNat.mp hdigit
        omega
    · decide
    · decide
  simp [isPrintable, hrange]

variable {inFlow keyAllowed : Bool} {indent line column : Nat} {text rest w : List Char}

theorem skipToToken_stop {c : Char} (hgap : isGap c = false) (hcomment : c ≠ '#')
    (hmark : c ≠ '\ufeff') : skipToToken inFlow false keyAllowed (c :: rest) line column =
      (keyAllowed, ⟨c :: rest, line, column⟩) := by
  simp only [isGap, isBlank, Bool.or_eq_false_iff] at hgap
  simp [skipToToken, hgap, hcomment, hmark]

theorem skipToToken_word (hw : IsBare w) :
    skipToToken inFlow false keyAllowed (w ++ rest) line column =
      (keyAllowed, ⟨w ++ rest, line, column⟩) := by
  obtain ⟨c, tail, rfl, -⟩ := hw.head
  have hc := hw.chars c List.mem_cons_self
  exact skipToToken_stop (isGap_eq_false_of_isWord hc) (ne_of_isWord hc '#' (by decide))
    (ne_of_isWord hc '\ufeff' (by decide))

theorem skipToToken_spaces (n : Nat) :
    skipToToken inFlow false keyAllowed (List.replicate n ' ' ++ rest) line column =
      skipToToken inFlow false keyAllowed rest line (column + n) := by
  induction n generalizing column with
  | zero => rfl
  | succ n ih =>
    rw [List.replicate_succ, List.cons_append, skipToToken]
    simp [isBreak, ih, Nat.add_assoc, Nat.add_comm 1 n]

theorem plainFrom_word (hw : ∀ c ∈ w, isWord c = true) :
    plainFrom inFlow indent (w ++ rest) line column none text =
      plainFrom inFlow indent rest line (column + w.length) none (w.reverse ++ text) := by
  induction w generalizing column text with
  | nil => rfl
  | cons c w ih =>
    rw [List.forall_mem_cons] at hw
    have hcolon : (c == ':') = false := beq_eq_false_of_isWord hw.1 ':' (by decide)
    rw [List.cons_append, plainFrom]
    simp only [isGap_eq_false_of_isWord hw.1, badColon, endsPlain, hcolon,
      isFlowIndicator_eq_false_of_isWord hw.1]
    simp [ih hw.2, foldGap, Nat.add_assoc, Nat.add_comm 1 w.length]

/-- A colon at the end of a word ends a plain scalar. -/
theorem plainFrom_colon (hends : endsWord rest = true) :
    plainFrom false indent (':' :: rest) line column none text =
      some (text, ⟨':' :: rest, line, column⟩, false) := by
  have hcolon : isGap ':' = false := by decide
  simp [plainFrom, hcolon, badColon, endsPlain, hends, isBrokenGap]

theorem plainFrom_spaces (n : Nat) (first : Option Char) (more : List Char) :
    plainFrom inFlow indent (List.replicate n ' ' ++ rest) line column (some (.breaks first more))
      text = plainFrom inFlow indent rest line (column + n) (some (.breaks first more)) text := by
  induction n generalizing column with
  | zero => rfl
  | succ n ih =>
    rw [List.replicate_succ, List.cons_append, plainFrom]
    simp [isGap, isBlank, isBreak, Gap.add, ih, Nat.add_assoc, Nat.add_comm 1 n]

/-- A line that is not indented enough ends a plain scalar. -/
theorem plainFrom_break (n : Nat) (hgap : Text.Stops isGap rest)
    (hindent : rest = [] ∨ n < indent) :
    plainFrom false indent ('\n' :: (List.replicate n ' ' ++ rest)) line column none text =
      some (text, ⟨rest, line + 1, n⟩, true) := by
  rw [plainFrom]
  simp only [show isGap '\n' = true by decide, show isBreak '\n' = true by decide, if_true,
    isBrokenGap, Bool.false_and, Bool.false_eq_true, if_false, Option.getD_none, Gap.add]
  rw [plainFrom_spaces, Nat.zero_add]
  cases rest with
  | nil => simp [plainFrom, isBrokenGap, Gap.isBroken]
  | cons c rest =>
    have hn : n < indent := hindent.resolve_left (by simp)
    have hc : isGap c = false := Text.stops_cons.mp hgap
    simp [plainFrom, hc, endsAfterGap, hn, isBrokenGap, Gap.isBroken]

structure Field where
  column : Nat
  name : List Char
  word? : Option (List Char)

namespace Field

def value (f : Field) (rest : List Char) : List Char :=
  match f.word? with
  | none => rest
  | some w => ' ' :: (w ++ rest)

def write (f : Field) (rest : List Char) : List Char := f.name ++ ':' :: f.value ('\n' :: rest)

def tokens (f : Field) : List Token :=
  [.key, .scalar .plain (String.ofList f.name), .value] ++
    (f.word?.map fun w => .scalar .plain (String.ofList w)).toList

def left (f : Field) (columns : List Nat) : List Nat := columns.dropWhile (f.column < ·)

def closed (f : Field) (columns : List Nat) : List Token :=
  List.replicate (columns.takeWhile (f.column < ·)).length .blockEnd

/-- Whether a line goes on with the innermost mapping it leaves open. -/
def continues (f : Field) (columns : List Nat) : Bool := (f.left columns).head? == some f.column

def opened (f : Field) (columns : List Nat) : List Nat :=
  if f.continues columns then f.left columns else f.column :: f.left columns

def opening (f : Field) (columns : List Nat) : List Token :=
  if f.continues columns then [] else [.blockMappingStart]

/-- Names and words are bare, and a name may be a key. -/
structure IsPlain (f : Field) : Prop where
  name : IsBare f.name
  short : f.name.length ≤ maxKeyLength
  word : ∀ w ∈ f.word?, IsBare w

theorem isPlain_word {column : Nat} {name w : List Char} (hname : IsBare name)
    (hshort : name.length ≤ maxKeyLength) (hw : IsBare w) : IsPlain ⟨column, name, some w⟩ :=
  ⟨hname, hshort, fun _ h => Option.some.inj h ▸ hw⟩

end Field

def fieldsTokens : List Nat → List Field → List Token
  | columns, [] => columns.map fun _ => .blockEnd
  | columns, f :: fs =>
    f.closed columns ++ f.opening columns ++ f.tokens ++ fieldsTokens (f.opened columns) fs

def writeFields : List Field → List Char
  | [] => []
  | f :: fs => List.replicate f.column ' ' ++ f.write (writeFields fs)

def unindented : List Field → List Char
  | [] => []
  | f :: fs => f.write (writeFields fs)

def firstColumn (fs : List Field) : Nat := (fs.head?.map Field.column).getD 0

/-- Lines that can be told from each other: a line below a word that were indented deeper would go
on with the word. -/
inductive AreFields : List Field → Prop where
  | nil : AreFields []
  | cons {f : Field} {fs : List Field} (plain : f.IsPlain)
      (below : f.word?.isSome = true → firstColumn fs ≤ f.column) (rest : AreFields fs) :
      AreFields (f :: fs)

theorem writeFields_eq (fs : List Field) :
    writeFields fs = List.replicate (firstColumn fs) ' ' ++ unindented fs := by
  cases fs with
  | nil => rfl
  | cons f fs => rfl

variable {f : Field} {fs : List Field} {columns : List Nat} {found : List Token} {line : Nat}
  {rest : List Char}

theorem AreFields.head (h : AreFields (f :: fs)) : f.IsPlain := by
  cases h with
  | cons plain => exact plain

theorem AreFields.tail (h : AreFields (f :: fs)) : AreFields fs := by
  cases h with
  | cons plain below rest => exact rest

theorem Field.write_eq_cons (hf : f.IsPlain) (rest : List Char) :
    ∃ c tail, f.write rest = c :: tail ∧ isWord c = true ∧ c ≠ '-' := by
  obtain ⟨c, tail, hname, hdash⟩ := hf.name.head
  refine ⟨c, tail ++ ':' :: f.value ('\n' :: rest), by simp [write, hname], ?_, hdash⟩
  exact hf.name.chars c (by simp [hname])

theorem stops_unindented (h : AreFields fs) : Text.Stops isGap (unindented fs) := by
  cases h with
  | nil => simp [unindented]
  | cons plain =>
    obtain ⟨c, tail, hwrite, hc, -⟩ := Field.write_eq_cons plain _
    rw [unindented, hwrite, Text.stops_cons]
    exact isGap_eq_false_of_isWord hc

theorem Field.endsWord_value (f : Field) : endsWord (f.value ('\n' :: rest)) = true := by
  cases hw : f.word? with
  | none => simp [value, hw, endsWord, isGap, isBreak]
  | some w => simp [value, hw, endsWord, isGap, isBlank]

theorem plain?_name (hf : f.IsPlain) (indent column : Nat) :
    plain? false indent ⟨f.write rest, line, column⟩ =
      some (f.name, ⟨':' :: f.value ('\n' :: rest), line, column + f.name.length⟩, false) := by
  simp [plain?, Field.write, plainFrom_word hf.name.chars, plainFrom_colon f.endsWord_value]

theorem plain?_word {w : List Char} (hw : IsBare w) (h : AreFields fs) {indent : Nat}
    (hindent : firstColumn fs < indent) (column : Nat) :
    plain? false indent ⟨w ++ '\n' :: writeFields fs, line, column⟩ =
      some (w, ⟨unindented fs, line + 1, firstColumn fs⟩, true) := by
  simp [plain?, plainFrom_word hw.chars, writeFields_eq,
    plainFrom_break (firstColumn fs) (stops_unindented h) (.inr hindent)]

theorem skipToToken_unindented {keyAllowed : Bool} (h : AreFields fs) (column : Nat) :
    skipToToken false false keyAllowed (unindented fs) line column =
      (keyAllowed, ⟨unindented fs, line, column⟩) := by
  cases h with
  | nil => rfl
  | cons plain => exact skipToToken_word plain.name

/-- A line that ends gives way to the next one, where a key may begin. -/
theorem skipToToken_lines {keyAllowed : Bool} (h : AreFields fs) (column : Nat) :
    skipToToken false false keyAllowed ('\n' :: writeFields fs) line column =
      (true, ⟨unindented fs, line + 1, firstColumn fs⟩) := by
  rw [skipToToken, writeFields_eq]
  simp [isBreak, skipToToken_spaces, skipToToken_unindented h]

theorem unifyBreaks_eq_self {text : List Char} (h : ∀ c ∈ text, c ≠ '\r' ∧ c ≠ '\x85') :
    unifyBreaks text = text := by
  induction text with
  | nil => rfl
  | cons c text ih =>
    rw [List.forall_mem_cons] at h
    simp [unifyBreaks, h.1, ih h.2]

theorem forall_mem_writeFields {P : Char → Prop} (hword : ∀ c, isWord c = true → P c)
    (hspace : P ' ') (hcolon : P ':') (hbreak : P '\n') (h : AreFields fs) :
    ∀ c ∈ writeFields fs, P c := by
  induction h with
  | nil => simp [writeFields]
  | @cons f fs plain below rest ih =>
    have hbare : ∀ w, IsBare w → ∀ c ∈ w, P c := fun w hw c hc => hword c (hw.chars c hc)
    have hindent : ∀ c ∈ List.replicate f.column ' ', P c := by
      intro c hc
      rwa [List.eq_of_mem_replicate hc]
    have hvalue : ∀ c ∈ f.value ('\n' :: writeFields fs), P c := by
      cases hw : f.word? with
      | none => simpa [Field.value, hw] using ⟨hbreak, ih⟩
      | some w =>
        have hchars := hbare w (plain.word w hw)
        simp only [Field.value, hw, List.forall_mem_cons, List.forall_mem_append]
        exact ⟨hspace, hchars, hbreak, ih⟩
    simp only [writeFields, Field.write, List.forall_mem_append, List.forall_mem_cons]
    exact ⟨hindent, hbare f.name plain.name, hcolon, hvalue⟩

theorem Field.length_write (hf : f.IsPlain) (rest : List Char) :
    rest.length + 3 ≤ (f.write rest).length := by
  obtain ⟨c, tail, hname, -⟩ := hf.name.head
  have hvalue : rest.length + 1 ≤ (f.value ('\n' :: rest)).length := by
    cases hw : f.word? with
    | none => simp [value, hw]
    | some w =>
      simp only [value, hw, List.length_cons, List.length_append]
      omega
  simp only [write, hname, List.length_append, List.length_cons]
  omega

theorem length_writeFields (h : AreFields fs) : 3 * fs.length ≤ (writeFields fs).length := by
  induction h with
  | nil => exact Nat.le_refl 0
  | @cons f fs plain below rest ih =>
    have hwrite := Field.length_write plain (writeFields fs)
    rw [writeFields, List.length_append, List.length_cons]
    omega

end RegionFlow.Yaml

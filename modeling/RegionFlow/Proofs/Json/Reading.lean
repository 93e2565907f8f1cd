import Mathlib.Tactic.SplitIfs
import RegionFlow.Json.Reader
import RegionFlow.Proofs.Text.Word
set_option autoImplicit false

namespace RegionFlow.Json

open Text

theorem pieces?_escaped {e x : Char} (he : escapedChar? e = some x) (rest : List Char) :
    pieces? ('\\' :: e :: rest) = (pieces? rest).map fun r => (.char x :: r.1, r.2) := by
  have hu : e ≠ 'u' := by
    rintro rfl
    simp [escapedChar?] at he
  rw [pieces?.eq_def]
  simp [hu, he]

theorem pieces?_plain {c : Char} (hquote : c ≠ '"') (hslash : c ≠ '\\')
    (hcontrol : ¬ c.toNat < 32) (rest : List Char) :
    pieces? (c :: rest) = (pieces? rest).map fun r => (.char c :: r.1, r.2) := by
  rw [pieces?.eq_def]
  simp [hquote, hslash, hcontrol]

theorem codePiece?_control : ∀ n < 32,
    codePiece? '0' '0' (hexDigit (n / 16)) (hexDigit (n % 16)) = some (.char (Char.ofNat n)) := by
  decide

theorem pieces?_control {c : Char} (hcontrol : c.toNat < 32) (rest : List Char) :
    pieces? ('\\' :: 'u' :: '0' :: '0' :: hexDigit (c.toNat / 16) :: hexDigit (c.toNat % 16) ::
      rest) = (pieces? rest).map fun r => (.char c :: r.1, r.2) := by
  have hcode := codePiece?_control c.toNat hcontrol
  rw [Char.ofNat_toNat] at hcode
  rw [pieces?.eq_def]
  simp [hcode]

/-- Whatever a character is spelled as, reading gives the character back. -/
theorem pieces?_escapeChar (c : Char) (rest : List Char) :
    pieces? (escapeChar c ++ rest) = (pieces? rest).map fun r => (.char c :: r.1, r.2) := by
  rw [escapeChar]
  split_ifs with hquote hslash hb hf hn hr ht hcontrol
  · rw [hquote]; exact pieces?_escaped rfl rest
  · rw [hslash]; exact pieces?_escaped rfl rest
  · rw [hb]; exact pieces?_escaped rfl rest
  · rw [hf]; exact pieces?_escaped rfl rest
  · rw [hn]; exact pieces?_escaped rfl rest
  · rw [hr]; exact pieces?_escaped rfl rest
  · rw [ht]; exact pieces?_escaped rfl rest
  · exact pieces?_control hcontrol rest
  · exact pieces?_plain hquote hslash hcontrol rest

theorem pieces?_escapeChars (cs rest : List Char) :
    pieces? (escapeChars cs ++ '"' :: rest) = some (cs.map .char, rest) := by
  induction cs with
  | nil => rw [escapeChars, List.nil_append, pieces?.eq_def]; simp
  | cons c cs ih => simp [escapeChars, pieces?_escapeChar, ih]

theorem joinPieces_map_char (cs : List Char) : joinPieces (cs.map .char) = some cs := by
  induction cs with
  | nil => rfl
  | cons c cs ih => simp [joinPieces, ih]

theorem string?_escapeChars (s : String) (rest : List Char) :
    string? (escapeChars s.toList ++ '"' :: rest) = some (some s, rest) := by
  simp [string?, pieces?_escapeChars, joinPieces_map_char]

def isNumberChar (c : Char) : Bool := c.isDigit || c == '.' || c == 'e' || c == 'E'

theorem digits_decimal (n : Nat) {rest : List Char} (hrest : Stops isNumberChar rest) :
    digits (Nat.toDigits 10 n ++ rest) = (Nat.toDigits 10 n, rest) := by
  have hdigits : ∀ c ∈ Nat.toDigits 10 n, c.isDigit = true :=
    fun c hc => isDigit_of_mem_decimal hc
  have hstops : Stops Char.isDigit rest := hrest.mono fun c hc => by simp [isNumberChar, hc]
  rw [digits, takeWhile_run hdigits hstops, dropWhile_run hdigits hstops]

theorem fraction?_of_stops {rest : List Char} (hrest : Stops isNumberChar rest) :
    fraction? rest = some ([], rest) := by
  cases rest with
  | nil => rfl
  | cons c rest =>
    have hc : c ≠ '.' := by
      rintro rfl
      simp [isNumberChar] at hrest
    simp [fraction?, hc]

theorem exponent?_of_stops {rest : List Char} (hrest : Stops isNumberChar rest) :
    exponent? rest = some ([], rest) := by
  cases rest with
  | nil => rfl
  | cons c rest =>
    have hc : ¬ (c = 'e' ∨ c = 'E') := by
      rintro (rfl | rfl)
      · simp [isNumberChar] at hrest
      · simp [isNumberChar] at hrest
    simp [exponent?, hc]

theorem unsignedNumber?_decimal (negative : Bool) (n : Nat) {rest : List Char}
    (hrest : Stops isNumberChar rest) :
    unsignedNumber? negative (Nat.toDigits 10 n ++ rest) =
      some (wholeNumber negative (Nat.toDigits 10 n), rest) := by
  have hread := digits_decimal n hrest
  obtain ⟨d, ds, hds, -⟩ := decimal_eq_cons n
  rw [hds] at hread ⊢
  have hzero : ¬ (d = '0' ∧ ds ≠ []) := by
    rintro ⟨rfl, hne⟩
    cases n with
    | zero => simp [Nat.toDigits_zero, eq_comm, hne] at hds
    | succ n =>
      have hhead := head?_decimal_ne_zero (Nat.succ_pos n)
      simp [hds] at hhead
  rw [unsignedNumber?, hread]
  simp [hzero, fraction?_of_stops hrest, exponent?_of_stops hrest]

theorem number?_integerChars (n : Int) {rest : List Char} (hrest : Stops isNumberChar rest) :
    number? (integerChars n ++ rest) = some (.integer n, rest) := by
  cases n with
  | ofNat n =>
    have hminus : ∀ text, Nat.toDigits 10 n ++ rest ≠ '-' :: text := by
      intro text heq
      obtain ⟨d, ds, hds, hd⟩ := decimal_eq_cons n
      rw [hds, List.cons_append] at heq
      simp [(List.cons.inj heq).1] at hd
    rw [integerChars, number?]
    · rw [unsignedNumber?_decimal false n hrest]
      simp [wholeNumber, Nat.ofDigitChars_ten_toDigits]
    · exact hminus
  | negSucc n =>
    simp only [integerChars, List.cons_append, number?]
    rw [unsignedNumber?_decimal true (n + 1) hrest]
    simp [wholeNumber, Nat.ofDigitChars_ten_toDigits, Int.negSucc_eq]

/-- A value whose strings are texts and whose numbers are integers. -/
inductive Exact : Json → Prop where
  | null : Exact .null
  | bool (b : Bool) : Exact (.bool b)
  | integer (n : Int) : Exact (.integer n)
  | string (s : String) : Exact (.string (some s))
  | array {items : List Json} (h : ∀ j ∈ items, Exact j) : Exact (.array items)
  | object {fields : List (JsonText × Json)} (hkeys : ∀ f ∈ fields, f.1.isSome = true)
      (h : ∀ f ∈ fields, Exact f.2) : Exact (.object fields)

theorem skipSpace_append {w : List Char} (hw : ∀ c ∈ w, isSpace c = true) (text : List Char) :
    skipSpace (w ++ text) = skipSpace text := by
  rw [skipSpace, skipSpace, List.dropWhile_append_of_pos hw]

theorem skipSpace_cons {c : Char} (hc : isSpace c = false) (text : List Char) :
    skipSpace (c :: text) = c :: text := by simp [skipSpace, hc]

theorem value?_append {w : List Char} (hw : ∀ c ∈ w, isSpace c = true) (fuel : Nat)
    (text : List Char) : value? fuel (w ++ text) = value? fuel text := by
  cases fuel with
  | zero => rfl
  | succ fuel => rw [value?, value?, skipSpace_append hw]

theorem quoted_some (s : String) :
    quoted (some s) = '"' :: (escapeChars s.toList ++ ['"']) := rfl

theorem key?_quoted {w : List Char} (hw : ∀ c ∈ w, isSpace c = true) (k : String)
    (text : List Char) : key? (w ++ (quoted (some k) ++ ':' :: text)) = some (some k, text) := by
  have hskip : skipSpace (quoted (some k) ++ ':' :: text) =
      '"' :: (escapeChars k.toList ++ '"' :: ':' :: text) := by
    rw [quoted_some]
    simp [skipSpace, isSpace]
  have hcolon : skipSpace (':' :: text) = ':' :: text := skipSpace_cons rfl text
  rw [key?, skipSpace_append hw, hskip]
  simp only [string?_escapeChars, hcolon]

theorem isNumberChar_of_isSpace {c : Char} (hc : isSpace c = true) : isNumberChar c = false := by
  simp only [isSpace, Bool.or_eq_true, beq_iff_eq] at hc
  rcases hc with ((rfl | rfl) | rfl) | rfl
  · simp [isNumberChar]
  · simp [isNumberChar]
  · simp [isNumberChar]
  · simp [isNumberChar]

theorem isSpace_eq_false {c : Char} (hc : c.isDigit = true) : isSpace c = false := by
  cases hspace : isSpace c with
  | false => rfl
  | true =>
    have hnumber := isNumberChar_of_isSpace hspace
    simp [isNumberChar, hc] at hnumber

/-- After a value comes white space, a comma or a closing bracket, so a number ends there. -/
theorem stops_line {l : Layout} {depth : Nat} {c : Char} {rest : List Char}
    (hc : isNumberChar c = false) : Stops isNumberChar (l.line depth ++ c :: rest) := by
  cases hline : l.line depth with
  | nil => simpa using hc
  | cons a line =>
    have ha : isSpace a = true := l.line_isSpace depth a (by simp [hline])
    exact stops_cons.mpr (isNumberChar_of_isSpace ha)

theorem stops_items (l : Layout) (depth : Nat) (items : List Json) (rest : List Char) :
    Stops isNumberChar (layOutItems l depth items ++ rest) := by
  cases items with
  | nil => simpa [layOutItems] using stops_line (by decide)
  | cons j items => simp [layOutItems, isNumberChar]

theorem stops_fields (l : Layout) (depth : Nat) (fields : List (JsonText × Json))
    (rest : List Char) : Stops isNumberChar (layOutFields l depth fields ++ rest) := by
  cases fields with
  | nil => simpa [layOutFields] using stops_line (by decide)
  | cons f fields => simp [layOutFields, isNumberChar]

theorem integerChars_head (n : Int) :
    ∃ c text, integerChars n = c :: text ∧ (c.isDigit = true ∨ c = '-') := by
  cases n with
  | ofNat n =>
    obtain ⟨d, ds, hds, hd⟩ := decimal_eq_cons n
    exact ⟨d, ds, hds, .inl hd⟩
  | negSucc n => exact ⟨'-', _, rfl, .inr rfl⟩

theorem Exact.layOut_head {j : Json} (hj : Exact j) (l : Layout) (depth : Nat) :
    ∃ c text, j.layOut l depth = c :: text ∧ isSpace c = false ∧ c ≠ ']' := by
  cases hj with
  | null => exact ⟨'n', _, rfl, by decide⟩
  | bool b =>
    cases b with
    | false => exact ⟨'f', _, rfl, by decide⟩
    | true => exact ⟨'t', _, rfl, by decide⟩
  | integer n =>
    obtain ⟨c, text, htext, hc | rfl⟩ := integerChars_head n
    · refine ⟨c, text, htext, isSpace_eq_false hc, ?_⟩
      rintro rfl
      simp at hc
    · exact ⟨'-', text, htext, by decide⟩
  | string s => exact ⟨'"', _, rfl, by decide⟩
  | @array items _ =>
    cases items with
    | nil => exact ⟨'[', _, rfl, by decide⟩
    | cons j rest => exact ⟨'[', _, rfl, by decide⟩
  | @object fields _ _ =>
    cases fields with
    | nil => exact ⟨'\x7b', _, rfl, by decide⟩
    | cons f rest => exact ⟨'\x7b', _, rfl, by decide⟩

theorem value?_integerChars (n : Int) (fuel : Nat) {rest : List Char}
    (hrest : Stops isNumberChar rest) :
    value? (fuel + 1) (integerChars n ++ rest) = some (.integer n, rest) := by
  have hnumber := number?_integerChars n hrest
  obtain ⟨c, text, htext, hc | rfl⟩ := integerChars_head n
  · rw [htext, List.cons_append] at hnumber ⊢
    rw [value?, skipSpace_cons (isSpace_eq_false hc)]
    -- The other values begin with a letter, a quote or a bracket, and none of these is a digit.
    split <;> first | exact hnumber | simp_all
  · rw [htext, List.cons_append] at hnumber ⊢
    rw [value?, skipSpace_cons (by decide)]
    exact hnumber

theorem value?_null (fuel : Nat) (rest : List Char) :
    value? (fuel + 1) ('n' :: 'u' :: 'l' :: 'l' :: rest) = some (.null, rest) := by
  simp [value?, skipSpace_cons, isSpace]

theorem value?_boolChars (b : Bool) (fuel : Nat) (rest : List Char) :
    value? (fuel + 1) (boolChars b ++ rest) = some (.bool b, rest) := by
  cases b with
  | false => simp [value?, boolChars, skipSpace_cons, isSpace]
  | true => simp [value?, boolChars, skipSpace_cons, isSpace]

theorem value?_quoted (s : String) (fuel : Nat) (rest : List Char) :
    value? (fuel + 1) (quoted (some s) ++ rest) = some (.string (some s), rest) := by
  simp [value?, quoted_some, skipSpace_cons, isSpace, string?_escapeChars]

theorem value?_bracket (fuel : Nat) {w : List Char} (hw : ∀ c ∈ w, isSpace c = true) {c : Char}
    (hc : isSpace c = false) (hne : c ≠ ']') (text : List Char) :
    value? (fuel + 1) ('[' :: (w ++ c :: text)) =
      (someItems? fuel (c :: text)).map fun r => (.array r.1, r.2) := by
  have hskip : skipSpace (w ++ c :: text) = c :: text := by
    rw [skipSpace_append hw, skipSpace_cons hc]
  have hopen : skipSpace ('[' :: (w ++ c :: text)) = '[' :: (w ++ c :: text) :=
    skipSpace_cons rfl _
  rw [value?, hopen]
  simp only [hskip]
  split
  · rename_i heq
    exact absurd (List.cons.inj heq).1 hne
  · rfl

/-- After an opening brace comes a key if anything does, and no key begins with white space. -/
theorem value?_brace (fuel : Nat) {w : List Char} (hw : ∀ c ∈ w, isSpace c = true) (k : String)
    (text : List Char) :
    value? (fuel + 1) ('\x7b' :: (w ++ (quoted (some k) ++ text))) =
      (someFields? fuel (quoted (some k) ++ text)).map fun r => (.object r.1, r.2) := by
  have hskip : skipSpace (w ++ (quoted (some k) ++ text)) = quoted (some k) ++ text := by
    rw [skipSpace_append hw, quoted_some, List.cons_append, skipSpace_cons]
    rfl
  have hopen : skipSpace ('\x7b' :: (w ++ (quoted (some k) ++ text))) =
      '\x7b' :: (w ++ (quoted (some k) ++ text)) := skipSpace_cons rfl _
  rw [value?, hopen]
  simp only [hskip]
  split
  · rename_i heq
    simp [quoted_some] at heq
  · rfl

/-- The reader gets a value back from its text at any depth, and leaves what follows. -/
def ReadsBack (l : Layout) (j : Json) : Prop :=
  ∀ depth fuel rest, 3 * (j.layOut l depth).length ≤ fuel → Stops isNumberChar rest →
    value? (fuel + 1) (j.layOut l depth ++ rest) = some (j, rest)

theorem moreItems?_layOut {l : Layout} {items : List Json} (hread : ∀ j ∈ items, j.ReadsBack l)
    (depth fuel : Nat) (rest : List Char) (hfuel : 3 * (layOutItems l depth items).length ≤ fuel) :
    moreItems? (fuel + 1) (layOutItems l depth items ++ rest) = some (items, rest) := by
  induction items generalizing fuel with
  | nil =>
    have hskip : skipSpace (layOutItems l depth [] ++ rest) = ']' :: rest := by
      rw [layOutItems, List.append_assoc, skipSpace_append (l.line_isSpace depth)]
      exact skipSpace_cons rfl rest
    simp only [moreItems?, hskip]
  | cons j items ih =>
    rw [List.forall_mem_cons] at hread
    simp only [layOutItems, List.length_cons, List.length_append] at hfuel
    obtain ⟨fuel, rfl⟩ : ∃ f, fuel = f + 2 := ⟨fuel - 2, by omega⟩
    have hvalue := hread.1 (depth + 1) fuel (layOutItems l depth items ++ rest) (by omega)
      (stops_items l depth items rest)
    have hmore := ih hread.2 fuel (by omega)
    simp only [layOutItems, List.cons_append, List.append_assoc]
    rw [moreItems?, skipSpace_cons rfl]
    simp only [someItems?, value?_append (l.line_isSpace (depth + 1)), hvalue, hmore, Option.map]

theorem moreFields?_layOut {l : Layout} {fields : List (JsonText × Json)}
    (hkeys : ∀ f ∈ fields, f.1.isSome = true) (hread : ∀ f ∈ fields, f.2.ReadsBack l)
    (depth fuel : Nat) (rest : List Char)
    (hfuel : 3 * (layOutFields l depth fields).length ≤ fuel) :
    moreFields? (fuel + 1) (layOutFields l depth fields ++ rest) = some (fields, rest) := by
  induction fields generalizing fuel with
  | nil =>
    have hskip : skipSpace (layOutFields l depth [] ++ rest) = '\x7d' :: rest := by
      rw [layOutFields, List.append_assoc, skipSpace_append (l.line_isSpace depth)]
      exact skipSpace_cons rfl rest
    simp only [moreFields?, hskip]
  | cons f fields ih =>
    rw [List.forall_mem_cons] at hkeys hread
    obtain ⟨k, j⟩ := f
    obtain ⟨k, rfl⟩ := Option.isSome_iff_exists.mp hkeys.1
    simp only [layOutFields, List.length_cons, List.length_append] at hfuel
    obtain ⟨fuel, rfl⟩ : ∃ f, fuel = f + 2 := ⟨fuel - 2, by omega⟩
    have hvalue : value? (fuel + 1) (j.layOut l (depth + 1) ++ _) = _ :=
      hread.1 (depth + 1) fuel (layOutFields l depth fields ++ rest) (by dsimp only; omega)
        (stops_fields l depth fields rest)
    have hmore := ih hkeys.2 hread.2 fuel (by omega)
    simp only [layOutFields, List.cons_append, List.append_assoc]
    rw [moreFields?, skipSpace_cons rfl]
    simp only [someFields?, key?_quoted (l.line_isSpace (depth + 1)), value?_append l.gap_isSpace,
      hvalue, hmore, Option.map]

/-- A value is read back from each of its layouts. -/
theorem Exact.readsBack {j : Json} (hj : Exact j) (l : Layout) : j.ReadsBack l := by
  -- The induction is on what is written; the fuel covers three steps for every character of it.
  induction hj with
  | null => exact fun depth fuel rest _ _ => value?_null fuel rest
  | bool b => exact fun depth fuel rest _ _ => value?_boolChars b fuel rest
  | integer n => exact fun depth fuel rest _ hrest => value?_integerChars n fuel hrest
  | string s => exact fun depth fuel rest _ _ => value?_quoted s fuel rest
  | @array items h ih =>
    intro depth fuel rest hfuel _
    cases items with
    | nil => simp [layOut, value?, skipSpace_cons, isSpace]
    | cons j items =>
      rw [List.forall_mem_cons] at h ih
      simp only [layOut, List.length_cons, List.length_append] at hfuel
      obtain ⟨fuel, rfl⟩ : ∃ f, fuel = f + 2 := ⟨fuel - 2, by omega⟩
      have hvalue := ih.1 (depth + 1) fuel (layOutItems l depth items ++ rest) (by omega)
        (stops_items l depth items rest)
      have hmore := moreItems?_layOut ih.2 depth fuel rest (by omega)
      obtain ⟨c, text, htext, hspace, hbracket⟩ := h.1.layOut_head l (depth + 1)
      rw [htext, List.cons_append] at hvalue
      simp only [layOut, htext, List.cons_append, List.append_assoc]
      rw [value?_bracket (fuel + 2) (l.line_isSpace (depth + 1)) hspace hbracket]
      simp only [someItems?, hvalue, hmore, Option.map]
  | @object fields hkeys _ ih =>
    intro depth fuel rest hfuel _
    cases fields with
    | nil => simp [layOut, value?, skipSpace_cons, isSpace]
    | cons f fields =>
      rw [List.forall_mem_cons] at hkeys ih
      obtain ⟨k, j⟩ := f
      obtain ⟨k, rfl⟩ := Option.isSome_iff_exists.mp hkeys.1
      simp only [layOut, List.length_cons, List.length_append] at hfuel
      obtain ⟨fuel, rfl⟩ : ∃ f, fuel = f + 2 := ⟨fuel - 2, by omega⟩
      have hvalue : value? (fuel + 1) (j.layOut l (depth + 1) ++ _) = _ :=
        ih.1 (depth + 1) fuel (layOutFields l depth fields ++ rest) (by dsimp only; omega)
          (stops_fields l depth fields rest)
      have hmore := moreFields?_layOut hkeys.2 ih.2 depth fuel rest (by omega)
      have hkey : key? (quoted (some k) ++ ':' :: (l.gap ++ (j.layOut l (depth + 1) ++
          (layOutFields l depth fields ++ rest)))) = some (some k, _) :=
        key?_quoted (w := []) (by simp) k _
      simp only [layOut, List.cons_append, List.append_assoc]
      rw [value?_brace (fuel + 2) (l.line_isSpace (depth + 1))]
      simp only [someFields?, hkey, value?_append l.gap_isSpace, hvalue, hmore, Option.map]

theorem Exact.read?_layOut {j : Json} (hj : Exact j) (l : Layout) :
    read? (String.ofList (j.layOut l 0)) = some j := by
  have hvalue := hj.readsBack l 0 (3 * (j.layOut l 0).length + 2) [] (by omega) stops_nil
  rw [List.append_nil] at hvalue
  rw [read?, String.length_ofList, String.toList_ofList, hvalue]
  rfl

theorem Exact.read?_compact {j : Json} (hj : Exact j) : read? j.compact = some j :=
  hj.read?_layOut .tight

theorem Exact.read?_pretty {j : Json} (hj : Exact j) : read? j.pretty = some j :=
  hj.read?_layOut .indented

end RegionFlow.Json

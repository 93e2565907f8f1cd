import Std.Data.String.ToInt
import RegionFlow.Expression
set_option autoImplicit false

namespace RegionFlow.Text

variable {α : Type} {p q : α → Bool} {w w' rest rest' : List α}

/-- A list goes on with no element of the class, so a run of the class ends before it. -/
def Stops (p : α → Bool) (rest : List α) : Prop := ∀ c ∈ rest.head?, p c = false

@[simp] theorem stops_nil : Stops p [] := by simp [Stops]

@[simp] theorem stops_cons {c : α} : Stops p (c :: rest) ↔ p c = false := by simp [Stops]

theorem Stops.mono (h : Stops p rest) (hq : ∀ c, q c = true → p c = true) : Stops q rest := by
  intro c hc
  have hp := h c hc
  cases hqc : q c with
  | false => rfl
  | true => simp [hq c hqc] at hp

theorem takeWhile_run (hw : ∀ c ∈ w, p c = true) (hrest : Stops p rest) :
    (w ++ rest).takeWhile p = w := by
  rw [List.takeWhile_append_of_pos hw]
  cases rest with
  | nil => simp
  | cons c rest => simp [stops_cons.mp hrest]

theorem dropWhile_run (hw : ∀ c ∈ w, p c = true) (hrest : Stops p rest) :
    (w ++ rest).dropWhile p = rest := by
  rw [List.dropWhile_append_of_pos hw]
  cases rest with
  | nil => simp
  | cons c rest => simp [stops_cons.mp hrest]

/-- A text is divided in one way into a run and what goes on after it. -/
theorem run_append_inj (hw : ∀ c ∈ w, p c = true) (hw' : ∀ c ∈ w', p c = true)
    (hrest : Stops p rest) (hrest' : Stops p rest') (h : w ++ rest = w' ++ rest') :
    w = w' ∧ rest = rest' := by
  constructor
  · rw [← takeWhile_run hw hrest, h, takeWhile_run hw' hrest']
  · rw [← dropWhile_run hw hrest, h, dropWhile_run hw' hrest']

theorem isDigit_of_mem_decimal {n : Nat} {c : Char} (hc : c ∈ Nat.toDigits 10 n) :
    c.isDigit = true := Nat.isDigit_of_mem_toDigits (by omega) (by omega) hc

theorem decimal_eq_cons (n : Nat) :
    ∃ d ds, Nat.toDigits 10 n = d :: ds ∧ d.isDigit = true := by
  obtain ⟨d, ds, hds⟩ := List.exists_cons_of_ne_nil (Nat.toDigits_ne_nil (b := 10) (n := n))
  exact ⟨d, ds, hds, isDigit_of_mem_decimal (by rw [hds]; exact List.mem_cons_self)⟩

theorem decimal_inj {m n : Nat} (h : Nat.toDigits 10 m = Nat.toDigits 10 n) : m = n := by
  have hvalue := congrArg (fun ds => Nat.ofDigitChars 10 ds 0) h
  simpa [Nat.ofDigitChars_ten_toDigits] using hvalue

/-- No numeral but that of zero begins with a zero. -/
theorem head?_decimal_ne_zero {n : Nat} (hn : 0 < n) : (Nat.toDigits 10 n).head? ≠ some '0' := by
  induction n using Nat.strongRecOn with
  | ind n ih =>
    by_cases hlt : n < 10
    · rw [Nat.toDigits_of_lt_base hlt]
      have hdigit : ∀ k < 10, 0 < k → Nat.digitChar k ≠ '0' := by decide
      simpa using hdigit n hlt hn
    · have hshort := ih (n / 10) (by omega) (by omega)
      rw [Nat.toDigits_of_base_le (by omega) (by omega), List.head?_append]
      cases hds : Nat.toDigits 10 (n / 10) with
      | nil => exact absurd hds Nat.toDigits_ne_nil
      | cons d ds => simpa [hds] using hshort

end RegionFlow.Text

namespace RegionFlow

open Text

def isNameChar (c : Char) : Bool := c.isAlphanum || c == '_'

/-- ASCII letters, digits and underscores, the first of them no digit; not a truth value. -/
def isIdentifier (name : String) : Bool :=
  name.toList.all isNameChar && name.toList.head?.any (fun c => !c.isDigit) &&
    name != "true" && name != "false"

def isWordChar (c : Char) : Bool := isNameChar c || c == '-'

theorem isNameChar_of_isDigit {c : Char} (hc : c.isDigit = true) : isNameChar c = true := by
  simp [isNameChar, Char.isAlphanum, hc]

theorem ne_lineFeed {c : Char} (hc : isWordChar c = true) : (c != '\n') = true := by
  rw [bne_iff_ne]
  rintro rfl
  exact absurd hc (by decide)

structure IsWord (text : List Char) : Prop where
  nonempty : text ≠ []
  chars : ∀ c ∈ text, isWordChar c = true

theorem IsWord.eq_cons {text : List Char} (h : IsWord text) :
    ∃ c rest, text = c :: rest ∧ isWordChar c = true := by
  obtain ⟨c, rest, htext⟩ := List.exists_cons_of_ne_nil h.nonempty
  exact ⟨c, rest, htext, h.chars c (by simp [htext])⟩

theorem isWord_of_isIdentifier {name : String} (h : isIdentifier name = true) :
    IsWord name.toList := by
  simp only [isIdentifier, Bool.and_eq_true, List.all_eq_true] at h
  obtain ⟨⟨⟨hchars, hhead⟩, -⟩, -⟩ := h
  refine ⟨?_, ?_⟩
  · intro hnil
    simp [hnil] at hhead
  · intro c hc
    simp [isWordChar, hchars c hc]

theorem Literal.toList_unsigned (n : UInt64) :
    (Literal.unsigned n).text.toList = Nat.toDigits 10 n.toNat ++ ['u'] := by
  simp [text, Nat.toList_repr]

theorem isWord_decimal (n : Nat) : IsWord (Nat.toDigits 10 n) where
  nonempty := Nat.toDigits_ne_nil
  chars := by
    intro c hc
    simp [isWordChar, isNameChar_of_isDigit (isDigit_of_mem_decimal hc)]

theorem toList_intRepr (n : Int) :
    (Int.repr n).toList = if 0 ≤ n then Nat.toDigits 10 n.toNat
      else '-' :: Nat.toDigits 10 (-n).toNat := by
  rw [Int.repr_eq_if]
  split
  · exact Nat.toList_repr
  · simp [Nat.toList_repr]

theorem Literal.isWord (v : Literal) : IsWord v.text.toList := by
  cases v with
  | unsigned n =>
    rw [toList_unsigned]
    refine ⟨by simp, ?_⟩
    intro c hc
    rcases List.mem_append.mp hc with hc | hc
    · exact (isWord_decimal n.toNat).chars c hc
    · rw [List.mem_singleton.mp hc]
      rfl
  | signed n =>
    rw [text, toList_intRepr]
    split
    · exact isWord_decimal _
    · refine ⟨by simp, ?_⟩
      rw [List.forall_mem_cons]
      exact ⟨rfl, (isWord_decimal _).chars⟩
  | bool b => cases b <;> exact ⟨by simp [text], by simp [text, isWordChar, isNameChar]⟩

theorem getLast?_decimal (n : Nat) :
    ∃ c, (Nat.toDigits 10 n).getLast? = some c ∧ c.isDigit = true := by
  have hne : Nat.toDigits 10 n ≠ [] := Nat.toDigits_ne_nil
  exact ⟨_, List.getLast?_eq_some_getLast hne, isDigit_of_mem_decimal (List.getLast_mem hne)⟩

/-- Whether the last character is the mark of unsigned literals, and whether it is a digit. -/
def Literal.ending : Literal → Bool × Bool
  | .unsigned _ => (true, false)
  | .signed _ => (false, true)
  | .bool _ => (false, false)

theorem Literal.getLast?_text (v : Literal) :
    v.text.toList.getLast?.map (fun c => (c == 'u', c.isDigit)) = some v.ending := by
  cases v with
  | unsigned n =>
    rw [toList_unsigned]
    simp [ending]
  | signed n =>
    have hlast : ∃ c, (Int.repr n.toInt).toList.getLast? = some c ∧ c.isDigit = true := by
      rw [toList_intRepr]
      split
      · exact getLast?_decimal _
      · obtain ⟨c, hc, hdigit⟩ := getLast?_decimal (-n.toInt).toNat
        exact ⟨c, by simp [List.getLast?_cons, hc], hdigit⟩
    obtain ⟨c, hc, hdigit⟩ := hlast
    have hmark : (c == 'u') = false := by
      rw [beq_eq_false_iff_ne]
      rintro rfl
      simp at hdigit
    simp [text, hc, hdigit, hmark, ending]
  | bool b => cases b <;> rfl

theorem Literal.eq_of_text_eq {v w : Literal} (h : v.text = w.text) : v = w := by
  have hending : v.ending = w.ending := by
    have hlast := v.getLast?_text
    rw [h, w.getLast?_text] at hlast
    exact (Option.some.inj hlast).symm
  cases v with
  | unsigned m =>
    cases w with
    | unsigned n =>
      have hlist := congrArg String.toList h
      rw [toList_unsigned, toList_unsigned] at hlist
      rw [UInt64.toNat_inj.mp (decimal_inj (List.append_cancel_right hlist))]
    | _ => simp [ending] at hending
  | signed m =>
    cases w with
    | signed n => rw [Int64.toInt_inj.mp (Int.repr_inj.mp h)]
    | _ => simp [ending] at hending
  | bool a =>
    cases w with
    | bool b => cases a <;> cases b <;> simp [text] at h ⊢
    | _ => simp [ending] at hending

theorem Literal.isIdentifier_text (v : Literal) : isIdentifier v.text = false := by
  have hhead : ∀ {s : String} {c : Char} {rest : List Char}, s.toList = c :: rest →
      c.isDigit = true ∨ c = '-' → isIdentifier s = false := by
    rintro s c rest hs (hdigit | rfl)
    · simp [isIdentifier, hs, hdigit]
    · have hminus : isNameChar '-' = false := by decide
      simp [isIdentifier, hs, hminus]
  cases v with
  | unsigned n =>
    obtain ⟨d, ds, hds, hd⟩ := decimal_eq_cons n.toNat
    exact hhead (by rw [toList_unsigned, hds, List.cons_append]) (.inl hd)
  | signed n =>
    have htext := toList_intRepr n.toInt
    split at htext
    · obtain ⟨d, ds, hds, hd⟩ := decimal_eq_cons n.toInt.toNat
      exact hhead (htext.trans hds) (.inl hd)
    · exact hhead htext (.inr rfl)
  | bool b => cases b <;> decide

end RegionFlow

import RegionFlow.Proofs.Text.Word
set_option autoImplicit false

/-!
An operand is an expression other than a comparison: it is a single word or stands in parentheses,
so its end can be told from what follows.  The text of any other legible expression is known once it
is known where it ends.
-/

namespace RegionFlow

open Text

/-- All names are identifiers, and no comparison is an operand of a comparison. -/
def Expression.isLegible : Expression → Bool
  | .constant _ => true
  | .read x => isIdentifier x.name
  | .arithmetic _ l r => l.isLegible && r.isLegible
  | .relational _ l r => l.isLegible && r.isLegible && !l.isRelational && !r.isRelational

theorem symbol_append_inj {v w t u : List Char} (hv : ∀ c ∈ v, (c != ' ') = true)
    (hw : ∀ c ∈ w, (c != ' ') = true) (h : v ++ ' ' :: t = w ++ ' ' :: u) : v = w ∧ t = u := by
  obtain ⟨hvw, hrest⟩ := run_append_inj hv hw (by simp) (by simp) h
  exact ⟨hvw, (List.cons.inj hrest).2⟩

theorem ArithmeticKind.symbol_chars (k : ArithmeticKind) :
    ∀ c ∈ k.symbol.toList, (c != ' ') = true := by
  cases k <;> simp [symbol]

theorem Predicate.symbol_chars (p : Predicate) : ∀ c ∈ p.symbol.toList, (c != ' ') = true := by
  cases p <;> simp [symbol]

theorem ArithmeticKind.eq_of_symbol_eq {k l : ArithmeticKind}
    (h : k.symbol.toList = l.symbol.toList) : k = l := by
  have hread := k.ofSymbol?_symbol
  rw [String.toList_inj.mp h, l.ofSymbol?_symbol] at hread
  exact (Option.some.inj hread).symm

theorem Predicate.eq_of_symbol_eq {p q : Predicate} (h : p.symbol.toList = q.symbol.toList) :
    p = q := by
  have hread := p.ofSymbol?_symbol
  rw [String.toList_inj.mp h, q.ofSymbol?_symbol] at hread
  exact (Option.some.inj hread).symm

theorem symbol_ne (k : ArithmeticKind) (p : Predicate) : k.symbol.toList ≠ p.symbol.toList := by
  cases k <;> cases p <;> decide

namespace Expression

theorem toList_arithmetic (k : ArithmeticKind) (l r : Expression) (rest : List Char) :
    (arithmetic k l r).text.toList ++ rest = '(' :: (l.text.toList ++ ' ' ::
      (k.symbol.toList ++ ' ' :: (r.text.toList ++ ')' :: rest))) := by
  simp [text, String.toList_append]

theorem toList_relational (p : Predicate) (l r : Expression) (rest : List Char) :
    (relational p l r).text.toList ++ rest =
      l.text.toList ++ ' ' :: (p.symbol.toList ++ ' ' :: (r.text.toList ++ rest)) := by
  simp [text, String.toList_append]

/-- What follows neither makes the last word longer nor goes on with a comparison. -/
structure Ends (rest : List Char) : Prop where
  word : Stops isWordChar rest
  comparison : ∀ (p : Predicate) (t : List Char), rest ≠ ' ' :: (p.symbol.toList ++ ' ' :: t)

theorem ends_nil : Ends [] := ⟨stops_nil, by simp⟩

theorem ends_close (rest : List Char) : Ends (')' :: rest) := ⟨by simp; decide, by simp⟩

theorem ends_symbol (k : ArithmeticKind) (t : List Char) :
    Ends (' ' :: (k.symbol.toList ++ ' ' :: t)) := by
  refine ⟨by simp; decide, ?_⟩
  intro p u h
  have h := symbol_append_inj k.symbol_chars p.symbol_chars (List.cons.inj h).2
  exact symbol_ne k p h.1

def OperandDetermined (e : Expression) : Prop :=
  ∀ f r s, f.isLegible = true → f.isRelational = false → Stops isWordChar r → Stops isWordChar s →
    e.text.toList ++ r = f.text.toList ++ s → e = f ∧ r = s

/-- The text of an expression determines it, up to what ends it. -/
def Determined (e : Expression) : Prop :=
  ∀ f r s, f.isLegible = true → Ends r → Ends s → e.text.toList ++ r = f.text.toList ++ s →
    e = f ∧ r = s

/-- A literal and a name are words; arithmetic begins with a parenthesis. -/

def isAtom : Expression → Bool
  | .constant _ => true
  | .read _ => true
  | _ => false

theorem isWord_of_isAtom {e : Expression} (hatom : e.isAtom = true) (he : e.isLegible = true) :
    IsWord e.text.toList := by
  cases e with
  | constant v => exact v.isWord
  | read x => exact isWord_of_isIdentifier he
  | _ => simp [isAtom] at hatom

theorem eq_of_atom_text {e f : Expression} (heatom : e.isAtom = true) (hfatom : f.isAtom = true)
    (he : e.isLegible = true) (hf : f.isLegible = true) (h : e.text = f.text) : e = f := by
  cases e with
  | constant v =>
    cases f with
    | constant w => rw [Literal.eq_of_text_eq h]
    | read x =>
      have hv := v.isIdentifier_text
      rw [show v.text = x.name from h] at hv
      simp [isLegible, hv] at hf
    | _ => simp [isAtom] at hfatom
  | read x =>
    cases f with
    | constant w =>
      have hw := w.isIdentifier_text
      rw [← show x.name = w.text from h] at hw
      simp [isLegible, hw] at he
    | read y =>
      obtain ⟨x⟩ := x
      obtain ⟨y⟩ := y
      rw [show x = y from h]
    | _ => simp [isAtom] at hfatom
  | _ => simp [isAtom] at heatom

theorem atom_text_ne {e : Expression} (hatom : e.isAtom = true) (he : e.isLegible = true)
    (r t : List Char) : e.text.toList ++ r ≠ '(' :: t := by
  obtain ⟨c, w, htext, hc⟩ := (isWord_of_isAtom hatom he).eq_cons
  rw [htext]
  intro h
  rw [(List.cons.inj h).1] at hc
  exact absurd hc (by decide)

theorem operandDetermined_atom {e : Expression} (hatom : e.isAtom = true)
    (he : e.isLegible = true) : e.OperandDetermined := by
  intro f r s hf hrel hr hs h
  have hatoms : f.isAtom = true → e = f ∧ r = s := by
    intro hfatom
    have hrun := run_append_inj (isWord_of_isAtom hatom he).chars
      (isWord_of_isAtom hfatom hf).chars hr hs h
    exact ⟨eq_of_atom_text hatom hfatom he hf (String.toList_inj.mp hrun.1), hrun.2⟩
  cases f with
  | constant w => exact hatoms rfl
  | read y => exact hatoms rfl
  | arithmetic k a b =>
    rw [toList_arithmetic] at h
    exact absurd h (atom_text_ne hatom he r _)
  | relational q a b => simp [isRelational] at hrel

theorem operandDetermined_arithmetic {k : ArithmeticKind} {a b : Expression}
    (ha : a.Determined) (hb : b.Determined) : (arithmetic k a b).OperandDetermined := by
  intro f r s hf hrel hr hs h
  have hatoms : f.isAtom = true → arithmetic k a b = f ∧ r = s := by
    intro hfatom
    rw [toList_arithmetic] at h
    exact absurd h.symm (atom_text_ne hfatom hf s _)
  cases f with
  | constant w => exact hatoms rfl
  | read y => exact hatoms rfl
  | arithmetic k' a' b' =>
    simp only [isLegible, Bool.and_eq_true] at hf
    rw [toList_arithmetic, toList_arithmetic] at h
    obtain ⟨hleft, hop⟩ := ha a' _ _ hf.1 (ends_symbol k _) (ends_symbol k' _) (List.cons.inj h).2
    obtain ⟨hk, hrhs⟩ := symbol_append_inj k.symbol_chars k'.symbol_chars (List.cons.inj hop).2
    obtain ⟨hright, hrest⟩ := hb b' _ _ hf.2 (ends_close r) (ends_close s) hrhs
    rw [hleft, ArithmeticKind.eq_of_symbol_eq hk, hright]
    exact ⟨rfl, (List.cons.inj hrest).2⟩
  | relational q a' b' => simp [isRelational] at hrel

theorem text_head {e : Expression} (he : e.isLegible = true) :
    ∃ c w, e.text.toList = c :: w ∧ (isWordChar c = true ∨ c = '(') := by
  have hword : ∀ {text : List Char}, IsWord text →
      ∃ c w, text = c :: w ∧ (isWordChar c = true ∨ c = '(') := by
    intro text h
    obtain ⟨c, w, htext, hc⟩ := h.eq_cons
    exact ⟨c, w, htext, .inl hc⟩
  induction e with
  | constant v => exact hword v.isWord
  | read x => exact hword (isWord_of_isIdentifier he)
  | arithmetic k a b => exact ⟨'(', _, by simpa using toList_arithmetic k a b [], .inr rfl⟩
  | relational p a b iha =>
    simp only [isLegible, Bool.and_eq_true] at he
    obtain ⟨c, w, hcw, hc⟩ := iha he.1.1.1
    have htext := toList_relational p a b []
    rw [List.append_nil, hcw, List.cons_append] at htext
    exact ⟨c, _, htext, hc⟩

theorem text_chars {e : Expression} (he : e.isLegible = true) :
    ∀ c ∈ e.text.toList, (c != '\n') = true := by
  induction e with
  | constant v => exact fun c hc => ne_lineFeed (v.isWord.chars c hc)
  | read x => exact fun c hc => ne_lineFeed ((isWord_of_isIdentifier he).chars c hc)
  | arithmetic k a b iha ihb =>
    simp only [isLegible, Bool.and_eq_true] at he
    have hk : ∀ c ∈ k.symbol.toList, (c != '\n') = true := by
      cases k <;> simp [ArithmeticKind.symbol]
    have htext := toList_arithmetic k a b []
    rw [List.append_nil] at htext
    simp only [htext, List.forall_mem_cons, List.forall_mem_append]
    exact ⟨rfl, iha he.1, rfl, hk, rfl, ihb he.2, rfl, by simp⟩
  | relational p a b iha ihb =>
    simp only [isLegible, Bool.and_eq_true] at he
    have hp : ∀ c ∈ p.symbol.toList, (c != '\n') = true := by
      cases p <;> simp [Predicate.symbol]
    have htext := toList_relational p a b []
    rw [List.append_nil, List.append_nil] at htext
    simp only [htext, List.forall_mem_cons, List.forall_mem_append]
    exact ⟨iha he.1.1.1, rfl, hp, rfl, ihb he.1.1.2⟩

theorem stops_space (t : List Char) : Stops isWordChar (' ' :: t) := by
  simp
  decide

theorem determined_of_operand {e : Expression} (h : e.OperandDetermined) : e.Determined := by
  intro f r s hf hr hs heq
  have hoperand : f.isRelational = false → e = f ∧ r = s :=
    fun hrel => h f r s hf hrel hr.word hs.word heq
  cases f with
  | relational q a b =>
    simp only [isLegible, Bool.and_eq_true, Bool.not_eq_true'] at hf
    rw [toList_relational] at heq
    -- The operand would be the left one of a comparison, but no comparison goes on after it.
    obtain ⟨-, heq⟩ := h a r _ hf.1.1.1 hf.1.2 hr.word (stops_space _) heq
    exact absurd heq (hr.comparison q _)
  | _ => exact hoperand rfl

theorem determined_relational {p : Predicate} {a b : Expression} (ha : a.OperandDetermined)
    (hb : b.OperandDetermined) : (relational p a b).Determined := by
  intro f r s hf hr hs h
  rw [toList_relational] at h
  have hoperand : f.isRelational = false → relational p a b = f ∧ r = s := by
    intro hrel
    obtain ⟨-, h⟩ := ha f _ s hf hrel (stops_space _) hs.word h
    exact absurd h.symm (hs.comparison p _)
  cases f with
  | relational q a' b' =>
    simp only [isLegible, Bool.and_eq_true, Bool.not_eq_true'] at hf
    rw [toList_relational] at h
    obtain ⟨hleft, hop⟩ := ha a' _ _ hf.1.1.1 hf.1.2 (stops_space _) (stops_space _) h
    obtain ⟨hp, hrhs⟩ := symbol_append_inj p.symbol_chars q.symbol_chars (List.cons.inj hop).2
    obtain ⟨hright, hrest⟩ := hb b' r s hf.1.1.2 hf.2 hr.word hs.word hrhs
    rw [hleft, Predicate.eq_of_symbol_eq hp, hright]
    exact ⟨rfl, hrest⟩
  | _ => exact hoperand rfl

/-- An operand is determined by its text, and so is every legible expression where it ends. -/
theorem determined {e : Expression} (he : e.isLegible = true) :
    (e.isRelational = false → e.OperandDetermined) ∧ e.Determined := by
  induction e with
  | constant v =>
    have h := operandDetermined_atom (e := constant v) rfl he
    exact ⟨fun _ => h, determined_of_operand h⟩
  | read x =>
    have h := operandDetermined_atom (e := read x) rfl he
    exact ⟨fun _ => h, determined_of_operand h⟩
  | arithmetic k a b iha ihb =>
    simp only [isLegible, Bool.and_eq_true] at he
    have h := operandDetermined_arithmetic (k := k) (iha he.1).2 (ihb he.2).2
    exact ⟨fun _ => h, determined_of_operand h⟩
  | relational p a b iha ihb =>
    simp only [isLegible, Bool.and_eq_true, Bool.not_eq_true'] at he
    refine ⟨fun hrel => by simp [isRelational] at hrel, ?_⟩
    exact determined_relational ((iha he.1.1.1).1 he.1.2) ((ihb he.1.1.2).1 he.2)

theorem eq_of_text_eq {e f : Expression} (he : e.isLegible = true) (hf : f.isLegible = true)
    (h : e.text = f.text) : e = f :=
  ((determined he).2 f [] [] hf ends_nil ends_nil (by rw [h])).1

end Expression

end RegionFlow

import RegionFlow.Operation
import RegionFlow.Proofs.Listing.Expression
set_option autoImplicit false

namespace RegionFlow

open Text

/-- A line that can be told from its text: a header is no other kind of line, has no line feed and
begins with no space. -/
def Line.IsClear : Line → Prop
  | .header _ t => t ≠ "else" ∧ t ≠ "end" ∧ (∀ c ∈ t.toList, (c != '\n') = true) ∧
      ∃ c w, t.toList = c :: w ∧ (c == ' ') = false
  | .otherwise _ => True
  | .close _ => True

theorem toList_pushn (k : Nat) : ("".pushn ' ' k).toList = List.replicate k ' ' := by
  induction k with
  | zero => rfl
  | succ k ih =>
    simp only [String.pushn, Nat.repeat] at ih ⊢
    rw [String.toList_push, ih, ← List.replicate_succ']

theorem Line.toList_render (l : Line) (rest : List Char) :
    l.render.toList ++ rest =
      List.replicate (2 * l.depth) ' ' ++ (l.text.toList ++ '\n' :: rest) := by
  simp [render, String.toList_append, toList_pushn]

theorem Line.IsClear.chars {l : Line} (h : l.IsClear) :
    ∀ c ∈ l.text.toList, (c != '\n') = true := by
  cases l with
  | header n t => exact h.2.2.1
  | otherwise n => simp [text]
  | close n => simp [text]

theorem Line.IsClear.stops {l : Line} (h : l.IsClear) (rest : List Char) :
    Stops (· == ' ') (l.text.toList ++ rest) := by
  cases l with
  | header n t =>
    obtain ⟨c, w, htext, hc⟩ := h.2.2.2
    rw [text, htext, List.cons_append]
    exact stops_cons.mpr hc
  | otherwise n => simp [text]
  | close n => simp [text]

theorem Line.IsClear.eq_of_text_eq {l m : Line} (hl : l.IsClear) (hm : m.IsClear)
    (hdepth : l.depth = m.depth) (htext : l.text = m.text) : l = m := by
  cases l with
  | header n t =>
    cases m with
    | header k u => rw [show n = k from hdepth, show t = u from htext]
    | otherwise k => exact absurd htext hl.1
    | close k => exact absurd htext hl.2.1
  | otherwise n =>
    cases m with
    | header k u => exact absurd htext.symm hm.1
    | otherwise k => rw [show n = k from hdepth]
    | close k => simp [text] at htext
  | close n =>
    cases m with
    | header k u => exact absurd htext.symm hm.2.1
    | otherwise k => simp [text] at htext
    | close k => rw [show n = k from hdepth]

/-- A text is divided in one way into clear lines. -/
theorem lines_eq_of_text_eq {ls ms : List Line} (hl : ∀ l ∈ ls, l.IsClear)
    (hm : ∀ l ∈ ms, l.IsClear)
    (h : ls.flatMap (fun l => l.render.toList) = ms.flatMap (fun l => l.render.toList)) :
    ls = ms := by
  induction ls generalizing ms with
  | nil =>
    cases ms with
    | nil => rfl
    | cons m ms =>
      rw [List.flatMap_cons, Line.toList_render] at h
      simp at h
  | cons l ls ih =>
    rw [List.forall_mem_cons] at hl
    cases ms with
    | nil =>
      rw [List.flatMap_cons, Line.toList_render] at h
      simp at h
    | cons m ms =>
      rw [List.forall_mem_cons] at hm
      rw [List.flatMap_cons, List.flatMap_cons, Line.toList_render, Line.toList_render] at h
      have hspaces : ∀ k, ∀ c ∈ List.replicate k ' ', (c == ' ') = true := by
        intro k c hc
        simp [List.eq_of_mem_replicate hc]
      obtain ⟨hindent, hline⟩ :=
        run_append_inj (hspaces _) (hspaces _) (hl.1.stops _) (hm.1.stops _) h
      obtain ⟨htext, hrest⟩ := run_append_inj hl.1.chars hm.1.chars (by simp) (by simp) hline
      have hdepth : l.depth = m.depth := by
        have hlength := congrArg List.length hindent
        simp only [List.length_replicate] at hlength
        omega
      rw [hl.1.eq_of_text_eq hm.1 hdepth (String.toList_inj.mp htext),
        ih hl.2 hm.2 (List.cons.inj hrest).2]

mutual

def Op.isLegible {d : Dialect} : Op d → Bool
  | .assign x e => isIdentifier x.name && e.isLegible
  | .conditional c t e => c.isLegible && isLegibleSequence t && isLegibleSequence e
  | .whileLoop c b => c.isLegible && isLegibleSequence b
  | .scope _ b => isLegibleSequence b
  | .skip => true
  | .breakLoop => true
  | .terminate => true

def isLegibleSequence {d : Dialect} : List (Op d) → Bool
  | [] => true
  | o :: rest => o.isLegible && isLegibleSequence rest

end

def Program.isLegible {d : Dialect} (p : Program d) : Bool := isLegibleSequence p.body

variable {d : Dialect}

theorem isLegibleSequence_iff {s : Sequence d} :
    isLegibleSequence s = true ↔ ∀ o ∈ s, o.isLegible = true := by
  induction s with
  | nil => simp [isLegibleSequence]
  | cons o s ih => rw [isLegibleSequence, Bool.and_eq_true, ih, List.forall_mem_cons]

theorem Op.isLegible_region {o : Op d} (ho : o.isLegible = true) :
    ∀ p ∈ o.regions, ∀ e ∈ p.2, e.isLegible = true := by
  cases o <;> simp_all [isLegible, regions, isLegibleSequence_iff]

def Op.head : Op d → Op d
  | .conditional c _ _ => .conditional c [] []
  | .whileLoop c _ => .whileLoop c []
  | .scope g _ => .scope g []
  | .skip => .skip
  | .assign x e => .assign x e
  | .breakLoop => .breakLoop
  | .terminate => .terminate

def Op.keyword : Op d → String
  | .skip => "skip"
  | .assign x _ => x.name
  | .conditional _ _ _ => "if"
  | .whileLoop _ _ => "while"
  | .breakLoop => "break"
  | .terminate => "terminate"
  | .scope _ _ => "scope"

def Op.argument : Op d → List Char
  | .assign _ e => ' ' :: '=' :: ' ' :: e.text.toList
  | .conditional c _ _ => ' ' :: c.text.toList
  | .whileLoop c _ => ' ' :: c.text.toList
  | .skip => []
  | .breakLoop => []
  | .terminate => []
  | .scope _ _ => []

theorem Op.toList_header (o : Op d) : o.header.toList = o.keyword.toList ++ o.argument := by
  cases o <;> simp [header, keyword, argument, String.toList_append]

theorem Op.keyword_isWord {o : Op d} (ho : o.isLegible = true) : IsWord o.keyword.toList := by
  cases o with
  | assign x e =>
    simp only [isLegible, Bool.and_eq_true] at ho
    exact isWord_of_isIdentifier ho.1
  | _ => exact ⟨by simp [keyword], by simp [keyword]; decide⟩

theorem Op.stops_argument (o : Op d) : Stops isWordChar o.argument := by
  cases o <;> simp [argument] <;> decide

theorem text_ne_assignment {e : Expression} (he : e.isLegible = true) (w : List Char) :
    e.text.toList ≠ '=' :: w := by
  obtain ⟨c, t, htext, hc⟩ := Expression.text_head he
  rw [htext]
  intro h
  rw [(List.cons.inj h).1] at hc
  exact absurd hc (by decide)

/-- No expression begins with an equality sign, so only an assignment has one after the word. -/
theorem Op.eq_assign_of_argument {o : Op d} (ho : o.isLegible = true) {w : List Char}
    (h : o.argument = ' ' :: '=' :: w) : ∃ x e, o = .assign x e := by
  cases o with
  | assign x e => exact ⟨x, e, rfl⟩
  | conditional c t e =>
    simp only [isLegible, Bool.and_eq_true] at ho
    exact absurd (List.cons.inj h).2 (text_ne_assignment ho.1.1 _)
  | whileLoop c b =>
    simp only [isLegible, Bool.and_eq_true] at ho
    exact absurd (List.cons.inj h).2 (text_ne_assignment ho.1 _)
  | _ => simp [argument] at h

/-- A header determines an operation but for its regions. -/
theorem Op.head_eq_of_header_eq {o o' : Op d} (ho : o.isLegible = true) (ho' : o'.isLegible = true)
    (h : o.header = o'.header) : o.head = o'.head := by
  have hlist := congrArg String.toList h
  rw [o.toList_header, o'.toList_header] at hlist
  obtain ⟨hword, hargument⟩ := run_append_inj (keyword_isWord ho).chars
    (keyword_isWord ho').chars o.stops_argument o'.stops_argument hlist
  have hkeyword : o.keyword = o'.keyword := String.toList_inj.mp hword
  cases o with
  | assign x e =>
    obtain ⟨y, f, rfl⟩ := eq_assign_of_argument ho' hargument.symm
    simp only [isLegible, Bool.and_eq_true] at ho ho'
    simp only [argument, List.cons.injEq, true_and, String.toList_inj] at hargument
    have hxy : x = y := by
      obtain ⟨x⟩ := x
      obtain ⟨y⟩ := y
      rw [show x = y from hkeyword]
    rw [hxy, Expression.eq_of_text_eq ho.2 ho'.2 hargument]
  | conditional c t e =>
    cases o' with
    | assign y f =>
      obtain ⟨x, e, hassign⟩ := eq_assign_of_argument ho hargument
      cases hassign
    | conditional c' t' e' =>
      simp only [isLegible, Bool.and_eq_true] at ho ho'
      simp only [argument, List.cons.injEq, true_and, String.toList_inj] at hargument
      rw [head, head, Expression.eq_of_text_eq ho.1.1 ho'.1.1 hargument]
    | _ => simp [keyword] at hkeyword
  | whileLoop c b =>
    cases o' with
    | assign y f =>
      obtain ⟨x, e, hassign⟩ := eq_assign_of_argument ho hargument
      cases hassign
    | whileLoop c' b' =>
      simp only [isLegible, Bool.and_eq_true] at ho ho'
      simp only [argument, List.cons.injEq, true_and, String.toList_inj] at hargument
      rw [head, head, Expression.eq_of_text_eq ho.1 ho'.1 hargument]
    | _ => simp [keyword] at hkeyword
  | skip => cases o' <;> first | rfl | simp [keyword, argument] at hkeyword hargument
  | breakLoop => cases o' <;> first | rfl | simp [keyword, argument] at hkeyword hargument
  | terminate => cases o' <;> first | rfl | simp [keyword, argument] at hkeyword hargument
  | scope g b => cases o' <;> first | rfl | simp [keyword, argument] at hkeyword hargument

theorem Op.header_ne {o : Op d} (ho : o.isLegible = true) {w : String}
    (hw : ∀ c ∈ w.toList, isWordChar c = true)
    (hnone : w ∉ ["skip", "break", "terminate", "scope"]) : o.header ≠ w := by
  intro h
  have hlist : o.keyword.toList ++ o.argument = w.toList ++ [] := by
    rw [← o.toList_header, h, List.append_nil]
  obtain ⟨hword, hargument⟩ :=
    run_append_inj (keyword_isWord ho).chars hw o.stops_argument stops_nil hlist
  have hkeyword := String.toList_inj.mp hword
  cases o with
  | assign x e => simp [argument] at hargument
  | conditional c t e => simp [argument] at hargument
  | whileLoop c b => simp [argument] at hargument
  | _ => simp [← hkeyword, keyword] at hnone

theorem Op.argument_chars {o : Op d} (ho : o.isLegible = true) :
    ∀ c ∈ o.argument, (c != '\n') = true := by
  cases o with
  | assign x e =>
    simp only [isLegible, Bool.and_eq_true] at ho
    simp only [argument, List.forall_mem_cons]
    exact ⟨rfl, rfl, rfl, Expression.text_chars ho.2⟩
  | conditional c t e =>
    simp only [isLegible, Bool.and_eq_true] at ho
    simp only [argument, List.forall_mem_cons]
    exact ⟨rfl, Expression.text_chars ho.1.1⟩
  | whileLoop c b =>
    simp only [isLegible, Bool.and_eq_true] at ho
    simp only [argument, List.forall_mem_cons]
    exact ⟨rfl, Expression.text_chars ho.1⟩
  | _ => simp [argument]

theorem Op.header_isClear {o : Op d} (ho : o.isLegible = true) (n : Nat) :
    (Line.header n o.header).IsClear := by
  have hword := keyword_isWord ho
  have helse : ∀ c ∈ "else".toList, isWordChar c = true := by simp [isWordChar, isNameChar]
  have hend : ∀ c ∈ "end".toList, isWordChar c = true := by simp [isWordChar, isNameChar]
  refine ⟨header_ne ho helse (by decide), header_ne ho hend (by decide), ?_, ?_⟩
  · rw [o.toList_header, List.forall_mem_append]
    exact ⟨fun c hc => ne_lineFeed (hword.chars c hc), argument_chars ho⟩
  · obtain ⟨c, w, hcw, hc⟩ := hword.eq_cons
    refine ⟨c, w ++ o.argument, by rw [o.toList_header, hcw, List.cons_append], ?_⟩
    rw [beq_eq_false_iff_ne]
    rintro rfl
    exact absurd hc (by decide)

end RegionFlow

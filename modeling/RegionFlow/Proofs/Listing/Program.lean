import RegionFlow.Proofs.Listing.Header
set_option autoImplicit false

namespace RegionFlow

open Text

variable {d : Dialect}

def Op.blockLines (n : Nat) : Op d → List Line
  | .conditional _ t e =>
      sequenceLines (n + 1) t ++
        (if e.isEmpty then [] else .otherwise n :: sequenceLines (n + 1) e) ++ [.close n]
  | .whileLoop _ b => sequenceLines (n + 1) b ++ [.close n]
  | .scope _ b => sequenceLines (n + 1) b ++ [.close n]
  | .skip => []
  | .assign _ _ => []
  | .breakLoop => []
  | .terminate => []

theorem Op.lines_eq (n : Nat) (o : Op d) : o.lines n = .header n o.header :: o.blockLines n := by
  cases o <;> simp [lines, blockLines]

theorem mem_sequenceLines {s : Sequence d} {n : Nat} {l : Line} (hl : l ∈ sequenceLines n s) :
    ∃ o ∈ s, l ∈ o.lines n := by
  induction s with
  | nil => simp [sequenceLines] at hl
  | cons o s ih =>
    rw [sequenceLines, List.mem_append] at hl
    rcases hl with hl | hl
    · exact ⟨o, by simp, hl⟩
    · obtain ⟨o', ho', hl⟩ := ih hl
      exact ⟨o', by simp [ho'], hl⟩

theorem Op.mem_blockLines {o : Op d} {n : Nat} {l : Line} (hl : l ∈ o.blockLines n) :
    (∃ p ∈ o.regions, l ∈ sequenceLines (n + 1) p.2) ∨ l = .otherwise n ∨ l = .close n := by
  cases o with
  | conditional c t e =>
    simp only [blockLines, List.mem_append, List.mem_singleton] at hl
    rcases hl with (hl | hl) | hl
    · exact .inl ⟨(.thenArm, t), by simp [regions], hl⟩
    · split at hl
      · simp at hl
      · rcases List.mem_cons.mp hl with hl | hl
        · exact .inr (.inl hl)
        · exact .inl ⟨(.elseArm, e), by simp [regions], hl⟩
    · exact .inr (.inr hl)
  | whileLoop c b =>
    simp only [blockLines, List.mem_append, List.mem_singleton] at hl
    rcases hl with hl | hl
    · exact .inl ⟨(.body, b), by simp [regions], hl⟩
    · exact .inr (.inr hl)
  | scope g b =>
    simp only [blockLines, List.mem_append, List.mem_singleton] at hl
    rcases hl with hl | hl
    · exact .inl ⟨(.body, b), by simp [regions], hl⟩
    · exact .inr (.inr hl)
  | _ => simp [blockLines] at hl

theorem Op.lines_isClear (o : Op d) : o.isLegible = true → ∀ n, ∀ l ∈ o.lines n, l.IsClear := by
  induction o using Op.region_induction with
  | step o ih =>
  intro ho n l hl
  rw [o.lines_eq] at hl
  rcases List.mem_cons.mp hl with rfl | hl
  · exact header_isClear ho n
  · rcases mem_blockLines hl with ⟨p, hp, hl⟩ | rfl | rfl
    · obtain ⟨e, he, hl⟩ := mem_sequenceLines hl
      exact ih p hp e he (isLegible_region ho p hp e he) (n + 1) l hl
    · trivial
    · trivial

def Line.isHeader : Line → Bool
  | .header _ _ => true
  | .otherwise _ => false
  | .close _ => false

/-- The lines of an operation determine it, whatever lines follow. -/
def Op.LinesDetermine (o : Op d) : Prop :=
  ∀ n o' r r', o'.isLegible = true → o.lines n ++ r = o'.lines n ++ r' → o = o' ∧ r = r'

/-- The lines of a sequence determine it, where no header follows. -/
theorem sequence_eq_of_lines_eq {s s' : Sequence d} (hs : ∀ o ∈ s, o.LinesDetermine)
    (hs' : ∀ o ∈ s', o.isLegible = true) {n : Nat} {r r' : List Line}
    (hr : Stops Line.isHeader r) (hr' : Stops Line.isHeader r')
    (h : sequenceLines n s ++ r = sequenceLines n s' ++ r') : s = s' ∧ r = r' := by
  induction s generalizing s' with
  | nil =>
    cases s' with
    | nil => exact ⟨rfl, h⟩
    | cons o' s' =>
      -- A header would follow the empty sequence.
      simp only [sequenceLines, Op.lines_eq, List.nil_append, List.cons_append] at h
      rw [h] at hr
      simp [Line.isHeader] at hr
  | cons o s ih =>
    rw [List.forall_mem_cons] at hs
    cases s' with
    | nil =>
      simp only [sequenceLines, Op.lines_eq, List.nil_append, List.cons_append] at h
      rw [← h] at hr'
      simp [Line.isHeader] at hr'
    | cons o' s' =>
      rw [List.forall_mem_cons] at hs'
      simp only [sequenceLines, List.append_assoc] at h
      obtain ⟨ho, h⟩ := hs.1 n o' _ _ hs'.1 h
      obtain ⟨htail, h⟩ := ih hs.2 hs'.2 h
      rw [ho, htail]
      exact ⟨rfl, h⟩

theorem block_eq_of_lines_eq {b b' : Sequence d} (hb : ∀ o ∈ b, o.LinesDetermine)
    (hb' : ∀ o ∈ b', o.isLegible = true) {n m : Nat} {r r' : List Line}
    (h : sequenceLines n b ++ .close m :: r = sequenceLines n b' ++ .close m :: r') :
    b = b' ∧ r = r' := by
  obtain ⟨hbody, hrest⟩ :=
    sequence_eq_of_lines_eq hb hb' (stops_cons.mpr rfl) (stops_cons.mpr rfl) h
  exact ⟨hbody, (List.cons.inj hrest).2⟩

/-- The lines from the end of a then arm on. -/
def elseLines (n : Nat) (e : Sequence d) (rest : List Line) : List Line :=
  (if e.isEmpty then [] else .otherwise n :: sequenceLines (n + 1) e) ++ .close n :: rest

theorem stops_elseLines (n : Nat) (e : Sequence d) (rest : List Line) :
    Stops Line.isHeader (elseLines n e rest) := by
  cases e <;> simp [elseLines, Line.isHeader]

theorem else_eq_of_lines_eq {e e' : Sequence d} (he : ∀ o ∈ e, o.LinesDetermine)
    (he' : ∀ o ∈ e', o.isLegible = true) {n : Nat} {r r' : List Line}
    (h : elseLines n e r = elseLines n e' r') : e = e' ∧ r = r' := by
  cases e with
  | nil =>
    cases e' with
    | nil => simpa [elseLines] using h
    | cons o' e' => simp [elseLines] at h
  | cons o e =>
    cases e' with
    | nil => simp [elseLines] at h
    | cons o' e' =>
      simp only [elseLines, List.isEmpty_cons, Bool.false_eq_true, if_false, List.cons_append] at h
      exact block_eq_of_lines_eq he he' (List.cons.inj h).2

theorem Op.linesDetermine (o : Op d) : o.isLegible = true → o.LinesDetermine := by
  induction o using Op.region_induction with
  | step o ih =>
  intro ho n o' r r' ho' h
  have hsub : ∀ p ∈ o.regions, ∀ e ∈ p.2, e.LinesDetermine :=
    fun p hp e he => ih p hp e he (isLegible_region ho p hp e he)
  have hsub' := isLegible_region ho'
  rw [o.lines_eq, o'.lines_eq, List.cons_append, List.cons_append] at h
  obtain ⟨hheader, hblock⟩ := List.cons.inj h
  -- The headers agree, so the operations are of one kind and differ at most in their regions.
  have hhead : o.head = o'.head := head_eq_of_header_eq ho ho' (Line.header.inj hheader).2
  cases o with
  | conditional c t e =>
    cases o' with
    | conditional c' t' e' =>
      simp only [regions, List.forall_mem_cons] at hsub hsub'
      simp only [blockLines, List.append_assoc, List.singleton_append] at hblock
      obtain ⟨hthen, helse⟩ := sequence_eq_of_lines_eq hsub.1 hsub'.1
        (stops_elseLines n e r) (stops_elseLines n e' r') hblock
      obtain ⟨helse, hrest⟩ := else_eq_of_lines_eq hsub.2.1 hsub'.2.1 helse
      rw [(Op.conditional.inj hhead).1, hthen, helse]
      exact ⟨rfl, hrest⟩
    | _ => simp [head] at hhead
  | whileLoop c b =>
    cases o' with
    | whileLoop c' b' =>
      simp only [regions, List.forall_mem_cons] at hsub hsub'
      simp only [blockLines, List.append_assoc, List.singleton_append] at hblock
      obtain ⟨hbody, hrest⟩ := block_eq_of_lines_eq hsub.1 hsub'.1 hblock
      rw [(Op.whileLoop.inj hhead).1, hbody]
      exact ⟨rfl, hrest⟩
    | _ => simp [head] at hhead
  | scope g b =>
    cases o' with
    | scope g' b' =>
      simp only [regions, List.forall_mem_cons] at hsub hsub'
      simp only [blockLines, List.append_assoc, List.singleton_append] at hblock
      obtain ⟨hbody, hrest⟩ := block_eq_of_lines_eq hsub.1 hsub'.1 hblock
      rw [hbody]
      exact ⟨rfl, hrest⟩
    | _ => simp [head] at hhead
  | skip => cases o' <;> simp_all [head, blockLines]
  | assign x e => cases o' <;> simp_all [head, blockLines]
  | breakLoop => cases o' <;> simp_all [head, blockLines]
  | terminate => cases o' <;> simp_all [head, blockLines]

/-- Legible programs of the same text are equal: the text tells every literal with its kind and
sign, every operator, the grouping of every expression, and the nesting of every region. -/
theorem Program.text_determines {p q : Program d} (hp : p.isLegible = true)
    (hq : q.isLegible = true) (htext : p.text = q.text) : p = q := by
  obtain ⟨s⟩ := p
  obtain ⟨t⟩ := q
  have hs : ∀ o ∈ s, o.isLegible = true := isLegibleSequence_iff.mp hp
  have ht : ∀ o ∈ t, o.isLegible = true := isLegibleSequence_iff.mp hq
  have hclear : ∀ {b : Sequence d}, (∀ o ∈ b, o.isLegible = true) →
      ∀ l ∈ sequenceLines 0 b, l.IsClear := by
    intro b hb l hl
    obtain ⟨o, ho, hl⟩ := mem_sequenceLines hl
    exact o.lines_isClear (hb o ho) 0 l hl
  have hchars := congrArg String.toList htext
  simp only [Program.text, sequenceText, String.toList_join, List.flatMap_map] at hchars
  have hlines := lines_eq_of_text_eq (hclear hs) (hclear ht) hchars
  have happend : sequenceLines 0 s ++ [] = sequenceLines 0 t ++ [] := by rw [hlines]
  have hsame := sequence_eq_of_lines_eq (fun o ho => o.linesDetermine (hs o ho)) ht stops_nil
    stops_nil happend
  rw [hsame.1]

/-- Names may be words of the listing, and a sum with a negative literal is told from a difference
with a positive one. -/
theorem Program.text_determines_sample :
    (⟨[.scope rfl [.conditional (.relational (Predicate.ge).negate (.read ⟨"end"⟩)
        (.constant (.signed (-1)))) [.assign ⟨"else"⟩ (.constant (.unsigned (2 - 1)))] []]]⟩ :
        Program .imp) =
      ⟨[.scope rfl [.conditional (.relational .lt (.read ⟨"end"⟩)
        (.constant (.signed (-1)))) [.assign ⟨"else"⟩ (.constant (.unsigned 1))] []]]⟩ ∧
    Program.text (d := .core) ⟨[.assign ⟨"skip"⟩
        (.arithmetic .add (.read ⟨"_x"⟩) (.constant (.signed (-1))))]⟩ ≠
      Program.text (d := .core) ⟨[.assign ⟨"skip"⟩
        (.arithmetic .sub (.read ⟨"_x"⟩) (.constant (.signed 1)))]⟩ := by
  refine ⟨Program.text_determines (by decide) (by decide) rfl, fun h => ?_⟩
  have heq := Program.text_determines (by decide) (by decide) h
  revert heq
  decide

example (a b c : Expression) : (Expression.relational .eq (.relational .eq a b) c).text =
    (Expression.relational .eq a (.relational .eq b c)).text := by
  simp [Expression.text, String.append_assoc]

end RegionFlow

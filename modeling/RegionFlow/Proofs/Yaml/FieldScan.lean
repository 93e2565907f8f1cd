import RegionFlow.Proofs.Yaml.Field
set_option autoImplicit false

/-!
The scanner meets the name of a field as a plain scalar, and knows it for a key at the colon; the
lines before it left the columns of the open mappings and the tokens found, and no place of a key.
That holds again behind the line, so a scan goes line by line.
-/

namespace RegionFlow.Yaml

variable {f : Field} {fs : List Field} {columns : List Nat} {found : List Token} {line : Nat}
  {rest : List Char}

def Scanner.atFields (line : Nat) (found : List Token) (columns : List Nat) (fs : List Field) :
    Scanner :=
  ⟨⟨unindented fs, line, firstColumn fs⟩, found, columns, none, [], true⟩

namespace Scanner

theorem closeDeeper_eq (closes : Nat → Bool) :
    closeDeeper closes columns found =
      (columns.dropWhile closes,
        List.replicate (columns.takeWhile closes).length .blockEnd ++ found) := by
  induction columns generalizing found with
  | nil => rfl
  | cons column columns ih =>
    rw [closeDeeper]
    cases hc : closes column with
    | true => simp [hc, ih, List.replicate_succ']
    | false => simp [hc]

theorem closeDeeper_all :
    closeDeeper (fun _ => true) columns found =
      ([], List.replicate columns.length .blockEnd ++ found) := by
  induction columns generalizing found with
  | nil => rfl
  | cons column columns ih => simp [closeDeeper, ih, List.replicate_succ']

theorem closeHere_eq {s : Scanner} (hflow : s.outerKeyStarts = []) :
    s.closeHere = { s with
      columns := s.columns.dropWhile (s.cursor.column < ·)
      found := List.replicate (s.columns.takeWhile (s.cursor.column < ·)).length .blockEnd ++
        s.found } := by
  simp [closeHere, closeWhere, inFlow, hflow, closeDeeper_eq]

theorem closeHere_eq_self {s : Scanner} (hcolumns : ∀ column ∈ s.columns.head?,
    column ≤ s.cursor.column) : s.closeHere = s := by
  obtain ⟨cursor, found, columns, keyStart, outerKeyStarts, keyAllowed⟩ := s
  cases columns with
  | nil => simp [closeHere, closeWhere, closeDeeper]
  | cons column columns =>
    have hle : ¬cursor.column < column := Nat.not_lt.mpr (hcolumns column rfl)
    simp [closeHere, closeWhere, closeDeeper, hle]

theorem closeHere_atFields :
    (atFields line found columns (f :: fs)).closeHere =
      atFields line (f.closed columns ++ found) (f.left columns) (f :: fs) := by
  rw [closeHere_eq rfl]
  rfl

theorem closeAll_eq {s : Scanner} (hflow : s.outerKeyStarts = []) :
    s.closeAll = { s with
      columns := [], found := List.replicate s.columns.length .blockEnd ++ s.found } := by
  simp [closeAll, closeWhere, inFlow, hflow, closeDeeper_all]

theorem closeAll_closeHere {s : Scanner} (hflow : s.outerKeyStarts = []) :
    s.closeHere.closeAll = s.closeAll := by
  have hlength : (s.columns.dropWhile (s.cursor.column < ·)).length +
      (s.columns.takeWhile (s.cursor.column < ·)).length = s.columns.length := by
    rw [Nat.add_comm, ← List.length_append, List.takeWhile_append_dropWhile]
  rw [closeHere_eq hflow, closeAll_eq (by exact hflow), closeAll_eq hflow]
  simp only [← List.append_assoc, List.replicate_append_replicate, hlength]

theorem openAt_of_lt {s : Scanner} {column : Nat} (h : column < s.floor) (n : Nat) (t : Token) :
    s.openAt column n t = s := by
  simp [openAt, h]

theorem openAt_of_not_lt {s : Scanner} {column : Nat} (hflow : s.outerKeyStarts = [])
    (h : ¬column < s.floor) (n : Nat) (t : Token) :
    s.openAt column n t =
      { s with columns := column :: s.columns, found := insertToken s.found n t } := by
  simp [openAt, inFlow, hflow, h]

theorem head?_left_le {column : Nat} (h : (f.left columns).head? = some column) :
    column ≤ f.column := by
  have hnot := List.head?_dropWhile_not (fun x => decide (f.column < x)) columns
  rw [Field.left] at h
  simpa [h] using hnot

theorem head?_opened : (f.opened columns).head? = some f.column := by
  cases hc : f.continues columns with
  | true =>
    rw [Field.opened, if_pos hc]
    exact eq_of_beq hc
  | false => simp [Field.opened, hc]

theorem continues_iff :
    f.continues columns = true ↔ f.column < (f.left columns).head?.elim 0 (· + 1) := by
  rw [Field.continues]
  cases hhead : (f.left columns).head? with
  | none => simp
  | some column =>
    have hle := head?_left_le hhead
    simp only [Option.elim_some, beq_iff_eq, Option.some.injEq]
    omega

theorem advance_atFields (h : AreFields fs) :
    (atFields line found columns fs).advance = atFields line found columns fs := by
  simp [atFields, advance, inFlow, skipToToken_unindented h]

theorem dropStaleKeys?_eq_self {s : Scanner} (hflow : s.outerKeyStarts = [])
    (hstale : ∀ k ∈ s.keyStart, k.isStale s.cursor = false) : s.dropStaleKeys? = some s := by
  obtain ⟨cursor, found, columns, keyStart, outerKeyStarts, keyAllowed⟩ := s
  obtain rfl : outerKeyStarts = [] := hflow
  cases keyStart with
  | none => rfl
  | some k =>
    have hk : k.isStale cursor = false := hstale k rfl
    simp [dropStaleKeys?, forgetStale?, hk]

/-- What a scanner goes on to depends on the next token only, not on the gap before it. -/
theorem run_congr {s t : Scanner} (fuel : Nat) (h : s.advance = t.advance) :
    run fuel s = run fuel t := by
  cases fuel with
  | zero => rfl
  | succ fuel => rw [run, run, h]

theorem run_step {s s' : Scanner} (c : Char) (rest : List Char) (fuel : Nat)
    (hstale : s.advance.dropStaleKeys? = some s.advance)
    (hrest : s.advance.closeHere.cursor.rest = c :: rest)
    (htoken : s.advance.closeHere.token? c rest = some s') :
    run (fuel + 1) s = run fuel s' := by
  rw [run, hstale]
  simp only [Option.bind_eq_bind, Option.bind_some, hrest, htoken]

theorem startsPlain_word {s : Scanner} {c : Char} (hc : isWord c = true) (hdash : c ≠ '-') :
    s.startsPlain c rest = true := by
  have hne := ne_of_isWord hc
  simp (disch := decide) [startsPlain, hdash, hne, isGap_eq_false_of_isWord hc,
    isFlowIndicator_eq_false_of_isWord hc]

theorem token?_word {s : Scanner} {c : Char} (hc : isWord c = true) (hdash : c ≠ '-') :
    s.token? c rest = s.plainScalar? := by
  have hne := beq_eq_false_of_isWord hc
  have hdash' : (c == '-') = false := beq_eq_false_iff_ne.mpr hdash
  have hmark : ∀ mark, (c == mark) = false → startsMark mark (c :: rest) = false := by
    intro mark hmark
    rcases rest with _ | ⟨a, _ | ⟨b, tail⟩⟩ <;> simp [startsMark, hmark]
  rw [token?]
  simp (disch := decide) only [hmark '-' hdash', hmark '.' (hne '.' (by decide)), hdash', hne,
    startsPlain_word hc hdash, Bool.and_false, Bool.false_and, Bool.false_eq_true, if_false,
    if_true]

theorem token?_colon {s : Scanner} (hends : endsWord rest = true) :
    s.token? ':' rest = s.value? := by
  have hmark : ∀ mark, mark ≠ ':' → startsMark mark (':' :: rest) = false := by
    intro mark hmark
    rcases rest with _ | ⟨a, _ | ⟨b, tail⟩⟩ <;> simp [startsMark, hmark.symm]
  simp [token?, hmark, hends]

def atColon (line : Nat) (found : List Token) (columns : List Nat) (f : Field) (fs : List Field) :
    Scanner :=
  ⟨⟨':' :: f.value ('\n' :: writeFields fs), line, f.column + f.name.length⟩,
    .scalar .plain (String.ofList f.name) :: (f.closed columns ++ found), f.left columns,
    some ⟨(f.closed columns ++ found).length, line, f.column, f.continues columns⟩, [], false⟩

def atValue (line : Nat) (found : List Token) (columns : List Nat) (f : Field) (fs : List Field) :
    Scanner :=
  ⟨⟨f.value ('\n' :: writeFields fs), line, f.column + f.name.length + 1⟩,
    .value :: .scalar .plain (String.ofList f.name) :: .key ::
      (f.opening columns ++ (f.closed columns ++ found)), f.opened columns, none, [], false⟩

/-- The name of a field is a plain scalar; the scanner remembers that it may be a key. -/
theorem run_name (h : AreFields (f :: fs)) (fuel : Nat) :
    run (fuel + 1) (atFields line found columns (f :: fs)) =
      run fuel (atColon line found columns f fs) := by
  have hadvance : (atFields line found columns (f :: fs)).advance =
      atFields line found columns (f :: fs) := advance_atFields h
  cases h with
  | cons plain below rest =>
    obtain ⟨c, tail, hwrite, hc, hdash⟩ := Field.write_eq_cons plain (writeFields fs)
    refine run_step c tail fuel ?_ ?_ ?_
    · rw [hadvance, dropStaleKeys?_eq_self rfl (by simp [atFields])]
    · rw [hadvance, closeHere_atFields]
      exact hwrite
    · rw [hadvance, closeHere_atFields, token?_word hc hdash]
      simp [plainScalar?, saveKey?, dropKey?, forgetKey?, atFields, unindented, inFlow,
        plain?_name plain, atColon, Field.continues, firstColumn]

theorem insertToken_append (new found : List Token) (t : Token) :
    insertToken (new ++ found) found.length t = new ++ t :: found := by
  simp [insertToken]

theorem value?_atColon :
    (atColon line found columns f fs).value? = some (atValue line found columns f fs) := by
  have hkey := fun name => insertToken_append [name] (f.closed columns ++ found) .key
  have hstart := fun name => insertToken_append [name, .key] (f.closed columns ++ found)
    .blockMappingStart
  simp only [List.cons_append, List.nil_append] at hkey hstart
  simp only [value?, atColon, hkey]
  cases hc : f.continues columns with
  | true =>
    rw [openAt_of_lt (continues_iff.mp hc)]
    simp [atValue, indicator, Cursor.skip, Field.opening, Field.opened, hc]
  | false =>
    have hnot : ¬f.column < (f.left columns).head?.elim 0 (· + 1) := by
      simp [← continues_iff, hc]
    rw [openAt_of_not_lt rfl hnot]
    simp only [hstart]
    simp [atValue, indicator, Cursor.skip, Field.opening, Field.opened, hc]

/-- The colon makes the name a key, and opens a mapping where the name is the first of one. -/
theorem run_colon (hf : f.IsPlain) (fuel : Nat) :
    run (fuel + 1) (atColon line found columns f fs) =
      run fuel (atValue line found columns f fs) := by
  have hadvance : (atColon line found columns f fs).advance = atColon line found columns f fs := by
    have hskip := @skipToToken_stop false false line (f.column + f.name.length)
      (f.value ('\n' :: writeFields fs)) ':' (by decide) (by decide) (by decide)
    simp [advance, atColon, inFlow, hskip]
  have hclose : (atColon line found columns f fs).closeHere = atColon line found columns f fs := by
    refine closeHere_eq_self fun column hcolumn => ?_
    exact Nat.le_trans (head?_left_le hcolumn) (Nat.le_add_right _ _)
  refine run_step ':' (f.value ('\n' :: writeFields fs)) fuel ?_ ?_ ?_
  · rw [hadvance, dropStaleKeys?_eq_self rfl]
    simp [atColon, KeyStart.isStale, hf.short]
  · rw [hadvance, hclose]
    rfl
  · rw [hadvance, hclose, token?_colon f.endsWord_value, value?_atColon]

def foundAfter (f : Field) (columns : List Nat) (found : List Token) : List Token :=
  (f.closed columns ++ f.opening columns ++ f.tokens).reverse ++ found

theorem foundAfter_eq : foundAfter f columns found =
    f.tokens.reverse ++ (f.opening columns ++ (f.closed columns ++ found)) := by
  have hopening : (f.opening columns).reverse = f.opening columns := by
    rw [Field.opening]
    split <;> rfl
  have hclosed : (f.closed columns).reverse = f.closed columns := List.reverse_replicate
  simp [foundAfter, hopening, hclosed]

theorem run_word (h : AreFields (f :: fs)) {w : List Char} (hw : f.word? = some w) (fuel : Nat) :
    run (fuel + 1) (atValue line found columns f fs) =
      run fuel (atFields (line + 1) (foundAfter f columns found) (f.opened columns) fs) := by
  cases h with
  | cons plain below rest =>
    have hbare := plain.word w hw
    obtain ⟨c, tail, hcons, hdash⟩ := hbare.head
    have hc := hbare.chars c (by simp [hcons])
    -- the space behind the colon is gone once the scanner moves on
    have hadvance : (atValue line found columns f fs).advance =
        { atValue line found columns f fs with
          cursor := ⟨w ++ '\n' :: writeFields fs, line, f.column + f.name.length + 1 + 1⟩ } := by
      have hskip := @skipToToken_spaces false false line (f.column + f.name.length + 1)
        (w ++ '\n' :: writeFields fs) 1
      simp only [List.replicate_one, List.singleton_append, skipToToken_word hbare] at hskip
      simp [advance, atValue, inFlow, Field.value, hw, hskip]
    have hclose : (atValue line found columns f fs).advance.closeHere =
        (atValue line found columns f fs).advance := by
      refine closeHere_eq_self fun column hcolumn => ?_
      rw [hadvance] at hcolumn ⊢
      obtain rfl : f.column = column := Option.some.inj (head?_opened.symm.trans hcolumn)
      show f.column ≤ f.column + f.name.length + 1 + 1
      omega
    have hindent : firstColumn fs < f.column + 1 :=
      Nat.lt_succ_of_le (below (by simp [hw]))
    refine run_step c (tail ++ '\n' :: writeFields fs) fuel ?_ ?_ ?_
    · rw [hadvance, dropStaleKeys?_eq_self rfl (by simp [atValue])]
    · rw [hclose, hadvance, hcons]
      rfl
    · rw [hclose, hadvance, token?_word hc hdash]
      simp [plainScalar?, saveKey?, atValue, inFlow, floor, head?_opened,
        plain?_word hbare rest hindent, atFields, foundAfter_eq, Field.tokens, hw]

/-- A scan takes a line at a time. -/
theorem run_field (h : AreFields (f :: fs)) : ∃ steps ≤ 3, ∀ fuel,
    run (fuel + steps) (atFields line found columns (f :: fs)) =
      run fuel (atFields (line + 1) (foundAfter f columns found) (f.opened columns) fs) := by
  cases hw : f.word? with
  | none =>
    have hadvance : (atValue line found columns f fs).advance =
        (atFields (line + 1) (foundAfter f columns found) (f.opened columns) fs).advance := by
      rw [advance_atFields h.tail]
      simp [advance, atValue, inFlow, Field.value, hw, skipToToken_lines h.tail, atFields,
        foundAfter_eq, Field.tokens]
    refine ⟨2, by omega, fun fuel => ?_⟩
    rw [run_name h, run_colon h.head, run_congr fuel hadvance]
  | some w =>
    refine ⟨3, by omega, fun fuel => ?_⟩
    rw [run_name h, run_colon h.head, run_word h hw]

theorem run_nil (fuel : Nat) :
    run (fuel + 1) (atFields line found columns []) =
      some (found.reverse ++ columns.map fun _ => .blockEnd) := by
  have hadvance : (atFields line found columns []).advance = atFields line found columns [] :=
    advance_atFields .nil
  have hfinish : (atFields line found columns []).closeHere.finish? =
      some (found.reverse ++ columns.map fun _ => .blockEnd) := by
    rw [finish?, closeAll_closeHere rfl, closeAll_eq rfl]
    simp [atFields, dropKey?, forgetKey?, List.map_const']
  rw [run, hadvance, dropStaleKeys?_eq_self rfl (by simp [atFields])]
  exact hfinish

theorem run_fields (h : AreFields fs) (fuel : Nat) (hfuel : 3 * fs.length < fuel) :
    run fuel (atFields line found columns fs) =
      some (found.reverse ++ fieldsTokens columns fs) := by
  induction fs generalizing line found columns fuel with
  | nil =>
    obtain ⟨fuel, rfl⟩ := Nat.exists_eq_succ_of_ne_zero (Nat.ne_of_gt hfuel)
    exact run_nil fuel
  | cons f fs ih =>
    obtain ⟨steps, hsteps, hfield⟩ := @run_field f fs columns found line h
    rw [List.length_cons] at hfuel
    obtain ⟨left, rfl⟩ := Nat.exists_eq_add_of_le' (show steps ≤ fuel by omega)
    rw [hfield, ih h.tail left (by omega), foundAfter, fieldsTokens]
    simp

end Scanner

/-- The tokens of a text made of lines. -/
theorem tokens?_fields (h : AreFields fs) {text : String} (htext : text.toList = writeFields fs) :
    tokens? text = some (fieldsTokens [] fs) := by
  have hprintable : text.toList.all isPrintable = true := by
    rw [List.all_eq_true, htext]
    exact forall_mem_writeFields (fun c hc => isPrintable_of_isWord hc) (by decide) (by decide)
      (by decide) h
  have hbreaks : unifyBreaks text.toList = writeFields fs := by
    rw [htext]
    exact unifyBreaks_eq_self (forall_mem_writeFields
      (fun c hc => ⟨ne_of_isWord hc _ (by decide), ne_of_isWord hc _ (by decide)⟩) (by decide)
      (by decide) (by decide) h)
  have hadvance : (Scanner.start (writeFields fs)).advance =
      (Scanner.atFields 0 [] [] fs).advance := by
    rw [Scanner.advance_atFields h, writeFields_eq]
    simp [Scanner.advance, Scanner.start, Cursor.start, Scanner.inFlow, skipToToken_spaces,
      skipToToken_unindented h, Scanner.atFields]
  have hlength := length_writeFields h
  rw [tokens?, if_pos hprintable, hbreaks, Scanner.run_congr _ hadvance,
    Scanner.run_fields h _ (by omega)]
  rfl

end RegionFlow.Yaml

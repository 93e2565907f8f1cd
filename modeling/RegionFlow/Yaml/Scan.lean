import RegionFlow.Yaml.Scalar
set_option autoImplicit false

/-!
Block collections show by indentation only, so the scanner keeps the columns of those that are open.
What has been read turns out to be a key only when the colon after it is found: the scanner
remembers where a key may have begun, and puts the key token there afterwards.  A key stands on one
line, is not too long, and where a block mapping must go on, it must be there.
-/

namespace RegionFlow.Yaml

structure KeyStart where
  tokens : Nat
  line : Nat
  column : Nat
  required : Bool
  deriving DecidableEq, Repr

/-- The tokens found are listed the last one first, the columns of open block collections and the
places of keys the innermost first. -/
structure Scanner where
  cursor : Cursor
  found : List Token
  columns : List Nat
  keyStart : Option KeyStart
  outerKeyStarts : List (Option KeyStart)
  keyAllowed : Bool
  deriving DecidableEq, Repr

def maxKeyLength : Nat := 1024

def insertToken (found : List Token) (n : Nat) (t : Token) : List Token :=
  found.take (found.length - n) ++ t :: found.drop (found.length - n)

/-- Moves over blanks, comments and line breaks, and over a mark of the byte order at the
beginning of a line.  A tab separates only where no key may begin, or in a flow collection.  Gives
whether a key may begin now, and the cursor. -/
def skipToToken (inFlow : Bool) :
    (inComment keyAllowed : Bool) → List Char → (line column : Nat) → Bool × Cursor
  | _, keyAllowed, [], line, column => (keyAllowed, ⟨[], line, column⟩)
  | inComment, keyAllowed, c :: rest, line, column =>
    if isBreak c then skipToToken inFlow false (keyAllowed || !inFlow) rest (line + 1) 0
    else if inComment || c == ' ' || (c == '\t' && (inFlow || !keyAllowed)) ||
        (c == '\ufeff' && column == 0) then
      skipToToken inFlow inComment keyAllowed rest line (column + 1)
    else if c == '#' then skipToToken inFlow true keyAllowed rest line (column + 1)
    else (keyAllowed, ⟨c :: rest, line, column⟩)

def KeyStart.isStale (k : KeyStart) (c : Cursor) : Bool :=
  k.line < c.line || k.column + maxKeyLength < c.column

/-- Gives up a place where a key may have begun; a required key must not be given up. -/
def forgetKey? : Option KeyStart → Option (Option KeyStart)
  | none => some none
  | some k => if k.required then none else some none

def forgetStale? (c : Cursor) : Option KeyStart → Option (Option KeyStart)
  | none => some none
  | some k => if k.isStale c then forgetKey? (some k) else some (some k)

namespace Scanner

def start (text : List Char) : Scanner := ⟨.start text, [], [], none, [], true⟩

def inFlow (s : Scanner) : Bool := !s.outerKeyStarts.isEmpty

def floor (s : Scanner) : Nat := s.columns.head?.elim 0 (· + 1)

def advance (s : Scanner) : Scanner :=
  let c := s.cursor
  let (keyAllowed, cursor) := skipToToken s.inFlow false s.keyAllowed c.rest c.line c.column
  { s with cursor, keyAllowed }

def dropStaleKeys? (s : Scanner) : Option Scanner := do
  let keyStart ← forgetStale? s.cursor s.keyStart
  let outerKeyStarts ← s.outerKeyStarts.mapM (forgetStale? s.cursor)
  return { s with keyStart, outerKeyStarts }

def dropKey? (s : Scanner) : Option Scanner := do
  let keyStart ← forgetKey? s.keyStart
  return { s with keyStart }

def saveKey? (s : Scanner) : Option Scanner :=
  if s.keyAllowed then do
    let s ← s.dropKey?
    let required := !s.inFlow && s.columns.head? == some s.cursor.column
    return { s with
      keyStart := some ⟨s.found.length, s.cursor.line, s.cursor.column, required⟩ }
  else some s

def closeDeeper (closes : Nat → Bool) : List Nat → List Token → List Nat × List Token
  | [], found => ([], found)
  | column :: columns, found =>
    if closes column then closeDeeper closes columns (.blockEnd :: found)
    else (column :: columns, found)

def closeWhere (s : Scanner) (closes : Nat → Bool) : Scanner :=
  if s.inFlow then s
  else
    let (columns, found) := closeDeeper closes s.columns s.found
    { s with columns, found }

def closeHere (s : Scanner) : Scanner := s.closeWhere fun column => s.cursor.column < column

def closeAll (s : Scanner) : Scanner := s.closeWhere fun _ => true

/-- Opens a block collection at a column, behind the first `n` tokens, unless the innermost one is
indented as deep. -/
def openAt (s : Scanner) (column n : Nat) (t : Token) : Scanner :=
  if s.inFlow || column < s.floor then s
  else { s with columns := column :: s.columns, found := insertToken s.found n t }

def openHere (s : Scanner) (t : Token) : Scanner := s.openAt s.cursor.column s.found.length t

def indicator (s : Scanner) (n : Nat) (t : Token) (keyAllowed : Bool) : Scanner :=
  { s with cursor := s.cursor.skip n, found := t :: s.found, keyAllowed }

def content? (s : Scanner) (r : Option (Token × Cursor)) : Option Scanner :=
  r.map fun p => { s with cursor := p.2, found := p.1 :: s.found, keyAllowed := false }

def directive? (s : Scanner) : Option Scanner := do
  let s ← s.closeAll.dropKey?
  s.content? (Yaml.directive? s.cursor)

def documentMark? (s : Scanner) (t : Token) : Option Scanner := do
  let s ← s.closeAll.dropKey?
  return s.indicator 3 t false

def openFlow? (s : Scanner) (t : Token) : Option Scanner := do
  let s ← s.saveKey?
  let s := s.indicator 1 t true
  return { s with keyStart := none, outerKeyStarts := s.keyStart :: s.outerKeyStarts }

def closeFlow? (s : Scanner) (t : Token) : Option Scanner := do
  let s ← s.dropKey?
  let s := s.indicator 1 t false
  return match s.outerKeyStarts with
    | [] => s
    | keyStart :: outerKeyStarts => { s with keyStart, outerKeyStarts }

def flowEntry? (s : Scanner) : Option Scanner := do
  let s ← s.dropKey?
  return s.indicator 1 .flowEntry true

def blockEntry? (s : Scanner) : Option Scanner :=
  if !s.inFlow && !s.keyAllowed then none
  else do
    let s ← (s.openHere .blockSequenceStart).dropKey?
    return s.indicator 1 .blockEntry true

def key? (s : Scanner) : Option Scanner :=
  if !s.inFlow && !s.keyAllowed then none
  else do
    let s ← (s.openHere .blockMappingStart).dropKey?
    return s.indicator 1 .key (!s.inFlow)

/-- A value.  If a key may have begun, there was one. -/
def value? (s : Scanner) : Option Scanner :=
  match s.keyStart with
  | some k =>
    let s := { s with found := insertToken s.found k.tokens .key, keyStart := none }
    let s := s.openAt k.column k.tokens .blockMappingStart
    some (s.indicator 1 .value false)
  | none =>
    if !s.inFlow && !s.keyAllowed then none
    else
      let s := s.openHere .blockMappingStart
      some (s.indicator 1 .value (!s.inFlow))

def alias? (s : Scanner) : Option Scanner := do
  let s ← s.saveKey?
  s.content? ((anchorName? s.cursor).map fun r => (.alias r.1, r.2))

def anchor? (s : Scanner) : Option Scanner := do
  let s ← s.saveKey?
  s.content? ((anchorName? s.cursor).map fun r => (.anchor r.1, r.2))

def tag? (s : Scanner) : Option Scanner := do
  let s ← s.saveKey?
  s.content? ((tagName? s.inFlow s.cursor).map fun r => (.tag r.1, r.2))

def blockScalar? (s : Scanner) (style : Style) : Option Scanner := do
  let s ← s.dropKey?
  let base := s.columns.headD 0
  let (text, cursor) ← block? (style == .folded) s.floor base s.cursor
  return { s with
    cursor, found := .scalar style (String.ofList text) :: s.found, keyAllowed := true }

def quotedScalar? (s : Scanner) (quote : Char) (style : Style) : Option Scanner := do
  let s ← s.saveKey?
  s.content? ((quoted? quote s.cursor).map fun r => (.scalar style (String.ofList r.1), r.2))

def plainScalar? (s : Scanner) : Option Scanner := do
  let s ← s.saveKey?
  let (text, cursor, broken) ← plain? s.inFlow s.floor s.cursor
  return { s with
    cursor, found := .scalar .plain (String.ofList text) :: s.found, keyAllowed := broken }

def startsPlain (s : Scanner) (c : Char) (rest : List Char) : Bool :=
  if c == '-' then !startsWith isBlank rest
  else if c == '?' || c == ':' then !s.inFlow && !endsWord rest
  else !isGap c && !isFlowIndicator c && !"#&*!|>'\"%@".toList.contains c && c != '\x60'

def token? (s : Scanner) (c : Char) (rest : List Char) : Option Scanner :=
  if s.cursor.column == 0 && c == '%' then s.directive?
  else if s.cursor.column == 0 && startsMark '-' (c :: rest) then s.documentMark? .documentStart
  else if s.cursor.column == 0 && startsMark '.' (c :: rest) then s.documentMark? .documentEnd
  else if c == '[' then s.openFlow? .flowSequenceStart
  else if c == '{' then s.openFlow? .flowMappingStart
  else if c == ']' then s.closeFlow? .flowSequenceEnd
  else if c == '}' then s.closeFlow? .flowMappingEnd
  else if c == ',' then s.flowEntry?
  else if c == '-' && endsWord rest then s.blockEntry?
  else if c == '?' && (s.inFlow || endsWord rest) then s.key?
  else if c == ':' && (s.inFlow || endsWord rest) then s.value?
  else if c == '*' then s.alias?
  else if c == '&' then s.anchor?
  else if c == '!' then s.tag?
  else if c == '|' && !s.inFlow then s.blockScalar? .literal
  else if c == '>' && !s.inFlow then s.blockScalar? .folded
  else if c == '\'' then s.quotedScalar? c .singleQuoted
  else if c == '"' then s.quotedScalar? c .doubleQuoted
  else if s.startsPlain c rest then s.plainScalar?
  else none

def finish? (s : Scanner) : Option (List Token) :=
  s.closeAll.dropKey?.map fun s => s.found.reverse

/-- Reads tokens up to the end of the text.  Each token uses up a character, so that the length of
the text is fuel enough. -/
def run : Nat → Scanner → Option (List Token)
  | 0, _ => none
  | fuel + 1, s => do
    let s ← s.advance.dropStaleKeys?
    let s := s.closeHere
    match s.cursor.rest with
    | [] => s.finish?
    | c :: rest =>
      let s ← s.token? c rest
      run fuel s

end Scanner

def tokens? (text : String) : Option (List Token) :=
  if text.toList.all isPrintable then
    let chars := unifyBreaks text.toList
    Scanner.run (chars.length + 1) (.start chars)
  else none

end RegionFlow.Yaml

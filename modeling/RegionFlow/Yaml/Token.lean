set_option autoImplicit false

namespace RegionFlow.Yaml

def isPrintable (c : Char) : Bool :=
  c == '\t' || c == '\n' || c == '\r' || c == '\x85' || (32 ≤ c.toNat && c.toNat ≤ 126) ||
    (160 ≤ c.toNat && c.toNat ≤ 65533) || 65536 ≤ c.toNat

/-- One spelling for most line breaks: a line feed.  Separators of lines and of paragraphs are
line breaks too, but keep their spelling. -/
def unifyBreaks : List Char → List Char
  | [] => []
  | c :: rest =>
    if c == '\r' then
      if rest.head? == some '\n' then unifyBreaks rest else '\n' :: unifyBreaks rest
    else if c == '\x85' then '\n' :: unifyBreaks rest
    else c :: unifyBreaks rest

def isBreak (c : Char) : Bool := c == '\n' || c == '\u2028' || c == '\u2029'

def isBlank (c : Char) : Bool := c == ' ' || c == '\t'

def isGap (c : Char) : Bool := isBlank c || isBreak c

def isWord (c : Char) : Bool := c.isAlphanum || c == '_' || c == '-'

def isFlowIndicator (c : Char) : Bool := c == ',' || c == '[' || c == ']' || c == '{' || c == '}'

def startsWith (p : Char → Bool) : List Char → Bool
  | [] => false
  | c :: _ => p c

def endsWord : List Char → Bool
  | [] => true
  | c :: _ => isGap c

def endsLine : List Char → Bool
  | [] => true
  | c :: _ => isBreak c

def hexDigit? (c : Char) : Option Nat :=
  if c.isDigit then some (c.toNat - 48)
  else if 'a' ≤ c && c ≤ 'f' then some (c.toNat - 87)
  else if 'A' ≤ c && c ≤ 'F' then some (c.toNat - 55)
  else none

def hexNumber? (digits : List Char) : Option Nat :=
  digits.foldl (fun n c => n.bind fun n => (hexDigit? c).map fun d => 16 * n + d) (some 0)

def charOf? (n : Nat) : Option Char := if n.isValidChar then some (Char.ofNat n) else none

def startsMark (mark : Char) : List Char → Bool
  | a :: b :: c :: rest => a == mark && b == mark && c == mark && endsWord rest
  | _ => false

def startsDocument (text : List Char) : Bool := startsMark '-' text || startsMark '.' text

/-- What is left of a text, and where that begins: how many lines came before, and how many
characters on this line. -/
structure Cursor where
  rest : List Char
  line : Nat
  column : Nat
  deriving DecidableEq, Repr

namespace Cursor

def start (text : List Char) : Cursor := ⟨text, 0, 0⟩

def skip (c : Cursor) (n : Nat) : Cursor := ⟨c.rest.drop n, c.line, c.column + n⟩

def span (c : Cursor) (p : Char → Bool) : List Char × Cursor :=
  let taken := c.rest.takeWhile p
  (taken, c.skip taken.length)

def skipWhile (c : Cursor) (p : Char → Bool) : Cursor := (c.span p).2

def skipBreak (c : Cursor) : Cursor :=
  match c.rest with
  | [] => c
  | b :: rest => if isBreak b then ⟨rest, c.line + 1, 0⟩ else c

def finishLine? (c : Cursor) : Option Cursor :=
  let c := c.skipWhile isBlank
  let c := if startsWith (· == '#') c.rest then c.skipWhile fun x => !isBreak x else c
  if endsLine c.rest then some c.skipBreak else none

def atDocumentMark (c : Cursor) : Bool := c.column == 0 && startsDocument c.rest

end Cursor

inductive Style where
  | plain
  | singleQuoted
  | doubleQuoted
  | literal
  | folded
  deriving DecidableEq, Repr

/-- A tag that is written out in full has no handle. -/
structure TagName where
  handle : String
  suffix : String
  deriving DecidableEq, Repr

/-- A token.  The indentation of block collections shows as start and end tokens. -/
inductive Token where
  | versionDirective (major minor : Nat)
  | tagDirective (handle expansion : String)
  | documentStart
  | documentEnd
  | blockSequenceStart
  | blockMappingStart
  | blockEnd
  | flowSequenceStart
  | flowSequenceEnd
  | flowMappingStart
  | flowMappingEnd
  | blockEntry
  | flowEntry
  | key
  | value
  | alias (name : String)
  | anchor (name : String)
  | tag (name : TagName)
  | scalar (style : Style) (text : String)
  deriving DecidableEq, Repr

def endsAnchor (rest : List Char) : Bool :=
  endsWord rest ||
    startsWith (fun c => c == '?' || c == ':' || c == ',' || c == ']' || c == '}' || c == '%' ||
      c == '@' || c == '\x60') rest

def anchorName? (c : Cursor) : Option (String × Cursor) :=
  let (name, c) := (c.skip 1).span isWord
  if name.isEmpty || !endsAnchor c.rest then none else some (String.ofList name, c)

/-- The characters of a tag.  Inside of angle brackets a tag may have some indicators too. -/
def isTagChar (inBrackets : Bool) (c : Char) : Bool :=
  isWord c || ";/?:@&=+$.!~*'()%".toList.contains c || (inBrackets && ",[]".toList.contains c)

def octets? (lead : Nat) : Option Nat :=
  if lead < 128 then some 1
  else if 192 ≤ lead && lead < 224 then some 2
  else if 224 ≤ lead && lead < 240 then some 3
  else if 240 ≤ lead && lead < 248 then some 4
  else none

def escapedOctets? : Nat → List Char → Option (List Nat)
  | 0, _ => some []
  | n + 1, '%' :: a :: b :: rest => do
    let octet ← hexNumber? [a, b]
    let octets ← escapedOctets? n rest
    return octet :: octets
  | _ + 1, _ => none

def leastCodePoint : Nat → Nat
  | 0 => 0
  | 1 => 128
  | n + 2 => Nat.pow 2 (5 * n + 11)

/-- The character that octets spell; the octets after the first have six bits each.  Octets that
are well-formed but spell no character count as a replacement character. -/
def octetsChar? (octets : List Nat) : Option Char :=
  match octets with
  | [] => none
  | [a] => some (Char.ofNat a)
  | a :: more =>
    if more.all fun b => 128 ≤ b && b < 192 then
      let code := more.foldl (fun n b => 64 * n + b % 64) (a % Nat.pow 2 (6 - more.length))
      if code < leastCodePoint more.length then some '\ufffd'
      else some ((charOf? code).getD '\ufffd')
    else none

def escapedChar? (rest : List Char) : Option (Char × Nat) := do
  let lead ← escapedOctets? 1 rest
  let n ← octets? (lead.headD 0)
  let octets ← escapedOctets? n rest
  let c ← octetsChar? octets
  return (c, n)

/-- Reads the characters of a tag.  Each step uses up a character of the text, so that its length
is fuel enough. -/
def tagChars (inBrackets : Bool) : Nat → Cursor → Option (List Char × Cursor)
  | 0, c => some ([], c)
  | fuel + 1, c =>
    match c.rest with
    | [] => some ([], c)
    | a :: rest =>
      if a == '%' then
        match escapedChar? (a :: rest) with
        | none => none
        | some (x, n) => (tagChars inBrackets fuel (c.skip (3 * n))).map fun r => (x :: r.1, r.2)
      else if isTagChar inBrackets a then
        (tagChars inBrackets fuel (c.skip 1)).map fun r => (a :: r.1, r.2)
      else some ([], c)

def tagText? (inBrackets : Bool) (c : Cursor) : Option (List Char × Cursor) :=
  (tagChars inBrackets c.rest.length c).map fun r => (r.1.takeWhile (· != '\x00'), r.2)

def tagHandle? (c : Cursor) : Option (List Char × Cursor) :=
  if startsWith (· == '!') c.rest then
    let (word, c) := (c.skip 1).span isWord
    if startsWith (· == '!') c.rest then some ('!' :: word ++ ['!'], c.skip 1)
    else some ('!' :: word, c)
  else none

def isHandle (handle : List Char) : Bool := 2 ≤ handle.length && handle.getLast? == some '!'

def tagBody? (c : Cursor) : Option (TagName × Cursor) :=
  if startsWith (· == '<') (c.rest.drop 1) then do
    let (suffix, end_) ← tagText? true (c.skip 2)
    if end_ == c.skip 2 || !startsWith (· == '>') end_.rest then none
    else some (⟨"", String.ofList suffix⟩, end_.skip 1)
  else do
    let (handle, c) ← tagHandle? c
    let (suffix, end_) ← tagText? false c
    if isHandle handle then
      if end_ == c then none
      else some (⟨String.ofList handle, String.ofList suffix⟩, end_)
    else
      let suffix := handle.drop 1 ++ suffix
      if suffix.isEmpty then some (⟨"", "!"⟩, end_)
      else some (⟨"!", String.ofList suffix⟩, end_)

/-- Reads a tag.  A blank must follow it, or, in a flow collection, a comma. -/
def tagName? (inFlow : Bool) (c : Cursor) : Option (TagName × Cursor) := do
  let (name, c) ← tagBody? c
  if endsWord c.rest || (inFlow && startsWith (· == ',') c.rest) then some (name, c) else none

def versionNumber? (c : Cursor) : Option (Nat × Cursor) :=
  let (digits, c) := c.span Char.isDigit
  if digits.isEmpty || 9 < digits.length then none else some (Nat.ofDigitChars 10 digits 0, c)

def version? (c : Cursor) : Option (Token × Cursor) := do
  let (major, c) ← versionNumber? (c.skipWhile isBlank)
  if startsWith (· == '.') c.rest then
    let (minor, c) ← versionNumber? (c.skip 1)
    return (.versionDirective major minor, c)
  else none

def tagDefinition? (c : Cursor) : Option (Token × Cursor) := do
  let (handle, c) ← tagHandle? (c.skipWhile isBlank)
  if (handle == ['!'] || isHandle handle) && startsWith isBlank c.rest then
    let c := c.skipWhile isBlank
    let (expansion, end_) ← tagText? true c
    if end_ == c || !endsWord end_.rest then none
    else some (.tagDirective (String.ofList handle) (String.ofList expansion), end_)
  else none

def directive? (c : Cursor) : Option (Token × Cursor) := do
  let (name, c) := (c.skip 1).span isWord
  if !endsWord c.rest then none
  else
    let (token, c) ←
      if name == "YAML".toList then version? c
      else if name == "TAG".toList then tagDefinition? c
      else none
    let c ← c.finishLine?
    return (token, c)

end RegionFlow.Yaml

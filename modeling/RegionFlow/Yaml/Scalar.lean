import RegionFlow.Yaml.Token
set_option autoImplicit false

/-!
Each way to write a scalar has its own rule for line breaks.  Between the words of a plain or quoted
scalar a single line break counts as a space, and of several the first is left out (`Gap.fold`).  A
block scalar keeps its lines, or folds them, and its header says what becomes of the line breaks at
its end.
-/

namespace RegionFlow.Yaml

inductive Gap where
  | blanks (text : List Char)
  | breaks (first : Option Char) (more : List Char)
  deriving DecidableEq, Repr

namespace Gap

/-- One more blank or line break.  Blanks around line breaks do not count. -/
def add (g : Gap) (c : Char) : Gap :=
  match g with
  | .blanks t => if isBreak c then .breaks (some c) [] else .blanks (t ++ [c])
  | .breaks first more => if isBreak c then .breaks first (more ++ [c]) else .breaks first more

def isBroken : Gap → Bool
  | .blanks _ => false
  | .breaks _ _ => true

def fold : Gap → List Char
  | .blanks t => t
  | .breaks none more => more
  | .breaks (some first) more =>
    if first == '\n' then (if more.isEmpty then [' '] else more) else first :: more

end Gap

def foldGap : Option Gap → List Char
  | none => []
  | some g => g.fold

def isBrokenGap : Option Gap → Bool
  | none => false
  | some g => g.isBroken

def endsPlain (inFlow : Bool) (c : Char) (rest : List Char) : Bool :=
  (c == ':' && endsWord rest) || (inFlow && isFlowIndicator c)

def badColon (inFlow : Bool) (c : Char) (rest : List Char) : Bool :=
  inFlow && c == ':' && startsWith (fun x => x == '?' || isFlowIndicator x) rest

/-- Whether a plain scalar does not go on after a gap: the line is not indented enough, or
something else begins there. -/
def endsAfterGap (inFlow : Bool) (indent : Nat) (c : Cursor) : Bool :=
  (!inFlow && c.column < indent) || c.atDocumentMark || startsWith (· == '#') c.rest

/-- Reads a plain scalar.  Its further lines are indented by at least `indent`.  Gives the text so
far in reverse order, the cursor, and whether the scalar is followed by a line break. -/
def plainFrom (inFlow : Bool) (indent : Nat) :
    List Char → (line column : Nat) → Option Gap → List Char → Option (List Char × Cursor × Bool)
  | [], line, column, gap, text => some (text, ⟨[], line, column⟩, isBrokenGap gap)
  | c :: rest, line, column, gap, text =>
    if isGap c then
      if isBrokenGap gap && column < indent && c == '\t' then none
      else
        let gap := some ((gap.getD (.blanks [])).add c)
        if isBreak c then plainFrom inFlow indent rest (line + 1) 0 gap text
        else plainFrom inFlow indent rest line (column + 1) gap text
    else if gap.isSome && endsAfterGap inFlow indent ⟨c :: rest, line, column⟩ then
      some (text, ⟨c :: rest, line, column⟩, isBrokenGap gap)
    else if badColon inFlow c rest then none
    else if endsPlain inFlow c rest then
      some (text, ⟨c :: rest, line, column⟩, isBrokenGap gap)
    else plainFrom inFlow indent rest line (column + 1) none (c :: ((foldGap gap).reverse ++ text))

def plain? (inFlow : Bool) (indent : Nat) (c : Cursor) : Option (List Char × Cursor × Bool) :=
  (plainFrom inFlow indent c.rest c.line c.column none []).map fun r => (r.1.reverse, r.2)

def escaped? : Char → Option Char
  | '0' => some '\x00'
  | 'a' => some '\x07'
  | 'b' => some '\x08'
  | 't' => some '\t'
  | '\t' => some '\t'
  | 'n' => some '\n'
  | 'v' => some '\x0b'
  | 'f' => some '\x0c'
  | 'r' => some '\r'
  | 'e' => some '\x1b'
  | ' ' => some ' '
  | '"' => some '"'
  | '/' => some '/'
  | '\\' => some '\\'
  | 'N' => some '\x85'
  | '_' => some '\xa0'
  | 'L' => some '\u2028'
  | 'P' => some '\u2029'
  | _ => none

def escapeDigits? : Char → Option Nat
  | 'x' => some 2
  | 'u' => some 4
  | 'U' => some 8
  | _ => none

def escape? : List Char → Option (Char × Nat)
  | [] => none
  | c :: rest =>
    match escaped? c, escapeDigits? c with
    | some x, _ => some (x, 1)
    | none, some n =>
      if rest.length < n then none
      else ((hexNumber? (rest.take n)).bind charOf?).map fun x => (x, n + 1)
    | none, none => none

/-- Reads a quoted scalar up to its closing quote; gives its text and the cursor behind the
quote.  Each step uses up a character of the text, so that its length is fuel enough. -/
def quotedFrom (quote : Char) : Nat → Cursor → Option Gap → List Char → Option (List Char × Cursor)
  | 0, _, _, _ => none
  | fuel + 1, at_, gap, text =>
    match at_.rest with
    | [] => none
    | c :: rest =>
      if isBreak c then
        quotedFrom quote fuel at_.skipBreak (some ((gap.getD (.blanks [])).add c)) text
      else if isBlank c then
        quotedFrom quote fuel (at_.skip 1) (some ((gap.getD (.blanks [])).add c)) text
      else if at_.atDocumentMark then none
      else
        let text := text ++ foldGap gap
        if c == quote then
          if quote == '\'' && rest.head? == some quote then
            quotedFrom quote fuel (at_.skip 2) none (text ++ [quote])
          else some (text, at_.skip 1)
        else if quote == '"' && c == '\\' then
          if startsWith isBreak rest then
            quotedFrom quote fuel (at_.skip 1).skipBreak (some (.breaks none [])) text
          else
            match escape? rest with
            | none => none
            | some (x, n) => quotedFrom quote fuel (at_.skip (n + 1)) none (text ++ [x])
        else quotedFrom quote fuel (at_.skip 1) none (text ++ [c])

def quoted? (quote : Char) (c : Cursor) : Option (List Char × Cursor) :=
  quotedFrom quote c.rest.length (c.skip 1) none []

inductive Chomping where
  | strip
  | clip
  | keep
  deriving DecidableEq, Repr

structure BlockHeader where
  chomping : Chomping
  increment : Option Nat
  deriving DecidableEq, Repr

def chomping? : Char → Option Chomping
  | '-' => some .strip
  | '+' => some .keep
  | _ => none

def blockHeader? (c : Cursor) : Option (BlockHeader × Cursor) :=
  match c.rest with
  | [] => some (⟨.clip, none⟩, c)
  | a :: rest =>
    match chomping? a with
    | some m =>
      match rest.head? with
      | some b =>
        if b == '0' then none
        else if b.isDigit then some (⟨m, hexDigit? b⟩, c.skip 2)
        else some (⟨m, none⟩, c.skip 1)
      | none => some (⟨m, none⟩, c.skip 1)
    | none =>
      if a == '0' then none
      else if a.isDigit then
        match rest.head?.bind chomping? with
        | some m => some (⟨m, hexDigit? a⟩, c.skip 2)
        | none => some (⟨.clip, hexDigit? a⟩, c.skip 1)
      else some (⟨.clip, none⟩, c)

/-- Moves over indentation and empty lines; gives the breaks of these lines, the greatest column
reached, and the cursor.  A tab must not stand in the indentation. -/
def emptyLines (indent : Option Nat) :
    List Char → (line column widest : Nat) → List Char → Option (List Char × Nat × Cursor)
  | [], line, column, widest, breaks => some (breaks, max widest column, ⟨[], line, column⟩)
  | c :: rest, line, column, widest, breaks =>
    let inIndent := match indent with
      | none => true
      | some n => column < n
    if inIndent && c == ' ' then emptyLines indent rest line (column + 1) widest breaks
    else if inIndent && c == '\t' then none
    else if isBreak c then
      emptyLines indent rest (line + 1) 0 (max widest column) (breaks ++ [c])
    else some (breaks, max widest column, ⟨c :: rest, line, column⟩)

structure BlockText where
  text : List Char
  lineEnd : List Char
  empty : List Char
  afterBlank : Bool
  deriving DecidableEq, Repr

namespace BlockText

/-- Adds the text of one more line.  In a folded scalar the break between two lines that do not
begin with a blank counts as a space, or as nothing if empty lines stand between. -/
def addLine (b : BlockText) (folded : Bool) (line lineEnd : List Char) : BlockText :=
  let blank := startsWith isBlank line
  let joint :=
    if folded && b.lineEnd == ['\n'] && !b.afterBlank && !blank then
      (if b.empty.isEmpty then [' '] else b.empty)
    else b.lineEnd ++ b.empty
  ⟨b.text ++ joint ++ line, lineEnd, [], blank⟩

def finish (b : BlockText) : Chomping → List Char
  | .strip => b.text
  | .clip => b.text ++ b.lineEnd
  | .keep => b.text ++ b.lineEnd ++ b.empty

end BlockText

/-- Reads the lines of a block scalar that are indented by `indent`.  Each line uses up a
character, so that the length of the text is fuel enough. -/
def blockLines (folded : Bool) (indent : Nat) :
    Nat → Cursor → BlockText → Option (BlockText × Cursor)
  | 0, c, b => some (b, c)
  | fuel + 1, c, b =>
    if c.column == indent && !c.rest.isEmpty then
      let (line, c) := c.span fun x => !isBreak x
      let b := b.addLine folded line (c.rest.take 1)
      let c := c.skipBreak
      match emptyLines (some indent) c.rest c.line c.column 0 [] with
      | none => none
      | some (breaks, _, c) => blockLines folded indent fuel c { b with empty := breaks }
    else some (b, c)

/-- Reads a block scalar that begins behind the cursor's indicator.  `floor` is the least column
that it may be indented to where its header gives no indentation, `base` the column that a given
indentation counts from. -/
def block? (folded : Bool) (floor base : Nat) (c : Cursor) : Option (List Char × Cursor) := do
  let (header, c) ← blockHeader? (c.skip 1)
  let c ← c.finishLine?
  let given := header.increment.map fun n => base + n
  let (breaks, widest, c) ← emptyLines given c.rest c.line c.column 0 []
  let indent := given.getD (max widest (max floor 1))
  let (b, c) ← blockLines folded indent (c.rest.length + 1) c ⟨[], [], breaks, false⟩
  return (b.finish header.chomping, c)

end RegionFlow.Yaml

import RegionFlow.Json.Value
set_option autoImplicit false

namespace RegionFlow.Json

def skipSpace (text : List Char) : List Char := text.dropWhile isSpace

inductive Piece where
  | char (c : Char)
  | half (unit : Nat)
  deriving DecidableEq, Repr

def isHighHalf (unit : Nat) : Bool := 0xd800 ≤ unit && unit < 0xdc00

def isLowHalf (unit : Nat) : Bool := 0xdc00 ≤ unit && unit < 0xe000

/-- The characters that pieces spell.  A high half must be followed by a low one, and a low half
must follow a high one. -/
def joinPieces : List Piece → Option (List Char)
  | [] => some []
  | .char c :: rest => (joinPieces rest).map (c :: ·)
  | .half a :: .half b :: rest =>
    if isHighHalf a && isLowHalf b then
      (joinPieces rest).map (Char.ofNat (0x10000 + (a - 0xd800) * 0x400 + (b - 0xdc00)) :: ·)
    else none
  | .half _ :: _ => none

def hexValue? (c : Char) : Option Nat :=
  if '0' ≤ c ∧ c ≤ '9' then some (c.toNat - 48)
  else if 'a' ≤ c ∧ c ≤ 'f' then some (c.toNat - 87)
  else if 'A' ≤ c ∧ c ≤ 'F' then some (c.toNat - 55)
  else none

def codePiece? (a b c d : Char) : Option Piece := do
  let a ← hexValue? a
  let b ← hexValue? b
  let c ← hexValue? c
  let d ← hexValue? d
  let unit := 4096 * a + 256 * b + 16 * c + d
  return if isHighHalf unit || isLowHalf unit then .half unit else .char (Char.ofNat unit)

def escapedChar? : Char → Option Char
  | '"' => some '"'
  | '\\' => some '\\'
  | '/' => some '/'
  | 'b' => some '\x08'
  | 'f' => some '\x0c'
  | 'n' => some '\n'
  | 'r' => some '\r'
  | 't' => some '\t'
  | _ => none

/-- Reads the pieces of a string up to its closing quote. -/
def pieces? : List Char → Option (List Piece × List Char)
  | [] => none
  | c :: rest =>
    if c = '"' then some ([], rest)
    else if c = '\\' then
      match rest with
      | [] => none
      | 'u' :: a :: b :: c :: d :: rest =>
        match codePiece? a b c d with
        | none => none
        | some p => (pieces? rest).map fun r => (p :: r.1, r.2)
      | e :: rest =>
        match escapedChar? e with
        | none => none
        | some x => (pieces? rest).map fun r => (.char x :: r.1, r.2)
    else if c.toNat < 32 then none
    else (pieces? rest).map fun r => (.char c :: r.1, r.2)

def string? (text : List Char) : Option (JsonText × List Char) :=
  (pieces? text).map fun r => ((joinPieces r.1).map String.ofList, r.2)

def digits (text : List Char) : List Char × List Char :=
  (text.takeWhile Char.isDigit, text.dropWhile Char.isDigit)

def fraction? : List Char → Option (List Char × List Char)
  | '.' :: text =>
    match digits text with
    | ([], _) => none
    | (ds, rest) => some ('.' :: ds, rest)
  | text => some ([], text)

def sign : List Char → List Char × List Char
  | '+' :: text => (['+'], text)
  | '-' :: text => (['-'], text)
  | text => ([], text)

def exponent? : List Char → Option (List Char × List Char)
  | [] => some ([], [])
  | e :: text =>
    if e = 'e' ∨ e = 'E' then
      match sign text with
      | (s, text) =>
        match digits text with
        | ([], _) => none
        | (ds, rest) => some (e :: (s ++ ds), rest)
    else some ([], e :: text)

/-- A negative zero is no integer. -/
def wholeNumber (negative : Bool) (ds : List Char) : Json :=
  let n := Nat.ofDigitChars 10 ds 0
  if negative then
    if n = 0 then .decimal "-0" else .integer (-(n : Int))
  else .integer n

def unsignedNumber? (negative : Bool) (text : List Char) : Option (Json × List Char) :=
  match digits text with
  | ([], _) => none
  | (d :: ds, rest) =>
    if d = '0' ∧ ds ≠ [] then none
    else
      match fraction? rest with
      | none => none
      | some (frac, rest) =>
        match exponent? rest with
        | none => none
        | some (exp, rest) =>
          if frac = [] ∧ exp = [] then some (wholeNumber negative (d :: ds), rest)
          else
            let sign := if negative then ['-'] else []
            some (.decimal (String.ofList (sign ++ d :: ds ++ frac ++ exp)), rest)

def number? : List Char → Option (Json × List Char)
  | '-' :: text => unsignedNumber? true text
  | text => unsignedNumber? false text

def key? (text : List Char) : Option (JsonText × List Char) :=
  match skipSpace text with
  | '"' :: text =>
    match string? text with
    | none => none
    | some (k, text) =>
      match skipSpace text with
      | ':' :: rest => some (k, rest)
      | _ => none
  | _ => none

mutual

/-- Fuel bounds the depth of the recursion. -/
def value? : Nat → List Char → Option (Json × List Char)
  | 0, _ => none
  | fuel + 1, text =>
    match skipSpace text with
    | 'n' :: 'u' :: 'l' :: 'l' :: rest => some (.null, rest)
    | 't' :: 'r' :: 'u' :: 'e' :: rest => some (.bool true, rest)
    | 'f' :: 'a' :: 'l' :: 's' :: 'e' :: rest => some (.bool false, rest)
    | '"' :: rest => (string? rest).map fun r => (.string r.1, r.2)
    | '[' :: rest =>
      match skipSpace rest with
      | ']' :: rest => some (.array [], rest)
      | rest => (someItems? fuel rest).map fun r => (.array r.1, r.2)
    | '{' :: rest =>
      match skipSpace rest with
      | '}' :: rest => some (.object [], rest)
      | rest => (someFields? fuel rest).map fun r => (.object r.1, r.2)
    | text => number? text

def someItems? : Nat → List Char → Option (List Json × List Char)
  | 0, _ => none
  | fuel + 1, text =>
    match value? fuel text with
    | none => none
    | some (j, text) => (moreItems? fuel text).map fun r => (j :: r.1, r.2)

def moreItems? : Nat → List Char → Option (List Json × List Char)
  | 0, _ => none
  | fuel + 1, text =>
    match skipSpace text with
    | ']' :: rest => some ([], rest)
    | ',' :: rest => someItems? fuel rest
    | _ => none

def someFields? : Nat → List Char → Option (List (JsonText × Json) × List Char)
  | 0, _ => none
  | fuel + 1, text =>
    match key? text with
    | none => none
    | some (k, text) =>
      match value? fuel text with
      | none => none
      | some (j, text) => (moreFields? fuel text).map fun r => ((k, j) :: r.1, r.2)

def moreFields? : Nat → List Char → Option (List (JsonText × Json) × List Char)
  | 0, _ => none
  | fuel + 1, text =>
    match skipSpace text with
    | '}' :: rest => some ([], rest)
    | ',' :: rest => someFields? fuel rest
    | _ => none

end

/-- Reads a text that holds one value and nothing else but white space. -/
def read? (text : String) : Option Json :=
  match value? (3 * text.length + 3) text.toList with
  | some (j, rest) => if rest.all isSpace then some j else none
  | none => none

/-- The nearest number whose binary digits after the first 53 are zeros; of two that are as near,
the one with an even 53rd digit. -/
def roundToDouble (n : Nat) : Nat :=
  if n < Nat.pow 2 53 then n
  else
    let unit := Nat.pow 2 (n.log2 - 52)
    let q := n / unit
    let r := n % unit
    if 2 * r < unit || (2 * r == unit && q % 2 == 0) then q * unit else (q + 1) * unit

def maxExponent : Nat := 308

/-- Whether `n * 10 ^ e` is in the range, `n` and the power being rounded before they are
multiplied.  For `n` of 64 bits only a positive power can lead out of the range. -/
def isInRange (n : Nat) (e : Int) : Bool :=
  if n = 0 || e < 0 then true
  else if maxExponent < e then false
  else roundToDouble (roundToDouble n * roundToDouble (Nat.pow 10 e.toNat)) < Nat.pow 2 1024

/-- Appends digits to a number for as long as it fits into 64 bits; also gives the digits that are
left over. -/
def appendDigits (n : Nat) : List Char → Nat × List Char
  | [] => (n, [])
  | d :: ds =>
    let m := 10 * n + (d.toNat - '0'.toNat)
    if m < UInt64.size then appendDigits m ds else (n, d :: ds)

/-- Whether the number with these digits before and behind the point, times `10 ^ e`, is in the
range.  The digits behind the point may still follow when some before it have been left over. -/
def digitsInRange (whole places : List Char) (e : Int) : Bool :=
  let (n, left) := appendDigits 0 whole
  let (n, leftPlaces) := appendDigits n places
  isInRange n (e + left.length + leftPlaces.length - places.length)

def exponentValue : List Char → Int
  | _ :: '-' :: ds => -(Nat.ofDigitChars 10 ds 0 : Nat)
  | _ :: '+' :: ds => Nat.ofDigitChars 10 ds 0
  | _ :: ds => Nat.ofDigitChars 10 ds 0
  | [] => 0

def integerInRange (n : Int) : Bool := digitsInRange (Nat.toDigits 10 n.natAbs) [] 0

def spellingInRange (spelling : List Char) : Bool :=
  let unsigned := if spelling.head? = some '-' then spelling.drop 1 else spelling
  let (whole, rest) := digits unsigned
  let isLetter := fun c => c == 'e' || c == 'E'
  let places := (rest.takeWhile fun c => !isLetter c).drop 1
  digitsInRange whole places (exponentValue (rest.dropWhile fun c => !isLetter c))

def maxDepth : Nat := 127

mutual

def isPlain : Json → Bool
  | .null => true
  | .bool _ => true
  | .integer n => integerInRange n
  | .decimal spelling => spellingInRange spelling.toList
  | .string t => t.isSome
  | .array items => allPlain items
  | .object fields => fieldsPlain fields

def allPlain : List Json → Bool
  | [] => true
  | j :: rest => j.isPlain && allPlain rest

def fieldsPlain : List (JsonText × Json) → Bool
  | [] => true
  | (k, j) :: rest => k.isSome && j.isPlain && fieldsPlain rest

end

mutual

def lastOfKeys : Json → Json
  | .array items => .array (lastInItems items)
  | .object fields => .object (lastInFields fields)
  | .null => .null
  | .bool b => .bool b
  | .integer n => .integer n
  | .decimal spelling => .decimal spelling
  | .string t => .string t

def lastInItems : List Json → List Json
  | [] => []
  | j :: rest => j.lastOfKeys :: lastInItems rest

def lastInFields : List (JsonText × Json) → List (JsonText × Json)
  | [] => []
  | (k, j) :: rest =>
    let rest := lastInFields rest
    if rest.any fun f => f.1 == k then rest else (k, j.lastOfKeys) :: rest

end

/-- A message does not nest too deep, its strings are texts, and its numbers are in the range of
binary floating point.  Where an object has a key more than once, the last value counts. -/
def message? (text : String) : Option Json := do
  let j ← read? text
  if j.depth ≤ maxDepth && j.isPlain then some j.lastOfKeys else none

def get? (j : Json) (name : String) : Option Json := do
  let fields ← j.fields?
  let f ← fields.find? fun f => f.1 == some name
  return f.2

end RegionFlow.Json

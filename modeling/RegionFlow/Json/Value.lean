set_option autoImplicit false

/-!
JSON values and their texts.  A number is kept as an integer if it is written as one; any other
number is kept as it is written.  The compact and the indented text of a value differ in white space
only.
-/

namespace RegionFlow

/-- The text of a JSON string.  A string that spells half of a surrogate pair has none. -/
abbrev JsonText : Type := Option String

inductive Json where
  | null
  | bool (value : Bool)
  | integer (value : Int)
  -- A number with a fraction or an exponent, or a negative zero.
  | decimal (spelling : String)
  | string (text : JsonText)
  | array (items : List Json)
  | object (fields : List (JsonText × Json))

namespace Json

def ofString (s : String) : Json := .string (some s)

def ofNat (n : Nat) : Json := .integer n

def record (fields : List (String × Json)) : Json := .object (fields.map fun f => (some f.1, f.2))

def ofOption {α : Type} (toJson : α → Json) : Option α → Json
  | none => .null
  | some a => toJson a

mutual

/-- How many arrays and objects stand inside one another. -/
def depth : Json → Nat
  | .array items => 1 + itemsDepth items
  | .object fields => 1 + fieldsDepth fields
  | .null => 0
  | .bool _ => 0
  | .integer _ => 0
  | .decimal _ => 0
  | .string _ => 0

def itemsDepth : List Json → Nat
  | [] => 0
  | j :: rest => max j.depth (itemsDepth rest)

def fieldsDepth : List (JsonText × Json) → Nat
  | [] => 0
  | (_, j) :: rest => max j.depth (fieldsDepth rest)

end

def text? : Json → Option String
  | .string t => t
  | _ => none

def bool? : Json → Option Bool
  | .bool b => some b
  | _ => none

def items? : Json → Option (List Json)
  | .array items => some items
  | _ => none

def fields? : Json → Option (List (JsonText × Json))
  | .object fields => some fields
  | _ => none

def natBelow? (bound : Nat) : Json → Option Nat
  | .integer (.ofNat n) => if n < bound then some n else none
  | _ => none

/-- An integer between two bounds, the upper one excluded. -/
def intWithin? (low high : Int) : Json → Option Int
  | .integer n => if low ≤ n ∧ n < high then some n else none
  | _ => none

def hexDigit (n : Nat) : Char := Nat.digitChar n

/-- Only quotes, backslashes and control characters are escaped. -/
def escapeChar (c : Char) : List Char :=
  if c = '"' then ['\\', '"']
  else if c = '\\' then ['\\', '\\']
  else if c = '\x08' then ['\\', 'b']
  else if c = '\x0c' then ['\\', 'f']
  else if c = '\n' then ['\\', 'n']
  else if c = '\r' then ['\\', 'r']
  else if c = '\t' then ['\\', 't']
  else if c.toNat < 32 then ['\\', 'u', '0', '0', hexDigit (c.toNat / 16), hexDigit (c.toNat % 16)]
  else [c]

def escapeChars : List Char → List Char
  | [] => []
  | c :: rest => escapeChar c ++ escapeChars rest

/-- A string in quotes.  A string without a text is written as a lone half of a surrogate pair. -/
def quoted : JsonText → List Char
  | some s => '"' :: (escapeChars s.toList ++ ['"'])
  | none => "\"\\ud800\"".toList

def integerChars : Int → List Char
  | .ofNat n => Nat.toDigits 10 n
  | .negSucc n => '-' :: Nat.toDigits 10 (n + 1)

def boolChars : Bool → List Char
  | true => ['t', 'r', 'u', 'e']
  | false => ['f', 'a', 'l', 's', 'e']

def isSpace (c : Char) : Bool := c == ' ' || c == '\n' || c == '\t' || c == '\r'

/-- White space for a text: what stands before an item or a closing bracket at a depth, and what
stands before the value of a field. -/
structure Layout where
  line : Nat → List Char
  gap : List Char
  line_isSpace : ∀ depth, ∀ c ∈ line depth, isSpace c = true
  gap_isSpace : ∀ c ∈ gap, isSpace c = true

namespace Layout

def tight : Layout := ⟨fun _ => [], [], by simp, by simp⟩

/-- Each item and each field stands on a line of its own, two spaces further in than what holds
it. -/
def indented : Layout where
  line := fun depth => '\n' :: List.replicate (2 * depth) ' '
  gap := [' ']
  line_isSpace := by
    intro depth c hc
    rcases List.mem_cons.mp hc with rfl | hc
    · rfl
    · rw [List.eq_of_mem_replicate hc]; rfl
  gap_isSpace := by simp [isSpace]

end Layout

mutual

/-- The text of a value that stands at a nesting depth. -/
def layOut (l : Layout) (depth : Nat) : Json → List Char
  | .null => ['n', 'u', 'l', 'l']
  | .bool b => boolChars b
  | .integer n => integerChars n
  | .decimal spelling => spelling.toList
  | .string t => quoted t
  | .array [] => ['[', ']']
  | .array (j :: rest) =>
      '[' :: (l.line (depth + 1) ++ (j.layOut l (depth + 1) ++ layOutItems l depth rest))
  | .object [] => ['{', '}']
  | .object ((k, j) :: rest) =>
      '{' :: (l.line (depth + 1) ++ (quoted k ++ ':' :: (l.gap ++
        (j.layOut l (depth + 1) ++ layOutFields l depth rest))))

/-- The items after the first one, and the closing bracket. -/
def layOutItems (l : Layout) (depth : Nat) : List Json → List Char
  | [] => l.line depth ++ [']']
  | j :: rest =>
      ',' :: (l.line (depth + 1) ++ (j.layOut l (depth + 1) ++ layOutItems l depth rest))

/-- The fields after the first one, and the closing brace. -/
def layOutFields (l : Layout) (depth : Nat) : List (JsonText × Json) → List Char
  | [] => l.line depth ++ ['}']
  | (k, j) :: rest =>
      ',' :: (l.line (depth + 1) ++ (quoted k ++ ':' :: (l.gap ++
        (j.layOut l (depth + 1) ++ layOutFields l depth rest))))

end

def compact (j : Json) : String := String.ofList (j.layOut .tight 0)

def pretty (j : Json) : String := String.ofList (j.layOut .indented 0)

end Json

end RegionFlow

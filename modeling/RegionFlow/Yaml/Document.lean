import RegionFlow.Yaml.Scan
set_option autoImplicit false

/-!
Each kind of collection has its own rule for the tokens between its parts; a part that is left out
is an empty scalar.  What a scalar means depends on what is asked for: a number and a truth value
must be written plainly, but any scalar is a text.
-/

namespace RegionFlow.Yaml

mutual

inductive Node where
  | alias (anchor : Nat)
  | scalar (anchor : Option Nat) (tag : Option String) (style : Style) (text : String)
  | sequence (anchor : Option Nat) (items : List Node)
  | mapping (anchor : Option Nat) (entries : List Entry)

inductive Entry where
  | mk (key value : Node)

end

namespace Node

def empty : Node := .scalar none none .plain ""

mutual

/-- Where an anchor is given more than once, the last node that carries it counts. -/
def lastAnchored (anchor : Nat) (found : Option Node) : Node → Option Node
  | .alias _ => found
  | .scalar a tag style text => if a == some anchor then some (.scalar a tag style text) else found
  | .sequence a items =>
      lastAmongItems anchor (if a == some anchor then some (.sequence a items) else found) items
  | .mapping a entries =>
      lastAmongEntries anchor (if a == some anchor then some (.mapping a entries) else found)
        entries

def lastAmongItems (anchor : Nat) (found : Option Node) : List Node → Option Node
  | [] => found
  | n :: rest => lastAmongItems anchor (lastAnchored anchor found n) rest

def lastAmongEntries (anchor : Nat) (found : Option Node) : List Entry → Option Node
  | [] => found
  | .mk k v :: rest =>
      lastAmongEntries anchor (lastAnchored anchor (lastAnchored anchor found k) v) rest

end

def follow (root : Node) : Node → Node
  | .alias anchor => (lastAnchored anchor none root).getD empty
  | n => n

end Node

/-- What is left of the tokens, and the names of the anchors met with their numbers, the latest
first. -/
structure Reading where
  tokens : List Token
  anchors : List (String × Nat)

namespace Reading

def names (r : Reading) : Nat := (r.anchors.map Prod.fst).eraseDups.length

def number (r : Reading) : Option String → Option Nat × Reading
  | none => (none, r)
  | some name => (some r.names, { r with anchors := (name, r.names) :: r.anchors })

def next (r : Reading) : Reading := { r with tokens := r.tokens.drop 1 }

end Reading

structure Properties where
  anchor : Option String
  tag : Option TagName

def properties : List Token → Properties × List Token
  | .anchor a :: .tag t :: rest => (⟨some a, some t⟩, rest)
  | .tag t :: .anchor a :: rest => (⟨some a, some t⟩, rest)
  | .anchor a :: rest => (⟨some a, none⟩, rest)
  | .tag t :: rest => (⟨none, some t⟩, rest)
  | rest => (⟨none, none⟩, rest)

def fullTag? (handles : List (String × String)) : Option TagName → Option (Option String)
  | none => some none
  | some t =>
    if t.handle.isEmpty then some (some t.suffix)
    else (handles.lookup t.handle).map fun beginning => some (beginning ++ t.suffix)

def endsBlockPart : List Token → Bool
  | .key :: _ => true
  | .value :: _ => true
  | .blockEnd :: _ => true
  | _ => false

def endsBlockEntry : List Token → Bool
  | .blockEntry :: _ => true
  | .blockEnd :: _ => true
  | _ => false

def endsBareEntry (tokens : List Token) : Bool :=
  endsBlockPart tokens || endsBlockEntry tokens

def endsFlowPart (close : Token) : List Token → Bool
  | .value :: _ => true
  | .flowEntry :: _ => true
  | t :: _ => t == close
  | [] => false

/-- Whether block collections may stand here, and whether a block sequence may without indentation
of its own. -/
structure Slot where
  block : Bool
  bareSequence : Bool

def Slot.inFlow : Slot := ⟨false, false⟩
def Slot.inBlock : Slot := ⟨true, false⟩
def Slot.inMapping : Slot := ⟨true, true⟩

def bare? (anchor : Option Nat) (tag : Option String) (r : Reading) : Option (Node × Reading) :=
  if anchor.isSome || tag.isSome then some (.scalar anchor tag .plain "", r) else none

def separated? (first : Bool) : List Token → Option (List Token)
  | .flowEntry :: rest => if first then some (.flowEntry :: rest) else some rest
  | tokens => if first then some tokens else none

section

variable (handles : List (String × String))

mutual

/-- Reads a node.  Fuel bounds the depth of the recursion. -/
def node? : Nat → Slot → Reading → Option (Node × Reading)
  | 0, _, _ => none
  | fuel + 1, slot, r =>
    match r.tokens with
    | .alias name :: _ => (r.anchors.lookup name).map fun n => (.alias n, r.next)
    | tokens =>
      match properties tokens with
      | (p, rest) =>
        match fullTag? handles p.tag with
        | none => none
        | some tag =>
          match Reading.number ⟨rest, r.anchors⟩ p.anchor with
          | (anchor, r) => content? fuel slot anchor tag r

def content? : Nat → Slot → Option Nat → Option String → Reading → Option (Node × Reading)
  | 0, _, _, _, _ => none
  | fuel + 1, slot, anchor, tag, r =>
    match r.tokens with
    | .scalar style text :: _ => some (.scalar anchor tag style text, r.next)
    | .flowSequenceStart :: _ =>
        (flowItems? fuel true r.next).map fun p => (.sequence anchor p.1, p.2)
    | .flowMappingStart :: _ =>
        (flowEntries? fuel true r.next).map fun p => (.mapping anchor p.1, p.2)
    | .blockEntry :: _ =>
        if slot.bareSequence then
          (bareItems? fuel r).map fun p => (.sequence anchor p.1, p.2)
        else bare? anchor tag r
    | .blockSequenceStart :: _ =>
        if slot.block then
          (blockItems? fuel r.next).map fun p => (.sequence anchor p.1, p.2)
        else bare? anchor tag r
    | .blockMappingStart :: _ =>
        if slot.block then
          (blockEntries? fuel r.next).map fun p => (.mapping anchor p.1, p.2)
        else bare? anchor tag r
    | _ => bare? anchor tag r

def part? : Nat → Slot → Bool → Reading → Option (Node × Reading)
  | 0, _, _, _ => none
  | fuel + 1, slot, leftOut, r => if leftOut then some (.empty, r) else node? fuel slot r

def value? : Nat → Slot → (List Token → Bool) → Reading → Option (Node × Reading)
  | 0, _, _, _ => none
  | fuel + 1, slot, ends, r =>
    match r.tokens with
    | .value :: rest => part? fuel slot (ends rest) r.next
    | _ => some (.empty, r)

def blockItems? : Nat → Reading → Option (List Node × Reading)
  | 0, _ => none
  | fuel + 1, r =>
    match r.tokens with
    | .blockEntry :: rest =>
      match part? fuel .inBlock (endsBlockEntry rest) r.next with
      | none => none
      | some (n, r) => (blockItems? fuel r).map fun p => (n :: p.1, p.2)
    | .blockEnd :: _ => some ([], r.next)
    | _ => none

def bareItems? : Nat → Reading → Option (List Node × Reading)
  | 0, _ => none
  | fuel + 1, r =>
    match r.tokens with
    | .blockEntry :: rest =>
      match part? fuel .inBlock (endsBareEntry rest) r.next with
      | none => none
      | some (n, r) => (bareItems? fuel r).map fun p => (n :: p.1, p.2)
    | _ => some ([], r)

def blockEntries? : Nat → Reading → Option (List Entry × Reading)
  | 0, _ => none
  | fuel + 1, r =>
    match r.tokens with
    | .key :: rest =>
      match part? fuel .inMapping (endsBlockPart rest) r.next with
      | none => none
      | some (k, r) =>
        match value? fuel .inMapping endsBlockPart r with
        | none => none
        | some (v, r) => (blockEntries? fuel r).map fun p => (.mk k v :: p.1, p.2)
    | .blockEnd :: _ => some ([], r.next)
    | _ => none

/-- Reads the items of a flow sequence and its closing bracket.  A key makes an item a mapping of
its own. -/
def flowItems? : Nat → Bool → Reading → Option (List Node × Reading)
  | 0, _, _ => none
  | fuel + 1, first, r =>
    match r.tokens with
    | .flowSequenceEnd :: _ => some ([], r.next)
    | tokens =>
      match separated? first tokens with
      | none => none
      | some (.flowSequenceEnd :: rest) => some ([], { r with tokens := rest })
      | some (.key :: rest) =>
        match part? fuel .inFlow (endsFlowPart .flowSequenceEnd rest) { r with tokens := rest } with
        | none => none
        | some (k, r) =>
          match value? fuel .inFlow (endsFlowPart .flowSequenceEnd) r with
          | none => none
          | some (v, r) =>
            (flowItems? fuel false r).map fun p => (.mapping none [.mk k v] :: p.1, p.2)
      | some rest =>
        match node? fuel .inFlow { r with tokens := rest } with
        | none => none
        | some (n, r) => (flowItems? fuel false r).map fun p => (n :: p.1, p.2)

/-- Reads the entries of a flow mapping and its closing brace.  Without a mark of a key an entry
is a key alone. -/
def flowEntries? : Nat → Bool → Reading → Option (List Entry × Reading)
  | 0, _, _ => none
  | fuel + 1, first, r =>
    match r.tokens with
    | .flowMappingEnd :: _ => some ([], r.next)
    | tokens =>
      match separated? first tokens with
      | none => none
      | some (.flowMappingEnd :: rest) => some ([], { r with tokens := rest })
      | some (.key :: rest) =>
        match part? fuel .inFlow (endsFlowPart .flowMappingEnd rest) { r with tokens := rest } with
        | none => none
        | some (k, r) =>
          match value? fuel .inFlow (endsFlowPart .flowMappingEnd) r with
          | none => none
          | some (v, r) => (flowEntries? fuel false r).map fun p => (.mk k v :: p.1, p.2)
      | some rest =>
        match node? fuel .inFlow { r with tokens := rest } with
        | none => none
        | some (k, r) => (flowEntries? fuel false r).map fun p => (.mk k .empty :: p.1, p.2)

end

end

structure Directives where
  hasVersion : Bool
  handles : List (String × String)

/-- Reads directives: at most one version, which is 1.1 or 1.2, and handles, each defined once. -/
def directives? (d : Directives) : List Token → Option (Directives × List Token)
  | .versionDirective major minor :: rest =>
    if !d.hasVersion && major == 1 && (minor == 1 || minor == 2) then
      directives? { d with hasVersion := true } rest
    else none
  | .tagDirective handle expansion :: rest =>
    if (d.handles.lookup handle).isSome then none
    else directives? { d with handles := (handle, expansion) :: d.handles } rest
  | rest => some (d, rest)

def standardHandles : List (String × String) := [("!", "!"), ("!!", "tag:yaml.org,2002:")]

def endsDocument : List Token → Bool
  | [] => true
  | .versionDirective _ _ :: _ => true
  | .tagDirective _ _ :: _ => true
  | .documentStart :: _ => true
  | .documentEnd :: _ => true
  | _ => false

def root? (handles : List (String × String)) (tokens : List Token) : Option (Node × List Token) :=
  (node? handles (5 * tokens.length + 5) .inBlock ⟨tokens, []⟩).map fun p => (p.1, p.2.tokens)

def marksDocument : Token → Bool
  | .versionDirective _ _ => true
  | .tagDirective _ _ => true
  | .documentStart => true
  | _ => false

def documentRoot? : List Token → Option (Node × List Token)
  | [] => none
  | t :: rest =>
    if marksDocument t then
      match directives? ⟨false, []⟩ (t :: rest) with
      | some (d, .documentStart :: rest) =>
        if endsDocument rest then some (.empty, rest)
        else root? (d.handles ++ standardHandles) rest
      | _ => none
    else root? standardHandles (t :: rest)

def document? (text : String) : Option Node := do
  let tokens ← tokens? text
  let (root, rest) ← documentRoot? tokens
  if rest.all (· == .documentEnd) then some root else none

def digitsValue? (base : Nat) (digits : List Char) : Option Nat :=
  if digits.isEmpty then none
  else
    digits.foldl (fun n c => n.bind fun n =>
      (hexDigit? c).bind fun d => if d < base then some (base * n + d) else none) (some 0)

/-- The value of an unsigned number: decimal without needless zeros, or in base 16, 8 or 2 behind
a mark; a plus sign may come first. -/
def unsignedText? (text : List Char) : Option Nat :=
  let text := if startsWith (· == '+') text then text.drop 1 else text
  match text with
  | '0' :: 'x' :: digits => digitsValue? 16 digits
  | '0' :: 'o' :: digits => digitsValue? 8 digits
  | '0' :: 'b' :: digits => digitsValue? 2 digits
  | '0' :: _ :: _ => none
  | digits => digitsValue? 10 digits

def boolText? (text : String) : Option Bool :=
  if ["true", "True", "TRUE"].contains text then some true
  else if ["false", "False", "FALSE"].contains text then some false
  else none

def isNullText (text : String) : Bool := ["null", "Null", "NULL", "~"].contains text

def intTag : String := "tag:yaml.org,2002:int"
def boolTag : String := "tag:yaml.org,2002:bool"
def nullTag : String := "tag:yaml.org,2002:null"

namespace Node

section

variable (root : Node)

def text? (n : Node) : Option String :=
  match follow root n with
  | .scalar _ _ _ text => some text
  | _ => none

def plainText? (tag : String) (n : Node) : Option String :=
  match follow root n with
  | .scalar _ _ .plain text => some text
  | .scalar _ t .literal text => if t == some tag then some text else none
  | _ => none

def unsigned? (bound : Nat) (n : Node) : Option Nat := do
  let text ← plainText? root intTag n
  let value ← unsignedText? text.toList
  if value < bound then some value else none

def bool? (n : Node) : Option Bool := (plainText? root boolTag n).bind boolText?

/-- An optional value: `some none` where it is absent. -/
def optional? {α : Type} (read? : Node → Option α) (n : Node) : Option (Option α) :=
  match follow root n with
  | .scalar anchor tag .plain text =>
    let node := Node.scalar anchor tag .plain text
    if tag == some nullTag then if isNullText text then some none else none
    else if tag.isSome then (read? node).map some
    else if text.isEmpty || isNullText text then some none
    else (read? node).map some
  | node => (read? node).map some

def fieldsOf? : List Entry → Option (List (String × Node))
  | [] => some []
  | .mk k v :: rest => do
    let key ← text? root k
    let fields ← fieldsOf? rest
    return (key, v) :: fields

/-- The fields of a record: each key is one of the given ones and comes once.  Where nothing is
written, the record has no fields. -/
def fields? (names : List String) (n : Node) : Option (List (String × Node)) :=
  match follow root n with
  | .mapping _ entries => do
    let fields ← fieldsOf? root entries
    let keys := fields.map Prod.fst
    if keys.all names.contains && decide keys.Nodup then some fields else none
  | .scalar _ _ .plain "" => some []
  | _ => none

def optionalField? {α : Type} (read? : Node → Option α) (fields : List (String × Node))
    (name : String) : Option (Option α) :=
  match fields.lookup name with
  | none => some none
  | some n => optional? root read? n

def field? {α : Type} (read? : Node → Option α) (fields : List (String × Node)) (name : String) :
    Option α :=
  (fields.lookup name).bind read?

end

end Node

end RegionFlow.Yaml

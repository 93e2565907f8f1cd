set_option autoImplicit false

namespace RegionFlow

inductive Literal where
  | unsigned (value : UInt64)
  | signed (value : Int64)
  | bool (value : Bool)
  deriving DecidableEq, Repr

structure Variable where
  name : String
  deriving DecidableEq, Repr

inductive ArithmeticKind where
  | add
  | sub
  | mul
  | div
  | rem
  deriving DecidableEq, Repr

inductive Predicate where
  | eq
  | ne
  | lt
  | le
  | gt
  | ge
  deriving DecidableEq, Repr

inductive Expression where
  | constant (value : Literal)
  | read (source : Variable)
  | arithmetic (kind : ArithmeticKind) (lhs rhs : Expression)
  | relational (predicate : Predicate) (lhs rhs : Expression)
  deriving DecidableEq, Repr

/-- An unsigned literal is marked by a trailing `u`. -/
def Literal.text : Literal → String
  | .unsigned n => Nat.repr n.toNat ++ "u"
  | .signed n => Int.repr n.toInt
  | .bool true => "true"
  | .bool false => "false"

def ArithmeticKind.symbol : ArithmeticKind → String
  | .add => "+"
  | .sub => "-"
  | .mul => "*"
  | .div => "/"
  | .rem => "%"

def ArithmeticKind.ofSymbol? : String → Option ArithmeticKind
  | "+" => some .add
  | "-" => some .sub
  | "*" => some .mul
  | "/" => some .div
  | "%" => some .rem
  | _ => none

theorem ArithmeticKind.ofSymbol?_symbol (k : ArithmeticKind) : ofSymbol? k.symbol = some k := by
  cases k <;> rfl

def Predicate.symbol : Predicate → String
  | .eq => "=="
  | .ne => "!="
  | .lt => "<"
  | .le => "<="
  | .gt => ">"
  | .ge => ">="

def Predicate.ofSymbol? : String → Option Predicate
  | "==" => some .eq
  | "!=" => some .ne
  | "<" => some .lt
  | "<=" => some .le
  | ">" => some .gt
  | ">=" => some .ge
  | _ => none

theorem Predicate.ofSymbol?_symbol (p : Predicate) : ofSymbol? p.symbol = some p := by
  cases p <;> rfl

def Predicate.negate : Predicate → Predicate
  | .eq => .ne
  | .ne => .eq
  | .lt => .ge
  | .le => .gt
  | .gt => .le
  | .ge => .lt

theorem Predicate.negate_negate (p : Predicate) : p.negate.negate = p := by
  cases p <;> rfl

namespace Expression

/-- Arithmetic is always put in parentheses, a comparison never. -/
def text : Expression → String
  | .constant v => v.text
  | .read x => x.name
  | .arithmetic k l r => "(" ++ l.text ++ " " ++ k.symbol ++ " " ++ r.text ++ ")"
  | .relational p l r => l.text ++ " " ++ p.symbol ++ " " ++ r.text

def isConstant : Expression → Bool
  | .constant _ => true
  | _ => false

def isRelational : Expression → Bool
  | .relational _ _ _ => true
  | _ => false

def negate? : Expression → Option Expression
  | .relational p l r => some (.relational p.negate l r)
  | _ => none

def size : Expression → Nat
  | .constant _ => 1
  | .read _ => 1
  | .arithmetic _ l r => 1 + l.size + r.size
  | .relational _ l r => 1 + l.size + r.size

def pendingSize : List Expression → Nat
  | [] => 0
  | e :: rest => e.size + pendingSize rest

/-- Works through the pending operands, the next one first, and adds the names not yet found. -/
def collect : List Expression → List String → List String
  | [], names => names
  | .constant _ :: rest, names => collect rest names
  | .read x :: rest, names =>
      collect rest (if names.contains x.name then names else names ++ [x.name])
  | .arithmetic _ l r :: rest, names => collect (l :: r :: rest) names
  | .relational _ l r :: rest, names => collect (l :: r :: rest) names
termination_by pending => pendingSize pending
decreasing_by all_goals simp only [pendingSize, size]; omega

def variableNames (e : Expression) : List String := collect [e] []

/-- The names of all reads from left to right, repetitions included. -/
def reads : Expression → List String
  | .constant _ => []
  | .read x => [x.name]
  | .arithmetic _ l r => l.reads ++ r.reads
  | .relational _ l r => l.reads ++ r.reads

end Expression

end RegionFlow

import Socnet.Bytes

namespace Socnet.Libjson

/-- The tokens that hold a value, with their value. `F` stands for `double`. -/
inductive Scalar (F : Type)
  | string (s : Bytes)
  | number (n : ℤ)
  | float (x : F)
  | boolean (b : Bool)
  | null
  deriving DecidableEq

inductive Token (F : Type)
  | scalar (s : Scalar F)
  | objectBegin
  | objectEnd
  | arrayBegin
  | arrayEnd
  | keyValueSep
  | sep
  deriving DecidableEq

structure JsonString where
  value : Bytes
  isEscaped : Bool
  deriving DecidableEq

mutual

/-- A tree of values. A child can be a null pointer. -/
inductive Json (F : Type)
  | object (members : Members F)
  | array (elements : Elements F)
  | string (s : JsonString)
  | number (n : ℤ)
  | float (x : F)
  | boolean (b : Bool)
  | null
  | nullptr

inductive Members (F : Type)
  | nil
  | cons (key : JsonString) (value : Json F) (members : Members F)

inductive Elements (F : Type)
  | nil
  | cons (value : Json F) (elements : Elements F)

end

variable {F : Type}

def Members.empty : Members F → Bool
  | .nil => true
  | .cons _ _ _ => false

def Elements.empty : Elements F → Bool
  | .nil => true
  | .cons _ _ => false

def Json.empty : Json F → Bool
  | .object members => members.empty
  | .array elements => elements.empty
  | _ => true

/-- The value of a token; `escape` is the flag of the lexer. -/
def Scalar.toJson (escape : Bool) : Scalar F → Json F
  | .string s => .string ⟨s, escape⟩
  | .number n => .number n
  | .float x => .float x
  | .boolean b => .boolean b
  | .null => .null

mutual

/-- The token sequence of a tree. -/
def Json.tokens : Json F → List (Token F)
  | .object members => .objectBegin :: (members.tokens ++ [.objectEnd])
  | .array elements => .arrayBegin :: (elements.tokens ++ [.arrayEnd])
  | .string s => [.scalar (.string s.value)]
  | .number n => [.scalar (.number n)]
  | .float x => [.scalar (.float x)]
  | .boolean b => [.scalar (.boolean b)]
  | .null => [.scalar .null]
  | .nullptr => []

def Members.tokens : Members F → List (Token F)
  | .nil => []
  | .cons key value members =>
    .scalar (.string key.value) :: .keyValueSep :: (value.tokens ++
      if members.empty then [] else .sep :: members.tokens)

def Elements.tokens : Elements F → List (Token F)
  | .nil => []
  | .cons value elements =>
    value.tokens ++ if elements.empty then [] else .sep :: elements.tokens

end

mutual

/-- No child of the tree is a null pointer. -/
def Json.NoNull : Json F → Prop
  | .object members => members.NoNull
  | .array elements => elements.NoNull
  | .nullptr => False
  | _ => True

def Members.NoNull : Members F → Prop
  | .nil => True
  | .cons _ value members => value.NoNull ∧ members.NoNull

def Elements.NoNull : Elements F → Prop
  | .nil => True
  | .cons value elements => value.NoNull ∧ elements.NoNull

end

end Socnet.Libjson

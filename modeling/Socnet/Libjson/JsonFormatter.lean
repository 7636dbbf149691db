import Socnet.Libjson.JsonUtil
import Socnet.Libjson.JsonValue

namespace Socnet.Libjson

variable {F : Type}

namespace JsonString

def toString (s : JsonString) : Bytes := quote :: (s.value ++ [quote])

/-- `JsonString::toString(bool escape)`. -/
def toStringEscape (s : JsonString) (escape : Bool) : Except Fault Bytes := do
  let ss ←
    if escape then if ¬ s.isEscaped then escapeString s.value else .ok s.value
    else if s.isEscaped then .ok (unescapeString s.value) else .ok s.value
  .ok (quote :: (ss ++ [quote]))

end JsonString

section

variable (showDouble : F → Bytes)

mutual

/-- The unformatted text. The call of a null pointer is undefined. -/
def Json.toString : Json F → Except Fault Bytes
  | .object members => do
    let text ← members.toString
    .ok (ascii "\x7b" ++ text ++ ascii "\x7d")
  | .array elements => do
    let text ← elements.toString
    .ok (ascii "[" ++ text ++ ascii "]")
  | .string s => .ok s.toString
  | .number n => .ok (intText n)
  | .float x => .ok (showDouble x)
  | .boolean b => .ok (if b then ascii "true" else ascii "false")
  | .null => .ok (ascii "null")
  | .nullptr => .error .badRead

def Members.toString : Members F → Except Fault Bytes
  | .nil => .ok []
  | .cons key value members => do
    let text ← value.toString
    let rest ← members.toString
    .ok (key.toString ++ ascii ":" ++ text ++ (if members.empty then [] else ascii ",") ++ rest)

def Elements.toString : Elements F → Except Fault Bytes
  | .nil => .ok []
  | .cons value elements => do
    let text ← value.toString
    let rest ← elements.toString
    .ok (text ++ (if elements.empty then [] else ascii ",") ++ rest)

end

namespace JsonFormatter

/-- `append_space_character`; the count is a product of two `int`s. -/
def spaces (n : ℕ) : Except Fault Bytes :=
  if n < 2 ^ 31 then .ok (List.replicate n SP) else .error .overflow

/-- The indentation of a closing bracket. -/
def closingSpaces (indent depth : ℕ) (empty : Bool) : Except Fault Bytes :=
  if empty then .ok [] else spaces ((depth - 1) * indent)

variable (indent : ℕ) (escape : Bool)

mutual

/-- `recursive_formatter` of an object or array and, below it, of any value. -/
def recursiveFormatter (depth : ℕ) (empty : Bool) : Json F → Except Fault Bytes
  | .object members => do
    let text ← formatMembers depth members
    let close ← closingSpaces indent depth empty
    .ok (ascii "\x7b" ++ (if members.empty then [] else ascii "\n") ++ text ++ close ++ ascii "\x7d")
  | .array elements => do
    let text ← formatElements depth elements
    let close ← closingSpaces indent depth empty
    .ok (ascii "[" ++ (if elements.empty then [] else ascii "\n") ++ text ++ close ++ ascii "]")
  | .string s => s.toStringEscape escape
  | v => v.toString showDouble

def formatMembers (depth : ℕ) : Members F → Except Fault Bytes
  | .nil => .ok []
  | .cons key value members => do
    let space ← spaces (depth * indent)
    let k ← key.toStringEscape escape
    let text ← recursiveFormatter (depth + 1) value.empty value
    let rest ← formatMembers depth members
    .ok (space ++ k ++ ascii ": " ++ text ++ (if members.empty then [] else ascii ",") ++
      ascii "\n" ++ rest)

def formatElements (depth : ℕ) : Elements F → Except Fault Bytes
  | .nil => .ok []
  | .cons value elements => do
    let space ← spaces (depth * indent)
    let text ← recursiveFormatter (depth + 1) value.empty value
    let rest ← formatElements depth elements
    .ok (space ++ text ++ (if elements.empty then [] else ascii ",") ++ ascii "\n" ++ rest)

end

end JsonFormatter

open JsonFormatter in
/-- `JsonFormatter(indent, escape).format()`. -/
def format (indent : ℤ) (escape : Bool) (root : Json F) : Except Fault Bytes :=
  match root with
  | .object _ | .array _ =>
    if indent ≤ 0 then root.toString showDouble
    else recursiveFormatter showDouble indent.toNat escape 1 false root
  | _ => .error .exception

end

end Socnet.Libjson

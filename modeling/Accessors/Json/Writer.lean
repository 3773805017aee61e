import Accessors.Json.Basic

/-!
# Writing JSON

Both layouts write members in their order. The compact one leaves no blanks; the pretty one puts
each item and each member on a line of its own, two blanks deeper than its container, and keeps an
empty container on one line.
-/

namespace Accessors.Json

def hexDigit (n : Nat) : Char := Char.ofNat (if n < 10 then '0'.toNat + n else 'a'.toNat + (n - 10))

def escape (c : Char) : List Char :=
  if c = '"' then ['\\', '"']
  else if c = '\\' then ['\\', '\\']
  else if c = '\x08' then ['\\', 'b']
  else if c = '\x0c' then ['\\', 'f']
  else if c = '\n' then ['\\', 'n']
  else if c = '\r' then ['\\', 'r']
  else if c = '\t' then ['\\', 't']
  else if c.toNat < 0x20 then
    ['\\', 'u', '0', '0', hexDigit (c.toNat / 16), hexDigit (c.toNat % 16)]
  else [c]

/-- A text that is no string is written as half a surrogate pair. -/
def writeText : Option String → List Char
  | some s => '"' :: (s.toList.flatMap escape ++ ['"'])
  | none => ['"', '\\', 'u', 'd', '8', '0', '0', '"']

structure Spacing where
  line : Nat → List Char
  colon : List Char

def Spacing.compact : Spacing := ⟨fun _ => [], []⟩

def Spacing.pretty : Spacing := ⟨fun depth => '\n' :: List.replicate (2 * depth) ' ', [' ']⟩

mutual

def write (spacing : Spacing) (depth : Nat) : Json → List Char
  | .null => ['n', 'u', 'l', 'l']
  | .bool true => ['t', 'r', 'u', 'e']
  | .bool false => ['f', 'a', 'l', 's', 'e']
  | .number literal => literal.toList
  | .string text => writeText text
  | .array [] => ['[', ']']
  | .array (item :: rest) =>
    '[' :: (spacing.line (depth + 1) ++ (write spacing (depth + 1) item ++
      (writeItems spacing (depth + 1) rest ++ (spacing.line depth ++ [']']))))
  | .object [] => ['{', '}']
  | .object ((key, value) :: rest) =>
    '{' :: (spacing.line (depth + 1) ++ (writeText key ++ (':' :: (spacing.colon ++
      (write spacing (depth + 1) value ++
        (writeMembers spacing (depth + 1) rest ++ (spacing.line depth ++ ['}'])))))))

def writeItems (spacing : Spacing) (depth : Nat) : List Json → List Char
  | [] => []
  | item :: rest =>
    ',' :: (spacing.line depth ++ (write spacing depth item ++ writeItems spacing depth rest))

def writeMembers (spacing : Spacing) (depth : Nat) : List (Option String × Json) → List Char
  | [] => []
  | (key, value) :: rest =>
    ',' :: (spacing.line depth ++ (writeText key ++ (':' :: (spacing.colon ++
      (write spacing depth value ++ writeMembers spacing depth rest)))))

end

def compact (j : Json) : String := String.ofList (write .compact 0 j)

def pretty (j : Json) : String := String.ofList (write .pretty 0 j)

end Accessors.Json

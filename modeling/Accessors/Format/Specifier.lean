/-!
# Specifiers

A specifier is the kind of value that a placeholder of a format string takes. The specifier `any`
stands for an argument that no placeholder uses; it gives way to every other one.
-/

namespace Accessors.Format

inductive Specifier where
  | object
  | double
  | int
  | uint
  | character
  | cString
  | pointer
  | any
  deriving DecidableEq, Repr

namespace Specifier

def ofConversion? : Char → Option Specifier
  | '@' => some .object
  | 'a' | 'A' | 'e' | 'E' | 'f' | 'F' | 'g' | 'G' => some .double
  | 'd' | 'D' | 'i' => some .int
  | 'o' | 'O' | 'u' | 'U' | 'x' | 'X' => some .uint
  | 'c' | 'C' => some .character
  | 's' | 'S' => some .cString
  | 'p' => some .pointer
  | _ => none

def typeName : Specifier → String
  | .object => "String"
  | .double => "Double"
  | .int => "Int"
  | .uint => "UInt"
  | .character => "Character"
  | .cString => "UnsafePointer<CChar>"
  | .pointer => "UnsafeRawPointer"
  | .any => "Any"

def unify (a b : Specifier) : Option Specifier :=
  if a = b then some a
  else if a = .any then some b
  else if b = .any then some a
  else none

end Specifier

end Accessors.Format

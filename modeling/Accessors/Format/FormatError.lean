import Accessors.Format.Placeholder

/-!
# Errors of format strings

What can be wrong with a format string and the plural rules that it refers to.
-/

namespace Accessors.Format

inductive FormatError where
  | positionOutOfRange (position : Nat)
  | argumentConflict (argument : Nat) (first second : Specifier)
  | referenceWithoutRules (name : String)
  | referenceMissing (name : String)
  /-- The names on the way, the last one met before. -/
  | referenceCyclic (chain : List String)
  | ruleUnsupported (name specType : String)
  | valueTypeInvalid (name valueType : String)
  | casesConflict (name category : String)
  deriving DecidableEq, Repr

def positionBound : Nat := 256

namespace FormatError

def code : FormatError → String
  | .positionOutOfRange _ => "STRINGS_FORMAT_POSITION"
  | .argumentConflict .. => "STRINGS_FORMAT_CONFLICT"
  | .referenceWithoutRules _ => "STRINGS_REFERENCE_MISSING"
  | .referenceMissing _ => "STRINGS_REFERENCE_MISSING"
  | .referenceCyclic _ => "STRINGS_REFERENCE_CYCLIC"
  | .ruleUnsupported .. => "STRINGS_REFERENCE_UNSUPPORTED"
  | .valueTypeInvalid .. => "STRINGS_REFERENCE_VALUE_TYPE"
  | .casesConflict .. => "STRINGS_REFERENCE_AMBIGUOUS"

def showPosition (position : Nat) : String :=
  if position = Placeholder.positionLimit then "(overflow)" else toString position

def message : FormatError → String
  | .positionOutOfRange position =>
    s!"Argument position {showPosition position} is outside 1...{positionBound}."
  | .argumentConflict argument first second =>
    s!"Argument {argument} is used as both {first.typeName} and {second.typeName}."
  | .referenceWithoutRules name =>
    s!"Plural reference \"{name}\" used without a plural dictionary."
  | .referenceMissing name => s!"Plural reference \"{name}\" is not defined."
  | .referenceCyclic chain => "Cyclic plural reference: " ++ " -> ".intercalate chain
  | .ruleUnsupported name specType =>
    s!"Plural reference \"{name}\" has unsupported spec type \"{specType}\"."
  | .valueTypeInvalid name valueType =>
    s!"Plural reference \"{name}\" has invalid value type \"{valueType}\"."
  | .casesConflict name category =>
    s!"Plural case \"{category}\" of \"{name}\" uses format specifiers that conflict with "
      ++ "the other cases."

end FormatError

end Accessors.Format

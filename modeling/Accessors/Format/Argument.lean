import Accessors.Format.Specifier

/-!
# Arguments

An argument of a format string has a specifier, and a name if a plural rule gives it one. Two
arguments unify if their specifiers do and their names do not differ; two lists of arguments unify
position by position, and where one list has ended the other one counts.
-/

namespace Accessors.Format

structure Argument where
  name : Option String
  specifier : Specifier
  deriving DecidableEq, Repr

namespace Argument

/-- An argument that no placeholder uses. -/
def unresolved : Argument := ⟨none, .any⟩

def isUnresolved (a : Argument) : Bool := a.specifier == .any

def unifyNames : Option String → Option String → Option (Option String)
  | none, name => some name
  | name, none => some name
  | some a, some b => if a = b then some (some a) else none

def unify (a b : Argument) : Option Argument := do
  let specifier ← a.specifier.unify b.specifier
  let name ← unifyNames a.name b.name
  return ⟨name, specifier⟩

def unifyAll : List Argument → List Argument → Option (List Argument)
  | [], bs => some bs
  | as, [] => some as
  | a :: as, b :: bs => do
    let first ← a.unify b
    let rest ← unifyAll as bs
    return first :: rest

end Argument

end Accessors.Format

import Accessors.Format.Argument
import Accessors.Format.FormatError
import Accessors.Format.Placeholder

/-!
# Layout of arguments

The parts of a format string take slots. A part with a position takes the slot of that position; the
others take the slots from the first one on, one after the other. A reference takes as many slots as
its plural rule has arguments. What meets in one slot has to unify, and a slot that nothing takes is
an unresolved argument.
-/

namespace Accessors.Format

abbrev Slots := List (Option Argument)

def place (number : Nat) (argument : Argument) : Nat → Slots → Except FormatError Slots
  | 0, [] => .ok [some argument]
  | 0, none :: rest => .ok (some argument :: rest)
  | 0, some held :: rest =>
    match held.unify argument with
    | some unified => .ok (some unified :: rest)
    | none => .error (.argumentConflict number held.specifier argument.specifier)
  | distance + 1, [] => (place (number + 1) argument distance []).map (none :: ·)
  | distance + 1, slot :: rest => (place (number + 1) argument distance rest).map (slot :: ·)

def placeAll : List Argument → Nat → Slots → Except FormatError Slots
  | [], _, slots => .ok slots
  | argument :: rest, start, slots => do
    let slots ← place 1 argument start slots
    placeAll rest (start + 1) slots

def slotOf (position : Nat) : Except FormatError Nat :=
  if position = 0 ∨ positionBound < position then .error (.positionOutOfRange position)
  else .ok (position - 1)

/-- The slots after the parts. `next` is the first slot that no part without a position has taken,
`owner` names the arguments of specifiers, and `resolve` has the arguments of a reference. -/
def fill (resolve : String → Except FormatError (List Argument)) (owner : Option String) :
    List Part → Nat → Slots → Except FormatError Slots
  | [], _, slots => .ok slots
  | .specifier (some position) specifier :: rest, next, slots => do
    let slot ← slotOf position
    let slots ← place 1 ⟨owner, specifier⟩ slot slots
    fill resolve owner rest next slots
  | .specifier none specifier :: rest, next, slots => do
    let slots ← place 1 ⟨owner, specifier⟩ next slots
    fill resolve owner rest (next + 1) slots
  | .reference (some position) name :: rest, next, slots => do
    let arguments ← resolve name
    let slot ← slotOf position
    let slots ← placeAll arguments slot slots
    fill resolve owner rest next slots
  | .reference none name :: rest, next, slots => do
    let arguments ← resolve name
    let slots ← placeAll arguments next slots
    fill resolve owner rest (next + arguments.length) slots

def layout (resolve : String → Except FormatError (List Argument)) (owner : Option String)
    (parts : List Part) : Except FormatError (List Argument) := do
  let slots ← fill resolve owner parts 0 []
  return slots.map (·.getD .unresolved)

end Accessors.Format

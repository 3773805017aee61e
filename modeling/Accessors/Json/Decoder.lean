import Accessors.Dictionary
import Accessors.Json.Reader

/-!
# Decoding JSON

A decoder turns a value into data, or fails. It is given the number of containers that may still be
opened below the place where it stands; opening one more fails. Members that no decoder asks for
are not looked into, so their depth and the soundness of their texts do not matter.

A record is written as an object, whose unknown members are ignored and whose known members may
not be repeated, or as an array of its fields in the order of declaration.
-/

namespace Accessors.Json

abbrev Decoder (α : Type) := Nat → Json → Option α

variable {α β : Type}

def nestingLimit : Nat := 127

def decodeText (decode : Decoder α) (s : String) : Option α := (read s).bind (decode nestingLimit)

def string? : Decoder String
  | _, .string content => content
  | _, _ => none

def bool? : Decoder Bool
  | _, .bool value => some value
  | _, _ => none

def nullable (decode : Decoder α) : Decoder (Option α)
  | _, .null => some none
  | room, j => (decode room j).map some

def list? (decode : Decoder α) : Decoder (List α)
  | room + 1, .array items => items.mapM (decode room)
  | _, _ => none

def member? (decode : Json → Option α) (member : Option String × Json) : Option (String × α) := do
  let key ← member.1
  let value ← decode member.2
  return (key, value)

def dictionary? (decode : Decoder α) : Decoder (Dictionary α)
  | room + 1, .object members => (members.mapM (member? (decode room))).map Dictionary.ofList
  | _, _ => none

def ofDictionary (encode : α → Json) (d : Dictionary α) : Json :=
  record (d.entries.map fun entry => (entry.1, encode entry.2))

/-- One of a few words, written as a text or as the only key of an object that maps it to `null`. -/
def word? (words : List (String × α)) : Decoder α
  | _, .string content => content.bind (List.lookup · words)
  | _ + 1, .object [(key, .null)] => key.bind (List.lookup · words)
  | _, _ => none

structure Fields where
  room : Nat
  present : List (String × Json)

def fields? (names : List String) : Decoder Fields
  | room + 1, .array items =>
    if items.length ≤ names.length then some ⟨room, names.zip items⟩ else none
  | room + 1, .object members => do
    let keyed ← members.mapM (member? some)
    let known := keyed.filter (names.contains ·.1)
    if (known.map Prod.fst).Nodup then return ⟨room, known⟩ else none
  | _, _ => none

namespace Fields

def required (fields : Fields) (name : String) (decode : Decoder α) : Option α :=
  (fields.present.lookup name).bind (decode fields.room)

def withDefault (fields : Fields) (name : String) (default : α) (decode : Decoder α) : Option α :=
  match fields.present.lookup name with
  | none => some default
  | some j => decode fields.room j

def orNone (fields : Fields) (name : String) (decode : Decoder α) : Option (Option α) :=
  fields.withDefault name none (nullable decode)

def orEmpty (fields : Fields) (name : String) (decode : Decoder α) : Option (List α) :=
  fields.withDefault name [] (list? decode)

end Fields

end Accessors.Json

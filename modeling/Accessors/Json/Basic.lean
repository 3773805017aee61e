/-!
# JSON values

A value as it stands in a JSON text. Numbers keep their literal and objects keep every member in
its place, repeated keys included. A text may name half of a surrogate pair by an escape; no string
has that content, so the text is kept as `none`.
-/

namespace Accessors

inductive Json where
  | null
  | bool (value : Bool)
  | number (literal : String)
  | string (text : Option String)
  | array (items : List Json)
  | object (members : List (Option String × Json))
  deriving Inhabited

namespace Json

def text (s : String) : Json := .string (some s)

def texts (values : List String) : Json := .array (values.map text)

def record (fields : List (String × Json)) : Json :=
  .object (fields.map fun field => (some field.1, field.2))

def optional {α : Type} (encode : α → Json) : Option α → Json
  | none => .null
  | some value => encode value

end Json

end Accessors

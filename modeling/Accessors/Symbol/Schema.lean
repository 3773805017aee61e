import Accessors.Json.Decoder
import Accessors.Symbol.Node

/-!
# Symbols in JSON

A shape and a step name their kind. A leaf without doc lines, and a node without leaves, without
children or without a validation, leaves these fields out when it is written.
-/

namespace Accessors.Symbol

open Json

/-- The kind that a value names, and the value without it. The kind is the only member called
`kind` of an object, or the first item of an array. -/
def kind? : Json → Option (String × Json)
  | .array (.string (some kind) :: rest) => some (kind, .array rest)
  | .object members =>
    match members.filter (·.1 == some "kind") with
    | [(_, .string (some kind))] => some (kind, .object (members.filter (·.1 != some "kind")))
    | _ => none
  | _ => none

def Parameter.ofJson : Decoder Parameter := fun room j => do
  let fields ← fields? ["label", "name", "typeName"] room j
  let label ← fields.orNone "label" string?
  let name ← fields.required "name" string?
  let typeName ← fields.required "typeName" string?
  return ⟨label, name, typeName⟩

def Parameter.toJson (parameter : Parameter) : Json := record [
  ("label", optional text parameter.label),
  ("name", text parameter.name),
  ("typeName", text parameter.typeName)]

def Shape.ofJson : Decoder Shape := fun room j => do
  let (kind, rest) ← kind? j
  if kind = "constant" then
    let _ ← fields? [] room rest
    return .constant
  else if kind = "function" then
    let fields ← fields? ["params"] room rest
    let parameters ← fields.required "params" (list? Parameter.ofJson)
    return .function parameters
  else none

def Shape.toJson : Shape → Json
  | .constant => record [("kind", text "constant")]
  | .function parameters =>
    record [("kind", text "function"), ("params", .array (parameters.map Parameter.toJson))]

def Step.ofJson : Decoder Step := fun room j => do
  let (kind, rest) ← kind? j
  if kind = "check" then
    let fields ← fields? ["expression"] room rest
    let expression ← fields.required "expression" string?
    return .check expression
  else if kind = "invokeChild" then
    let fields ← fields? ["child"] room rest
    let child ← fields.required "child" string?
    return .invokeChild child
  else none

def Step.toJson : Step → Json
  | .check expression => record [("kind", text "check"), ("expression", text expression)]
  | .invokeChild child => record [("kind", text "invokeChild"), ("child", text child)]

def unlessEmpty (name : String) (items : List Json) : List (String × Json) :=
  if items.isEmpty then [] else [(name, .array items)]

def Leaf.ofJson : Decoder Leaf := fun room j => do
  let fields ← fields? ["name", "shape", "typeName", "binding", "doc"] room j
  let name ← fields.required "name" string?
  let shape ← fields.required "shape" Shape.ofJson
  let typeName ← fields.required "typeName" string?
  let binding ← fields.required "binding" string?
  let doc ← fields.orEmpty "doc" string?
  return ⟨name, shape, typeName, binding, doc⟩

def Leaf.toJson (leaf : Leaf) : Json := record ([
  ("name", text leaf.name),
  ("shape", leaf.shape.toJson),
  ("typeName", text leaf.typeName),
  ("binding", text leaf.binding)] ++ unlessEmpty "doc" (leaf.doc.map text))

def stepsOfJson : Decoder (List Step) := fun room j => do
  let fields ← fields? ["steps"] room j
  fields.required "steps" (list? Step.ofJson)

def stepsToJson (steps : List Step) : Json := record [("steps", .array (steps.map Step.toJson))]

namespace Node

def fieldNames : List String := ["name", "leaves", "children", "validation", "validatable"]

mutual

def ofJson : Decoder Node
  | 0, _ => none
  | room + 1, j => do
    let fields ← fields? fieldNames (room + 1) j
    let name ← fields.required "name" string?
    let leaves ← fields.orEmpty "leaves" Leaf.ofJson
    let children ← fields.withDefault "children" [] fun _ => listOfJson room
    let validation ← fields.orNone "validation" stepsOfJson
    let validatable ← fields.withDefault "validatable" false bool?
    return ⟨name, leaves, children, validation, validatable⟩

def listOfJson : Decoder (List Node)
  | room + 1, .array items => items.mapM (ofJson room)
  | _, _ => none

end

mutual

def toJson : Node → Json
  | ⟨name, leaves, children, validation, validatable⟩ => record (
    [("name", text name)] ++ unlessEmpty "leaves" (leaves.map Leaf.toJson) ++
      unlessEmpty "children" (toJsonAll children) ++
      (validation.toList.map fun steps => ("validation", stepsToJson steps)) ++
      [("validatable", .bool validatable)])

def toJsonAll : List Node → List Json
  | [] => []
  | node :: rest => node.toJson :: toJsonAll rest

end

theorem toJsonAll_eq_map (nodes : List Node) : toJsonAll nodes = nodes.map toJson := by
  induction nodes with
  | nil => rfl
  | cons node rest ih => simp [toJsonAll, ih]

end Node

end Accessors.Symbol

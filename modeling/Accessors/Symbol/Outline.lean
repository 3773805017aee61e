import Accessors.Symbol.Validation
import Accessors.Text.Listed

/-!
# Outline

The tree as indented lines: a node, then its leaves, what its validation does, and its children,
each two blanks deeper than the node.
-/

namespace Accessors.Symbol

def Parameter.outline (parameter : Parameter) : String :=
  match parameter.label with
  | none => s!"_ {parameter.name}: {parameter.typeName}"
  | some label =>
    if label = parameter.name then s!"{parameter.name}: {parameter.typeName}"
    else s!"{label} {parameter.name}: {parameter.typeName}"

def Leaf.outline (leaf : Leaf) : String :=
  match leaf.shape with
  | .constant => s!"{leaf.name}: {leaf.typeName}"
  | .function parameters =>
    s!"{leaf.name}({listed (parameters.map Parameter.outline)}) -> {leaf.typeName}"

def validationOutline (steps : List Step) : String :=
  let children := invokedChildren steps
  s!"validate() checks: {(checks steps).length}" ++
    (if children.isEmpty then "" else s!", children: {listed children}")

def indent (depth : Nat) : String := String.ofList (List.replicate (2 * depth) ' ')

namespace Node

mutual

def outlineLines (depth : Nat) : Node → List String
  | ⟨name, leaves, children, validation, validatable⟩ =>
    (indent depth ++ name ++ (if validatable then " [validatable]" else "")) ::
      (leaves.map (fun leaf => indent (depth + 1) ++ leaf.outline) ++
        validation.toList.map (fun steps => indent (depth + 1) ++ validationOutline steps) ++
        outlineLinesAll (depth + 1) children)

def outlineLinesAll (depth : Nat) : List Node → List String
  | [] => []
  | node :: rest => node.outlineLines depth ++ outlineLinesAll depth rest

end

def outline (root : Node) : String := String.join ((root.outlineLines 0).map (· ++ "\n"))

end Node

end Accessors.Symbol

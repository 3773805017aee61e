import Accessors.Symbol.Node

/-!
# Validation

A validation checks expressions and runs the validations of children. Validation is passed upwards:
a node runs each child that can be validated, after its own steps. A node without steps of its own
gets those that run its children, and every node with a validation can be validated.
-/

namespace Accessors.Symbol

def checks (steps : List Step) : List String := steps.filterMap Step.check?

def invokedChildren (steps : List Step) : List String := steps.filterMap Step.child?

def addMissing (own steps : List Step) : List Step :=
  steps.foldl (fun own step => if own.contains step then own else own ++ [step]) own

def joinValidation (own : Option (List Step)) (invoked : List Step) : Option (List Step) :=
  if invoked.isEmpty then own
  else
    match own with
    | none => some invoked
    | some steps => some (addMissing steps invoked)

def invocations (children : List Node) : List Step :=
  (children.filter (·.validatable)).map fun child => .invokeChild child.name

namespace Node

mutual

def propagate : Node → Node
  | ⟨name, leaves, children, own, validatable⟩ =>
    let children := propagateAll children
    let validation := joinValidation own (invocations children)
    ⟨name, leaves, children, validation, validatable || validation.isSome⟩

def propagateAll : List Node → List Node
  | [] => []
  | node :: rest => node.propagate :: propagateAll rest

end

theorem propagateAll_eq_map (nodes : List Node) : propagateAll nodes = nodes.map propagate := by
  induction nodes with
  | nil => rfl
  | cons node rest ih => simp [propagateAll, ih]

end Node

end Accessors.Symbol

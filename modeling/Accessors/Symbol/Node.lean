/-!
# Symbols

A leaf is an accessor: a constant or a function with parameters, its type, and the expression that
it is bound to. A node gathers leaves and further nodes under a name. It may have a validation, the
steps that check at run time that the resources behind it are there.
-/

namespace Accessors.Symbol

structure Parameter where
  label : Option String
  name : String
  typeName : String
  deriving DecidableEq, Repr

def Parameter.unlabeled (name typeName : String) : Parameter := ⟨none, name, typeName⟩

def Parameter.labeled (name typeName : String) : Parameter := ⟨some name, name, typeName⟩

inductive Shape where
  | constant
  | function (parameters : List Parameter)
  deriving DecidableEq, Repr

structure Leaf where
  name : String
  shape : Shape
  typeName : String
  binding : String
  doc : List String
  deriving DecidableEq, Repr

namespace Leaf

def constant (name typeName binding : String) (doc : List String) : Leaf :=
  ⟨name, .constant, typeName, binding, doc⟩

def function (name : String) (parameters : List Parameter) (typeName binding : String)
    (doc : List String) : Leaf :=
  ⟨name, .function parameters, typeName, binding, doc⟩

def isFunction (leaf : Leaf) : Bool :=
  match leaf.shape with
  | .constant => false
  | .function _ => true

def parameters (leaf : Leaf) : List Parameter :=
  match leaf.shape with
  | .constant => []
  | .function parameters => parameters

end Leaf

inductive Step where
  | check (expression : String)
  | invokeChild (child : String)
  deriving DecidableEq, Repr

namespace Step

def check? : Step → Option String
  | .check expression => some expression
  | .invokeChild _ => none

def child? : Step → Option String
  | .check _ => none
  | .invokeChild child => some child

end Step

structure Node where
  name : String
  leaves : List Leaf
  children : List Node
  validation : Option (List Step)
  validatable : Bool
  deriving Repr

namespace Node

mutual

def decEq : (a b : Node) → Decidable (a = b)
  | ⟨n, ls, cs, v, f⟩, ⟨n', ls', cs', v', f'⟩ =>
    match decEqAll cs cs' with
    | isTrue h => decidable_of_iff (n = n' ∧ ls = ls' ∧ v = v' ∧ f = f') (by simp [h])
    | isFalse h => isFalse fun e => h (Node.mk.inj e).2.2.1

def decEqAll : (as bs : List Node) → Decidable (as = bs)
  | [], [] => isTrue rfl
  | [], _ :: _ => isFalse nofun
  | _ :: _, [] => isFalse nofun
  | a :: as, b :: bs =>
    match decEq a b, decEqAll as bs with
    | isTrue ha, isTrue hs => isTrue (ha ▸ hs ▸ rfl)
    | isFalse ha, _ => isFalse fun e => ha (List.cons.inj e).1
    | _, isFalse hs => isFalse fun e => hs (List.cons.inj e).2

end

instance : DecidableEq Node := decEq

def new (name : String) : Node := ⟨name, [], [], none, false⟩

def setChecks (node : Node) (checks : List String) : Node :=
  if checks.isEmpty then node
  else { node with validation := some (checks.map .check), validatable := true }

def child? (node : Node) (name : String) : Option Node := node.children.find? (·.name == name)

def leaf? (node : Node) (name : String) : Option Leaf := node.leaves.find? (·.name == name)

def leavesNamed (node : Node) (name : String) : List Leaf := node.leaves.filter (·.name == name)

def follow? (node : Node) (names : List String) : Option Node := names.foldlM child? node

def descendant? (node : Node) (path : String) : Option Node :=
  node.follow? ((path.toList.splitOn '.').map String.ofList)

def isEmpty (node : Node) : Bool :=
  node.leaves.isEmpty && node.children.isEmpty && node.validation.isNone

mutual

def leafCount : Node → Nat
  | ⟨_, leaves, children, _, _⟩ => leaves.length + leafCountAll children

def leafCountAll : List Node → Nat
  | [] => 0
  | node :: rest => node.leafCount + leafCountAll rest

end

end Node

end Accessors.Symbol

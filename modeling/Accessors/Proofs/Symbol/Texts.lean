import Accessors.Proofs.Symbol.Path

/-!
# Symbols without their texts

Two texts of a leaf say nothing about how it is used: the expression that it is bound to, and its
documentation. A tree without these texts still has all nodes, all leaves with their names, shapes
and types, and all validations. Passing validation upwards does not look at the texts.
-/

namespace Accessors.Symbol

def Leaf.withoutTexts (leaf : Leaf) : Leaf := { leaf with binding := "", doc := [] }

namespace Node

mutual

def withoutTexts : Node → Node
  | ⟨name, leaves, children, validation, validatable⟩ =>
    ⟨name, leaves.map Leaf.withoutTexts, withoutTextsAll children, validation, validatable⟩

def withoutTextsAll : List Node → List Node
  | [] => []
  | node :: rest => node.withoutTexts :: withoutTextsAll rest

end

theorem withoutTextsAll_eq_map (nodes : List Node) :
    withoutTextsAll nodes = nodes.map withoutTexts := by
  induction nodes with
  | nil => rfl
  | cons node rest ih => rw [withoutTextsAll, ih, List.map_cons]

def edit (onLeaf : Leaf → Leaf) (onChild : Node → Node) (node : Node) : Node :=
  { node with leaves := node.leaves.map onLeaf, children := node.children.map onChild }

theorem withoutTexts_eq_edit (node : Node) :
    node.withoutTexts = node.edit Leaf.withoutTexts withoutTexts := by
  obtain ⟨name, leaves, children, validation, validatable⟩ := node
  rw [withoutTexts, withoutTextsAll_eq_map]
  rfl

def withoutTextsAt (name : String) (child : Node) : Node :=
  if child.name = name then child.withoutTexts else child

def withoutTextsBelow (name : String) (root : Node) : Node :=
  { root with children := root.children.map (withoutTextsAt name) }

theorem withoutTextsBelow_eq_edit (name : String) (root : Node) :
    root.withoutTextsBelow name = root.edit id (withoutTextsAt name) := by
  rw [edit, List.map_id]
  rfl

@[simp] theorem name_withoutTexts (node : Node) : node.withoutTexts.name = node.name := by
  rw [withoutTexts_eq_edit]
  rfl

@[simp] theorem validatable_withoutTexts (node : Node) :
    node.withoutTexts.validatable = node.validatable := by
  rw [withoutTexts_eq_edit]
  rfl

@[simp] theorem name_withoutTextsAt (name : String) (child : Node) :
    (withoutTextsAt name child).name = child.name := by
  unfold withoutTextsAt
  split <;> simp

@[simp] theorem validatable_withoutTextsAt (name : String) (child : Node) :
    (withoutTextsAt name child).validatable = child.validatable := by
  unfold withoutTextsAt
  split <;> simp

theorem invocations_map {f : Node → Node} (hname : ∀ node, (f node).name = node.name)
    (hvalidatable : ∀ node, (f node).validatable = node.validatable) (children : List Node) :
    invocations (children.map f) = invocations children := by
  simp [invocations, List.filter_map, Function.comp_def, hname, hvalidatable]

theorem propagate_edit (node : Node) (onLeaf : Leaf → Leaf) {onChild : Node → Node}
    (hname : ∀ child, (onChild child).name = child.name)
    (hvalidatable : ∀ child, (onChild child).validatable = child.validatable)
    (hpropagate : ∀ child ∈ node.children, (onChild child).propagate = onChild child.propagate) :
    (node.edit onLeaf onChild).propagate = node.propagate.edit onLeaf onChild := by
  obtain ⟨name, leaves, children, validation, validatable⟩ := node
  have hchildren : (children.map onChild).map propagate = (children.map propagate).map onChild := by
    rw [List.map_map, List.map_map]
    exact List.map_congr_left hpropagate
  simp only [edit, propagate, propagateAll_eq_map, hchildren, invocations_map hname hvalidatable]

theorem propagate_withoutTexts (node : Node) :
    node.withoutTexts.propagate = node.propagate.withoutTexts := by
  induction node using Node.induct with
  | node node ih =>
    rw [withoutTexts_eq_edit, withoutTexts_eq_edit,
      propagate_edit node _ name_withoutTexts validatable_withoutTexts ih]

theorem propagate_withoutTextsBelow (name : String) (root : Node) :
    (root.withoutTextsBelow name).propagate = root.propagate.withoutTextsBelow name := by
  rw [withoutTextsBelow_eq_edit, withoutTextsBelow_eq_edit]
  refine propagate_edit root id (name_withoutTextsAt name) (validatable_withoutTextsAt name) ?_
  intro child _
  unfold withoutTextsAt
  rw [name_propagate]
  split
  · exact propagate_withoutTexts child
  · rfl

end Node

end Accessors.Symbol

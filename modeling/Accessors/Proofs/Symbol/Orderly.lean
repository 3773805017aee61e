import Accessors.Keys
import Accessors.Proofs.Symbol.Validation

/-!
# Orderly nodes

In an orderly node the children stand in the order of their names, a leaf and a child never share a
name, and a name stands at one leaf or at a constant and the function behind it. All names are
proper parts of a dotted path, and the validation holds only checks.
-/

namespace Accessors.Symbol

def Proper (name : String) : Prop := name ≠ "" ∧ '.' ∉ name.toList

instance (name : String) : Decidable (Proper name) := inferInstanceAs (Decidable (_ ∧ _))

/-- Every name stands at one leaf, or at a constant and the function right behind it. -/
inductive Paired : List Leaf → Prop
  | nil : Paired []
  | single {leaf : Leaf} {rest : List Leaf} (fresh : ∀ other ∈ rest, other.name ≠ leaf.name)
      (paired : Paired rest) : Paired (leaf :: rest)
  | pair {constant function : Leaf} {rest : List Leaf} (same : function.name = constant.name)
      (isConstant : constant.shape = .constant) (isFunction : function.isFunction = true)
      (fresh : ∀ other ∈ rest, other.name ≠ constant.name) (paired : Paired rest) :
      Paired (constant :: function :: rest)

namespace Paired

theorem of_nodup {leaves : List Leaf} (h : (leaves.map Leaf.name).Nodup) : Paired leaves := by
  induction leaves with
  | nil => exact .nil
  | cons leaf rest ih =>
    obtain ⟨hleaf, hrest⟩ := List.nodup_cons.mp h
    exact .single (fun other ho he => hleaf (he ▸ List.mem_map_of_mem ho)) (ih hrest)

theorem append {xs ys : List Leaf} (hx : Paired xs) (hy : Paired ys)
    (h : ∀ x ∈ xs, ∀ y ∈ ys, y.name ≠ x.name) : Paired (xs ++ ys) := by
  induction hx with
  | nil => exact hy
  | @single leaf rest fresh paired ih =>
    refine .single (fun other ho => ?_) (ih fun x hx => h x (List.mem_cons_of_mem _ hx))
    rcases List.mem_append.mp ho with ho | ho
    · exact fresh other ho
    · exact h leaf (List.mem_cons_self ..) other ho
  | @pair constant function rest same isConstant isFunction fresh paired ih =>
    refine .pair same isConstant isFunction (fun other ho => ?_)
      (ih fun x hx => h x (List.mem_cons_of_mem _ (List.mem_cons_of_mem _ hx)))
    rcases List.mem_append.mp ho with ho | ho
    · exact fresh other ho
    · exact h constant (List.mem_cons_self ..) other ho

theorem length_filter_le {leaves : List Leaf} (h : Paired leaves) (name : String) :
    (leaves.filter (·.name == name)).length ≤ 2 := by
  have hnone : ∀ (leaf : Leaf) (rest : List Leaf), leaf.name = name →
      (∀ other ∈ rest, other.name ≠ leaf.name) → rest.filter (·.name == name) = [] := by
    intro leaf rest hleaf fresh
    refine List.filter_eq_nil_iff.mpr fun other ho he => fresh other ho ?_
    simpa [hleaf] using he
  induction h with
  | nil => simp
  | @single leaf rest fresh paired ih =>
    by_cases hn : leaf.name = name
    · simp [hn, hnone leaf rest hn fresh]
    · simpa [hn] using ih
  | @pair constant function rest same isConstant isFunction fresh paired ih =>
    by_cases hn : constant.name = name
    · simp [hn, same, hnone constant rest hn fresh]
    · simpa [hn, same] using ih

theorem adjacent {leaves : List Leaf} (h : Paired leaves) {i j : Nat} {a b : Leaf} (hij : i < j)
    (ha : leaves[i]? = some a) (hb : leaves[j]? = some b) (hn : a.name = b.name) :
    j = i + 1 ∧ a.shape = .constant ∧ b.isFunction = true := by
  induction h generalizing i j with
  | nil => simp at ha
  | @single leaf rest fresh paired ih =>
    obtain ⟨j, rfl⟩ : ∃ j', j = j' + 1 := ⟨j - 1, by omega⟩
    rw [List.getElem?_cons_succ] at hb
    cases i with
    | zero =>
      obtain rfl : leaf = a := by simpa using ha
      exact absurd hn.symm (fresh b (List.mem_of_getElem? hb))
    | succ i =>
      rw [List.getElem?_cons_succ] at ha
      obtain ⟨hj, hshape⟩ := ih (by omega) ha hb
      exact ⟨by omega, hshape⟩
  | @pair constant function rest same isConstant isFunction fresh paired ih =>
    match i, j, hij with
    | 0, 1, _ =>
      obtain rfl : constant = a := by simpa using ha
      obtain rfl : function = b := by simpa using hb
      exact ⟨rfl, isConstant, isFunction⟩
    | 0, j + 2, _ =>
      obtain rfl : constant = a := by simpa using ha
      rw [List.getElem?_cons_succ, List.getElem?_cons_succ] at hb
      exact absurd hn.symm (fresh b (List.mem_of_getElem? hb))
    | 1, j + 2, _ =>
      obtain rfl : function = a := by simpa using ha
      rw [List.getElem?_cons_succ, List.getElem?_cons_succ] at hb
      exact absurd (hn.symm.trans same) (fresh b (List.mem_of_getElem? hb))
    | i + 2, j + 2, hij =>
      rw [List.getElem?_cons_succ, List.getElem?_cons_succ] at ha hb
      obtain ⟨hj, hshape⟩ := ih (by omega) ha hb
      exact ⟨by omega, hshape⟩

end Paired

structure Tidy (leaves : List Leaf) (children : List Node) : Prop where
  increasing : Increasing (children.map Node.name)
  apart : ∀ leaf ∈ leaves, ∀ child ∈ children, leaf.name ≠ child.name
  paired : Paired leaves
  properLeaves : ∀ leaf ∈ leaves, Proper leaf.name
  properChildren : ∀ child ∈ children, Proper child.name

namespace Node

/-- The names at a node, spelled out: children increase, no leaf has the name of a child, a name
that stands twice stands at a constant and the function right behind it. -/
structure WellNamed (node : Node) : Prop where
  increasing : Increasing (node.children.map Node.name)
  apart : ∀ leaf ∈ node.leaves, ∀ child ∈ node.children, leaf.name ≠ child.name
  atMostTwice : ∀ name, (node.leavesNamed name).length ≤ 2
  overload : ∀ {i j : Nat} {a b : Leaf}, i < j → node.leaves[i]? = some a →
    node.leaves[j]? = some b → a.name = b.name →
    j = i + 1 ∧ a.shape = .constant ∧ b.isFunction = true
  properLeaves : ∀ leaf ∈ node.leaves, Proper leaf.name
  properChildren : ∀ child ∈ node.children, Proper child.name

theorem wellNamed_of_tidy {node : Node} (h : Tidy node.leaves node.children) : node.WellNamed where
  increasing := h.increasing
  apart := h.apart
  atMostTwice := h.paired.length_filter_le
  overload := h.paired.adjacent
  properLeaves := h.properLeaves
  properChildren := h.properChildren

structure Orderly (node : Node) : Prop where
  tidy : Tidy node.leaves node.children
  checksOnly : ChecksOnly (stepsOf node.validation)
  validatable : node.validatable = node.validation.isSome

theorem Orderly.plain {node : Node} (h : node.Orderly) : node.Plain where
  distinct := h.tidy.increasing.nodup
  checksOnly := h.checksOnly
  validatable := h.validatable

theorem throughout_orderly_rename {root : Node} (name : String) (h : root.Throughout Orderly) :
    ({ root with name := name } : Node).Throughout Orderly := by
  obtain ⟨hroot, hchildren⟩ := throughout_iff.mp h
  exact throughout_iff.mpr ⟨⟨hroot.tidy, hroot.checksOnly, hroot.validatable⟩, hchildren⟩

theorem proper_of_leads {root node : Node} {path : List String} (h : root.Throughout Orderly)
    (hn : root.Leads path node) : ∀ name ∈ path, Proper name := by
  induction path generalizing root with
  | nil => exact fun _ hm => absurd hm List.not_mem_nil
  | cons first path ih =>
    obtain ⟨hroot, hchildren⟩ := throughout_iff.mp h
    obtain ⟨child, hc, rfl, hn⟩ := hn
    intro name hm
    rcases List.mem_cons.mp hm with rfl | hm
    · exact hroot.tidy.properChildren child hc
    · exact ih (hchildren child hc) hn name hm

theorem tidy_propagate {node : Node} (h : Tidy node.leaves node.children) :
    Tidy node.propagate.leaves node.propagate.children := by
  rw [leaves_propagate, children_propagate]
  refine ⟨?_, ?_, h.paired, h.properLeaves, ?_⟩
  · simpa [Function.comp_def] using h.increasing
  · intro leaf hl passed hp
    obtain ⟨child, hc, rfl⟩ := List.mem_map.mp hp
    exact name_propagate child ▸ h.apart leaf hl child hc
  · intro passed hp
    obtain ⟨child, hc, rfl⟩ := List.mem_map.mp hp
    exact name_propagate child ▸ h.properChildren child hc

end Node

end Accessors.Symbol

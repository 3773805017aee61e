import Mathlib.Data.List.Nodup
import Accessors.Proofs.Symbol.Orderly

/-!
# Places of leaves

`places` lists the leaves of a tree, each with the path to its node. A leaf is listed at the paths
where the tree has it; in an orderly tree it is listed at each of them once.
-/

namespace Accessors.Symbol

theorem Paired.nodup {leaves : List Leaf} (h : Paired leaves) : leaves.Nodup := by
  induction h with
  | nil => exact List.nodup_nil
  | single fresh paired ih => exact List.nodup_cons.mpr ⟨fun hm => fresh _ hm rfl, ih⟩
  | @pair constant function rest same isConstant isFunction fresh paired ih =>
    have hne : constant ≠ function := by
      rintro rfl
      simp [Leaf.isFunction, isConstant] at isFunction
    refine List.nodup_cons.mpr ⟨fun hm => ?_, List.nodup_cons.mpr ⟨fun hm => fresh _ hm same, ih⟩⟩
    rcases List.mem_cons.mp hm with he | hm
    · exact hne he
    · exact fresh _ hm rfl

namespace Node

mutual

def places : Node → List (List String × Leaf)
  | ⟨_, leaves, children, _, _⟩ => leaves.map (fun leaf => ([], leaf)) ++ placesAll children

def placesAll : List Node → List (List String × Leaf)
  | [] => []
  | node :: rest => node.places.map (fun place => (node.name :: place.1, place.2)) ++ placesAll rest

end

theorem placesAll_eq_flatMap (nodes : List Node) :
    placesAll nodes =
      nodes.flatMap fun node => node.places.map fun place => (node.name :: place.1, place.2) := by
  induction nodes with
  | nil => rfl
  | cons node rest ih => rw [placesAll, ih, List.flatMap_cons]

theorem places_eq (root : Node) :
    root.places = root.leaves.map (fun leaf => ([], leaf)) ++
      root.children.flatMap fun child =>
        child.places.map fun place => (child.name :: place.1, place.2) := by
  cases root with
  | mk name leaves children validation validatable => rw [places, placesAll_eq_flatMap]

theorem mem_places_iff {root : Node} {path : List String} {leaf : Leaf} :
    (path, leaf) ∈ root.places ↔ root.Has path leaf := by
  induction path generalizing root with
  | nil =>
    rw [places_eq, has_nil]
    simp
  | cons name path ih =>
    rw [places_eq]
    simp only [List.mem_append, List.mem_map, List.mem_flatMap, Prod.mk.injEq, reduceCtorEq,
      false_and, and_false, exists_false, false_or, List.cons.injEq]
    constructor
    · rintro ⟨child, hc, ⟨_, _⟩, hp, ⟨rfl, rfl⟩, rfl⟩
      obtain ⟨node, hn, hl⟩ := ih.mp hp
      exact ⟨node, ⟨child, hc, rfl, hn⟩, hl⟩
    · rintro ⟨node, ⟨child, hc, rfl, hn⟩, hl⟩
      exact ⟨child, hc, (path, leaf), ih.mpr ⟨node, hn, hl⟩, ⟨rfl, rfl⟩, rfl⟩

theorem nodup_places {root : Node} (h : root.Throughout Orderly) : root.places.Nodup := by
  induction root using induct with
  | node node ih =>
    obtain ⟨hnode, hchildren⟩ := throughout_iff.mp h
    rw [places_eq]
    refine List.nodup_append.mpr ⟨?_, List.nodup_flatMap.mpr ⟨fun child hc => ?_, ?_⟩, ?_⟩
    · exact hnode.tidy.paired.nodup.map fun _ _ he => (Prod.mk.inj he).2
    · refine (ih child hc (hchildren child hc)).map fun a b he => ?_
      obtain ⟨hpath, hleaf⟩ := Prod.mk.inj he
      exact Prod.ext (List.cons.inj hpath).2 hleaf
    · -- Places below different children start with different names.
      refine (List.pairwise_map.mp hnode.tidy.increasing.nodup).imp fun {a b} hne => ?_
      intro place ha hb
      obtain ⟨_, -, rfl⟩ := List.mem_map.mp ha
      obtain ⟨_, -, he⟩ := List.mem_map.mp hb
      exact hne (List.cons.inj (Prod.mk.inj he).1).1.symm
    · intro place hl other hc he
      obtain ⟨leaf, -, rfl⟩ := List.mem_map.mp hl
      obtain ⟨child, -, hc⟩ := List.mem_flatMap.mp hc
      obtain ⟨below, -, rfl⟩ := List.mem_map.mp hc
      cases he

theorem count_places_eq_one_iff {root : Node} (h : root.Throughout Orderly) {path : List String}
    {leaf : Leaf} : root.places.count (path, leaf) = 1 ↔ root.Has path leaf := by
  rw [← mem_places_iff, (nodup_places h).count]
  split
  · next hm => exact iff_of_true rfl hm
  · next hm => exact iff_of_false Nat.zero_ne_one hm

end Node

end Accessors.Symbol

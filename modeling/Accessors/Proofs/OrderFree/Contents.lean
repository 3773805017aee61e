import Accessors.Namespace.Files
import Accessors.Proofs.Namespace.Assembly
import Accessors.Proofs.Permutation
import Accessors.Proofs.Symbol.Texts

/-!
# Contents without an order

Contents that are assembled from members do not depend on the order of the members: those that are
kept are put together in the order of their identifiers. The same holds of what can be seen of them,
if a view of the contents is put together from views of the parts.
-/

namespace Accessors.Namespace

open Accessors.Symbol (Leaf Node)

namespace Contents

def edit (onLeaf : Leaf → Leaf) (onChild : Node → Node) (contents : Contents) : Contents :=
  ⟨contents.leaves.map onLeaf, contents.children.map onChild, contents.checks⟩

theorem edit_concat (onLeaf : Leaf → Leaf) (onChild : Node → Node) (parts : List Contents) :
    (concat parts).edit onLeaf onChild = concat (parts.map (edit onLeaf onChild)) := by
  simp [edit, concat, List.map_flatMap, List.flatMap_map]

theorem edit_node (onLeaf : Leaf → Leaf) (onChild : Node → Node) (name : String)
    (contents : Contents) :
    (contents.node name).edit onLeaf onChild = (contents.edit onLeaf onChild).node name := by
  obtain ⟨leaves, children, checks⟩ := contents
  cases checks <;> rfl

theorem edit_ofChild (onLeaf : Leaf → Leaf) (onChild : Node → Node) (child : Node) :
    (ofChild child).edit onLeaf onChild = ofChild (onChild child) := rfl

def withoutTexts : Contents → Contents := edit Leaf.withoutTexts Node.withoutTexts

theorem withoutTexts_concat (parts : List Contents) :
    (concat parts).withoutTexts = concat (parts.map withoutTexts) := edit_concat ..

theorem withoutTexts_node (name : String) (contents : Contents) :
    (contents.node name).withoutTexts = contents.withoutTexts.node name := by
  rw [Node.withoutTexts_eq_edit, edit_node]
  rfl

theorem withoutTexts_ofLeaves (leaves : List Leaf) :
    (ofLeaves leaves).withoutTexts = ofLeaves (leaves.map Leaf.withoutTexts) := rfl

theorem withoutTexts_ofChild (child : Node) :
    (ofChild child).withoutTexts = ofChild child.withoutTexts := edit_ofChild ..

end Contents

variable {view : Contents → Contents} {what scope : String} {members xs ys : List Member}

def views (view : Contents → Contents) (members : List Member) : List (String × Contents) :=
  members.map fun member => (member.name, view member.contents.value)

def keptViews (view : Contents → Contents) (members : List Member) : List (String × Contents) :=
  (keptMembers members).map fun named => (named.identifier, view named.item.contents.value)

theorem mem_keptViews_iff {identifier : String} {contents : Contents} :
    (identifier, contents) ∈ keptViews view members ↔ identifier ≠ "" ∧
      ((views view members).map fun pair => (Identifier.ofName pair.1, pair.2)).filter
        (·.1 == identifier) = [(identifier, contents)] := by
  have hviews : (views view members).map (fun pair => (Identifier.ofName pair.1, pair.2)) =
      (members.map (Identifier.name Member.name)).map fun named =>
        (named.identifier, view named.item.contents.value) := by
    simp only [views, List.map_map]
    rfl
  rw [hviews, List.filter_map, List.map_eq_singleton_iff, keptViews, List.mem_map]
  constructor
  · rintro ⟨named, hnamed, he⟩
    obtain ⟨hne, hfilter⟩ := Identifier.mem_uniques_iff.mp hnamed
    obtain ⟨rfl, -⟩ := Prod.mk.inj he
    exact ⟨hne, named, hfilter, he⟩
  · rintro ⟨hne, named, hfilter, he⟩
    obtain ⟨rfl, -⟩ := Prod.mk.inj he
    exact ⟨named, Identifier.mem_uniques_iff.mpr ⟨hne, hfilter⟩, he⟩

theorem increasing_keptViews (view : Contents → Contents) (members : List Member) :
    Increasing ((keptViews view members).map Prod.fst) := by
  have hi := Identifier.increasing_uniques Member.name members
  simpa [keptViews, keptMembers, Function.comp_def] using hi

theorem keptViews_eq_of_perm (h : (views view xs).Perm (views view ys)) :
    keptViews view xs = keptViews view ys := by
  refine entries_ext (increasing_keptViews view xs) (increasing_keptViews view ys) ?_
  rintro ⟨identifier, contents⟩
  rw [mem_keptViews_iff, mem_keptViews_iff]
  have hfilter := (h.map fun pair => (Identifier.ofName pair.1, pair.2)).filter (·.1 == identifier)
  refine and_congr_right fun _ => ⟨fun he => ?_, fun he => ?_⟩
  · exact List.perm_singleton.mp (hfilter.symm.trans (he ▸ List.Perm.refl _))
  · exact List.perm_singleton.mp (hfilter.trans (he ▸ List.Perm.refl _))

theorem view_assemble (hview : ∀ parts, view (.concat parts) = .concat (parts.map view))
    (what scope : String) (members : List Member) :
    view (assemble what scope members).value =
      .concat ((keptViews view members).map Prod.snd) := by
  rw [assemble_value, hview, keptViews, List.map_map, List.map_map]
  rfl

theorem view_assemble_eq_of_perm
    (hview : ∀ parts, view (.concat parts) = .concat (parts.map view))
    (h : (views view xs).Perm (views view ys)) (what scope other : String) :
    view (assemble what scope xs).value = view (assemble what other ys).value := by
  rw [view_assemble hview, view_assemble hview, keptViews_eq_of_perm h]

theorem assemble_eq_of_perm (h : (views id xs).Perm (views id ys)) (what scope other : String) :
    (assemble what scope xs).value = (assemble what other ys).value :=
  view_assemble_eq_of_perm (fun parts => by rw [List.map_id, id]) h what scope other

theorem fonts_eq_of_perm {xs ys : List Record.Font} (h : xs.Perm ys) :
    (fonts xs).value = (fonts ys).value :=
  assemble_eq_of_perm ((h.map _).map _) _ _ _

theorem files_eq_of_perm (options : Options) {xs ys : List Record.BundledFile} (h : xs.Perm ys) :
    (files options xs).value = (files options ys).value :=
  assemble_eq_of_perm ((h.map _).map _) _ _ _

end Accessors.Namespace

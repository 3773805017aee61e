import Accessors.Proofs.Namespace.Assembly
import Accessors.Proofs.Symbol.Places

/-!
# Namespaces of several levels

The items of a level have titles. An item has a leaf, or further items on a level below it. Where a
namespace is assembled of such items, level by level, its tree has the leaf of an item just if the
item is exposed: on each level on the way to it, and on its own, the identifier of the title is not
empty and no other item has it. The way there is the path of these identifiers.
-/

namespace Accessors.Namespace

open Identifier (ofName)
open Accessors.Symbol (Leaf Node)

variable {α : Type}

/-- Items with titles. An item has a leaf, which may depend on the titles of the items that it is
below, or items below it. -/
structure Levels (α : Type) where
  title : α → String
  below : α → List α
  leaf? : List String → α → Option Leaf

namespace Levels

structure Lone (levels : Levels α) (level : List α) (item : α) : Prop where
  named : ofName (levels.title item) ≠ ""
  only : level.filter (fun other => ofName (levels.title other) == ofName (levels.title item)) =
    [item]

inductive Reaches (levels : Levels α) : List α → List String → α → Prop
  | here {level : List α} {item : α} (mem : item ∈ level) : Reaches levels level [] item
  | deeper {level : List α} {step item : α} {chain : List String} (mem : step ∈ level)
      (inner : Reaches levels (levels.below step) chain item) :
      Reaches levels level (levels.title step :: chain) item

/-- The chain leads to the item, and at every step the identifier belongs to one item only. -/
inductive Exposes (levels : Levels α) : List α → List String → α → Prop
  | here {level : List α} {item : α} (lone : levels.Lone level item) : Exposes levels level [] item
  | deeper {level : List α} {step item : α} {chain : List String} (lone : levels.Lone level step)
      (inner : Exposes levels (levels.below step) chain item) :
      Exposes levels level (levels.title step :: chain) item

variable {levels : Levels α} {level : List α} {item other : α} {chain front : List String}

namespace Lone

theorem mem (h : levels.Lone level item) : item ∈ level :=
  List.mem_of_mem_filter (h.only ▸ List.mem_singleton_self item)

theorem eq (h : levels.Lone level item) (hm : other ∈ level)
    (ht : ofName (levels.title other) = ofName (levels.title item)) : other = item := by
  have hfilter : other ∈ [item] := h.only ▸ List.mem_filter.mpr ⟨hm, beq_iff_eq.mpr ht⟩
  exact List.mem_singleton.mp hfilter

end Lone

namespace Exposes

theorem reaches (h : levels.Exposes level chain item) : levels.Reaches level chain item := by
  induction h with
  | here lone => exact .here lone.mem
  | deeper lone inner ih => exact .deeper lone.mem ih

theorem nil_iff : levels.Exposes level [] item ↔ levels.Lone level item := by
  constructor
  · rintro ⟨lone⟩
    exact lone
  · exact .here

theorem cons_iff {title : String} : levels.Exposes level (title :: chain) item ↔
    ∃ step, levels.title step = title ∧ levels.Lone level step ∧
      levels.Exposes (levels.below step) chain item := by
  constructor
  · intro h
    generalize hsteps : title :: chain = steps at h
    cases h with
    | here lone => cases hsteps
    | deeper lone inner =>
      obtain ⟨rfl, rfl⟩ := List.cons.inj hsteps
      exact ⟨_, rfl, lone, inner⟩
  · rintro ⟨step, rfl, lone, inner⟩
    exact .deeper lone inner

theorem eq_of_reaches (h : levels.Exposes level chain item) {others : List String}
    (hr : levels.Reaches level others other) (hchain : others.map ofName = chain.map ofName)
    (ht : ofName (levels.title other) = ofName (levels.title item)) :
    others = chain ∧ other = item := by
  induction h generalizing others with
  | here lone =>
    cases hr with
    | here mem => exact ⟨rfl, lone.eq mem ht⟩
    | deeper mem inner => cases hchain
  | deeper lone inner ih =>
    cases hr with
    | here mem => cases hchain
    | deeper mem hr =>
      obtain ⟨hstep, hbelow⟩ := List.cons.inj hchain
      cases lone.eq mem hstep
      obtain ⟨rfl, rfl⟩ := ih hr hbelow ht
      exact ⟨rfl, rfl⟩

end Exposes

/-- The leaves of the tree are those of the exposed items, each in its place and there once. -/
structure Shows (levels : Levels α) (front : List String) (level : List α) (root : Node) :
    Prop where
  nodup : root.places.Nodup
  mem_iff : ∀ path leaf, (path, leaf) ∈ root.places ↔ ∃ chain item,
    levels.Exposes level chain item ∧ levels.leaf? (front ++ chain) item = some leaf ∧
      path = chain.map ofName
  once_iff : ∀ chain item leaf, levels.Reaches level chain item →
    levels.leaf? (front ++ chain) item = some leaf →
      (root.places.count (chain.map ofName, leaf) = 1 ↔ levels.Exposes level chain item)

def contents (member : List String → α → Member) (front : List String) (level : List α) :
    Contents :=
  .concat ((keptMembers (level.map (member front))).map (·.item.contents.value))

/-- The members of the items have their leaves or, in a child, what the levels below are assembled
to. They give the notices of these. -/
structure Builds (levels : Levels α) (member : List String → α → Member) : Prop where
  name : ∀ front item, (member front item).name = levels.title item
  leaf : ∀ front item leaf, levels.leaf? front item = some leaf →
    levels.below item = [] ∧ leaf.name = ofName (levels.title item) ∧
      (member front item).contents.value = .ofLeaves [leaf]
  child : ∀ front item, levels.leaf? front item = none →
    (member front item).contents.value = .ofChild ((contents member (front ++ [levels.title item])
      (levels.below item)).node (ofName (levels.title item)))
  notices : ∀ front item, levels.leaf? front item = none → ∃ what scope,
    (assemble what scope ((levels.below item).map (member (front ++ [levels.title item])))).notices
      <:+: (member front item).contents.notices

namespace Builds

variable {member : List String → α → Member}

theorem group_eq (h : levels.Builds member) (front : List String) (level : List α) :
    Identifier.group Member.name (level.map (member front)) =
      { uniques := (Identifier.group levels.title level).uniques.map
          (Identifier.Named.map (member front))
        duplicates := (Identifier.group levels.title level).duplicates
        empties := (Identifier.group levels.title level).empties } := by
  have hname : Member.name ∘ member front = levels.title := funext (h.name front)
  rw [Identifier.group_map, hname]

theorem exists_kept_iff (h : levels.Builds member) (front : List String) (level : List α)
    {p : Member → Prop} :
    (∃ named ∈ keptMembers (level.map (member front)), p named.item) ↔
      ∃ item, levels.Lone level item ∧ p (member front item) := by
  rw [keptMembers, h.group_eq]
  constructor
  · rintro ⟨named, hnamed, hp⟩
    obtain ⟨held, hheld, rfl⟩ := List.mem_map.mp hnamed
    obtain ⟨hne, honly⟩ := Identifier.mem_items_uniques_iff.mp (List.mem_map_of_mem hheld)
    exact ⟨held.item, ⟨hne, honly⟩, hp⟩
  · rintro ⟨item, ⟨hne, honly⟩, hp⟩
    obtain ⟨held, hheld, rfl⟩ := List.mem_map.mp (Identifier.mem_items_uniques_iff.mpr ⟨hne, honly⟩)
    exact ⟨_, List.mem_map_of_mem hheld, hp⟩

theorem mem_leaves_iff (h : levels.Builds member) {leaf : Leaf} :
    leaf ∈ (contents member front level).leaves ↔
      ∃ item, levels.Lone level item ∧ levels.leaf? front item = some leaf := by
  have hkept := h.exists_kept_iff front level
    (p := fun member => leaf ∈ member.contents.value.leaves)
  rw [contents]
  simp only [Contents.concat, List.flatMap_map, List.mem_flatMap]
  refine hkept.trans (exists_congr fun item => and_congr_right fun _ => ?_)
  cases hleaf : levels.leaf? front item with
  | none =>
    rw [h.child front item hleaf]
    exact iff_of_false List.not_mem_nil fun he => Option.some_ne_none leaf he.symm
  | some held =>
    rw [(h.leaf front item held hleaf).2.2, Option.some_inj]
    exact List.mem_singleton.trans eq_comm

theorem mem_children_iff (h : levels.Builds member) {child : Node} :
    child ∈ (contents member front level).children ↔
      ∃ item, levels.Lone level item ∧ levels.leaf? front item = none ∧
        child = (contents member (front ++ [levels.title item]) (levels.below item)).node
          (ofName (levels.title item)) := by
  have hkept := h.exists_kept_iff front level
    (p := fun member => child ∈ member.contents.value.children)
  rw [contents]
  simp only [Contents.concat, List.flatMap_map, List.mem_flatMap]
  refine hkept.trans (exists_congr fun item => and_congr_right fun _ => ?_)
  cases hleaf : levels.leaf? front item with
  | none =>
    rw [h.child front item hleaf]
    exact List.mem_singleton.trans (and_iff_right rfl).symm
  | some held =>
    rw [(h.leaf front item held hleaf).2.2]
    exact iff_of_false List.not_mem_nil fun he => Option.some_ne_none held he.1

theorem length_children (h : levels.Builds member)
    (hnone : ∀ item ∈ level, levels.leaf? front item = none) :
    (contents member front level).children.length =
      (Identifier.group levels.title level).uniques.length := by
  have hone : ∀ named ∈ (Identifier.group levels.title level).uniques,
      (member front named.item).contents.value.children.length = 1 := by
    intro named hnamed
    obtain ⟨item, hm, rfl⟩ := Identifier.exists_of_mem_uniques hnamed
    rw [Identifier.name, h.child front item (hnone item hm)]
    rfl
  rw [contents, keptMembers, h.group_eq]
  simp only [Contents.concat, List.map_map, List.flatMap_map, List.length_flatMap]
  refine (congrArg List.sum (List.map_congr_left hone)).trans ?_
  rw [List.map_const', List.sum_replicate_nat, Nat.mul_one]

theorem leaf?_eq_none (h : levels.Builds member) (front : List String)
    (hexposes : levels.Exposes (levels.below item) chain other) :
    levels.leaf? front item = none := by
  cases hleaf : levels.leaf? front item with
  | none => rfl
  | some leaf =>
    rw [(h.leaf front item leaf hleaf).1] at hexposes
    cases hexposes with
    | here lone => cases lone.mem
    | deeper lone inner => cases lone.mem

theorem has_iff (h : levels.Builds member) (name : String) {path : List String} {leaf : Leaf} :
    ((contents member front level).node name).Has path leaf ↔
      ∃ chain item, levels.Exposes level chain item ∧
        levels.leaf? (front ++ chain) item = some leaf ∧ path = chain.map ofName := by
  induction path generalizing front level name with
  | nil =>
    rw [Node.has_nil, Contents.leaves_node, h.mem_leaves_iff]
    constructor
    · rintro ⟨item, lone, hleaf⟩
      exact ⟨[], item, .here lone, by rwa [List.append_nil], rfl⟩
    · rintro ⟨chain, item, hexposes, hleaf, hpath⟩
      obtain rfl := List.map_eq_nil_iff.mp hpath.symm
      cases hexposes with
      | here lone => exact ⟨item, lone, by rwa [List.append_nil] at hleaf⟩
  | cons step path ih =>
    constructor
    · rintro ⟨node, ⟨child, hc, hname, hn⟩, hl⟩
      rw [Contents.children_node] at hc
      obtain ⟨item, lone, -, rfl⟩ := h.mem_children_iff.mp hc
      obtain ⟨chain, target, hexposes, hleaf, rfl⟩ := (ih _).mp ⟨node, hn, hl⟩
      rw [Contents.name_node] at hname
      refine ⟨levels.title item :: chain, target, .deeper lone hexposes, ?_, ?_⟩
      · rwa [List.append_cons]
      · rw [List.map_cons, hname]
    · rintro ⟨chain, target, hexposes, hleaf, hpath⟩
      cases hexposes with
      | here lone => cases hpath
      | @deeper _ item _ chain lone inner =>
        obtain ⟨rfl, rfl⟩ := List.cons.inj hpath
        rw [List.append_cons] at hleaf
        obtain ⟨node, hn, hl⟩ := (ih (ofName (levels.title item))).mpr
          ⟨chain, target, inner, hleaf, rfl⟩
        refine ⟨node, ⟨_, ?_, Contents.name_node _ _, hn⟩, hl⟩
        rw [Contents.children_node]
        exact h.mem_children_iff.mpr ⟨item, lone, h.leaf?_eq_none front inner, rfl⟩

theorem infix_of_lone (h : levels.Builds member) (what scope : String) (front : List String)
    (lone : levels.Lone level item) : (member front item).contents.notices <:+:
      (assemble what scope (level.map (member front))).notices := by
  obtain ⟨named, hnamed, he⟩ := (h.exists_kept_iff front level
    (p := fun other => other.contents.notices = (member front item).contents.notices)).mpr
      ⟨item, lone, rfl⟩
  have hmem := List.mem_map_of_mem (f := fun named => named.item.contents.notices) hnamed
  rw [assemble_notices, ← he, List.flatMap_def]
  exact (List.infix_of_mem_flatten hmem).trans (List.suffix_append ..).isInfix

theorem infix_notices (h : levels.Builds member) {what scope : String}
    (hexposes : levels.Exposes level chain item) :
    (member (front ++ chain) item).contents.notices <:+:
      (assemble what scope (level.map (member front))).notices := by
  induction hexposes generalizing front what scope with
  | here lone =>
    rw [List.append_nil]
    exact h.infix_of_lone what scope front lone
  | @deeper level step item chain lone inner ih =>
    have hnone := h.leaf?_eq_none front inner
    obtain ⟨inside, below, hwithin⟩ := h.notices front step hnone
    rw [List.append_cons]
    exact (ih.trans hwithin).trans (h.infix_of_lone what scope front lone)

theorem leads (h : levels.Builds member) (name : String)
    (hexposes : levels.Exposes level chain item)
    (hnone : levels.leaf? (front ++ chain) item = none) :
    ((contents member front level).node name).Leads
      (chain.map ofName ++ [ofName (levels.title item)])
      ((contents member (front ++ chain ++ [levels.title item]) (levels.below item)).node
        (ofName (levels.title item))) := by
  induction hexposes generalizing front name with
  | here lone =>
    rw [List.append_nil] at hnone ⊢
    refine ⟨_, ?_, Contents.name_node _ _, rfl⟩
    rw [Contents.children_node]
    exact h.mem_children_iff.mpr ⟨_, lone, hnone, rfl⟩
  | @deeper level step item chain lone inner ih =>
    rw [List.append_cons front] at hnone ⊢
    refine ⟨_, ?_, Contents.name_node _ _, ih _ hnone⟩
    rw [Contents.children_node]
    exact h.mem_children_iff.mpr ⟨step, lone, h.leaf?_eq_none front inner, rfl⟩

theorem shows (h : levels.Builds member) {what scope : String}
    (ho : (assemble what scope (level.map (member front))).value.Orderly) (name : String) :
    levels.Shows front level
      ((assemble what scope (level.map (member front))).value.node name) := by
  have hhas : ∀ path leaf,
      ((assemble what scope (level.map (member front))).value.node name).Has path leaf ↔
        ∃ chain item, levels.Exposes level chain item ∧
          levels.leaf? (front ++ chain) item = some leaf ∧ path = chain.map ofName := by
    intro path leaf
    rw [assemble_value]
    exact h.has_iff name
  refine ⟨Node.nodup_places (ho.node name), fun path leaf => ?_, fun chain item leaf hr hl => ?_⟩
  · rw [Node.mem_places_iff, hhas]
  · rw [Node.count_places_eq_one_iff (ho.node name), hhas]
    constructor
    · rintro ⟨others, other, hexposes, hother, hchain⟩
      have ht : ofName (levels.title item) = ofName (levels.title other) :=
        (h.leaf _ _ _ hl).2.1.symm.trans (h.leaf _ _ _ hother).2.1
      obtain ⟨rfl, rfl⟩ := hexposes.eq_of_reaches hr hchain ht
      exact hexposes
    · intro hexposes
      exact ⟨chain, item, hexposes, hl, rfl⟩

end Builds

end Levels

end Accessors.Namespace

import Accessors.Namespace.Contents
import Accessors.Proofs.Identifier.Grouping
import Accessors.Proofs.Identifier.Name
import Accessors.Proofs.Symbol.Orderly

/-!
# Assembled contents

What a namespace is assembled from stays: a leaf or child of a member that is alone with its
identifier is a leaf or child of the whole. If each member has all its leaves and children under its
identifier, the assembled contents are orderly; if assembling gives no notice, nothing is left out.
-/

namespace Accessors.Namespace

open Accessors.Symbol (ChecksOnly Leaf Node Paired Proper Step Tidy stepsOf)

namespace Contents

variable {contents : Contents}

@[simp] theorem name_node (name : String) (contents : Contents) :
    (contents.node name).name = name := by
  unfold node Node.setChecks
  split <;> rfl

@[simp] theorem leaves_node (name : String) (contents : Contents) :
    (contents.node name).leaves = contents.leaves := by
  unfold node Node.setChecks
  split <;> rfl

@[simp] theorem children_node (name : String) (contents : Contents) :
    (contents.node name).children = contents.children := by
  unfold node Node.setChecks
  split <;> rfl

theorem rename_node (name other : String) (contents : Contents) :
    { contents.node name with name := other } = contents.node other := by
  unfold node Node.setChecks
  split <;> rfl

theorem stepsOf_node (name : String) (contents : Contents) :
    stepsOf (contents.node name).validation = contents.checks.map Step.check := by
  unfold node Node.setChecks
  split
  · next hempty =>
    rw [List.isEmpty_iff.mp hempty]
    rfl
  · rfl

theorem checksOnly_node (name : String) (contents : Contents) :
    ChecksOnly (stepsOf (contents.node name).validation) := by
  rw [stepsOf_node]
  intro step hs
  obtain ⟨expression, -, rfl⟩ := List.mem_map.mp hs
  exact ⟨expression, rfl⟩

theorem validatable_node (name : String) (contents : Contents) :
    (contents.node name).validatable = (contents.node name).validation.isSome := by
  unfold node Node.setChecks
  split <;> rfl

structure Orderly (contents : Contents) : Prop where
  tidy : Tidy contents.leaves contents.children
  below : ∀ child ∈ contents.children, child.Throughout Node.Orderly

theorem Orderly.node (h : contents.Orderly) (name : String) :
    (contents.node name).Throughout Node.Orderly := by
  refine Node.throughout_iff.mpr ⟨⟨?_, checksOnly_node name contents,
    validatable_node name contents⟩, ?_⟩
  · simpa using h.tidy
  · simpa using h.below

/-- Leaves of one name, a constant or a function or both, or an orderly child of that name. -/
inductive Under (identifier : String) : Contents → Prop
  | leaves {leaves : List Leaf} {checks : List String} (paired : Paired leaves)
      (named : ∀ leaf ∈ leaves, leaf.name = identifier) : Under identifier ⟨leaves, [], checks⟩
  | child {child : Node} (named : child.name = identifier)
      (orderly : child.Throughout Node.Orderly) : Under identifier (.ofChild child)

theorem Under.name_leaf {identifier : String} (h : contents.Under identifier) :
    ∀ leaf ∈ contents.leaves, leaf.name = identifier := by
  cases h with
  | leaves paired named => exact named
  | child named orderly => exact fun leaf hl => absurd hl List.not_mem_nil

theorem Under.name_child {identifier : String} (h : contents.Under identifier) :
    ∀ child ∈ contents.children, child.name = identifier := by
  cases h with
  | leaves paired named => exact fun child hc => absurd hc List.not_mem_nil
  | child named orderly => exact fun child hc => List.mem_singleton.mp hc ▸ named

theorem Under.orderly {identifier : String} (hp : Proper identifier)
    (h : contents.Under identifier) : contents.Orderly where
  tidy :=
    { increasing := by
        cases h with
        | leaves paired named => exact List.Pairwise.nil
        | child named orderly => exact List.pairwise_singleton ..
      apart := by
        cases h with
        | leaves paired named => exact fun _ _ child hc => absurd hc List.not_mem_nil
        | child named orderly => exact fun leaf hl => absurd hl List.not_mem_nil
      paired := by
        cases h with
        | leaves paired named => exact paired
        | child named orderly => exact .nil
      properLeaves := fun leaf hl => h.name_leaf leaf hl ▸ hp
      properChildren := fun child hc => h.name_child child hc ▸ hp }
  below := by
    cases h with
    | leaves paired named => exact fun child hc => absurd hc List.not_mem_nil
    | child named orderly => exact fun child hc => List.mem_singleton.mp hc ▸ orderly

theorem concat_cons (first : Contents) (rest : List Contents) :
    concat (first :: rest) = first ++ concat rest := rfl

theorem Orderly.append {a b : Contents} (ha : a.Orderly) (hb : b.Orderly)
    (hleaves : ∀ x ∈ a.leaves, ∀ y ∈ b.leaves, y.name ≠ x.name)
    (hchildren : ∀ x ∈ a.children, ∀ y ∈ b.children, x.name < y.name)
    (hleft : ∀ x ∈ a.leaves, ∀ y ∈ b.children, x.name ≠ y.name)
    (hright : ∀ x ∈ a.children, ∀ y ∈ b.leaves, y.name ≠ x.name) : (a ++ b).Orderly where
  tidy :=
    { increasing := by
        show Increasing ((a.children ++ b.children).map Node.name)
        rw [List.map_append]
        refine List.pairwise_append.mpr ⟨ha.tidy.increasing, hb.tidy.increasing, ?_⟩
        intro x hx y hy
        obtain ⟨child, hc, rfl⟩ := List.mem_map.mp hx
        obtain ⟨other, ho, rfl⟩ := List.mem_map.mp hy
        exact hchildren child hc other ho
      apart := by
        intro leaf hl child hc
        rcases List.mem_append.mp hl with hl | hl <;> rcases List.mem_append.mp hc with hc | hc
        · exact ha.tidy.apart leaf hl child hc
        · exact hleft leaf hl child hc
        · exact hright child hc leaf hl
        · exact hb.tidy.apart leaf hl child hc
      paired := ha.tidy.paired.append hb.tidy.paired hleaves
      properLeaves := fun leaf hl => (List.mem_append.mp hl).elim
        (ha.tidy.properLeaves leaf) (hb.tidy.properLeaves leaf)
      properChildren := fun child hc => (List.mem_append.mp hc).elim
        (ha.tidy.properChildren child) (hb.tidy.properChildren child) }
  below := fun child hc => (List.mem_append.mp hc).elim (ha.below child) (hb.below child)

theorem orderly_empty : empty.Orderly where
  tidy := ⟨List.Pairwise.nil, nofun, .nil, nofun, nofun⟩
  below := nofun

variable {parts : List (String × Contents)}

theorem exists_leaf_of_mem_concat (hu : ∀ part ∈ parts, part.2.Under part.1) {leaf : Leaf}
    (h : leaf ∈ (concat (parts.map Prod.snd)).leaves) : leaf.name ∈ parts.map Prod.fst := by
  obtain ⟨contents, hc, hl⟩ := List.mem_flatMap.mp h
  obtain ⟨part, hp, rfl⟩ := List.mem_map.mp hc
  exact (hu part hp).name_leaf leaf hl ▸ List.mem_map_of_mem hp

theorem exists_child_of_mem_concat (hu : ∀ part ∈ parts, part.2.Under part.1) {child : Node}
    (h : child ∈ (concat (parts.map Prod.snd)).children) : child.name ∈ parts.map Prod.fst := by
  obtain ⟨contents, hc, hl⟩ := List.mem_flatMap.mp h
  obtain ⟨part, hp, rfl⟩ := List.mem_map.mp hc
  exact (hu part hp).name_child child hl ▸ List.mem_map_of_mem hp

theorem orderly_concat (hi : Increasing (parts.map Prod.fst))
    (hp : ∀ part ∈ parts, Proper part.1) (hu : ∀ part ∈ parts, part.2.Under part.1) :
    (concat (parts.map Prod.snd)).Orderly := by
  induction parts with
  | nil => exact orderly_empty
  | cons part rest ih =>
    obtain ⟨hfirst, hrest⟩ := List.pairwise_cons.mp hi
    have hur := fun other ho => hu other (List.mem_cons_of_mem part ho)
    have hpart := hu part (List.mem_cons_self ..)
    have hne : ∀ name ∈ rest.map Prod.fst, name ≠ part.1 := fun name hm he =>
      String.lt_irrefl part.1 (he ▸ hfirst name hm)
    rw [List.map_cons, concat_cons]
    refine Orderly.append (hpart.orderly (hp part (List.mem_cons_self ..)))
      (ih hrest (fun other ho => hp other (List.mem_cons_of_mem _ ho)) hur) ?_ ?_ ?_ ?_
    · intro x hx y hy
      exact hpart.name_leaf x hx ▸ hne _ (exists_leaf_of_mem_concat hur hy)
    · intro x hx y hy
      exact hpart.name_child x hx ▸ hfirst _ (exists_child_of_mem_concat hur hy)
    · intro x hx y hy
      exact hpart.name_leaf x hx ▸ (hne _ (exists_child_of_mem_concat hur hy)).symm
    · intro x hx y hy
      exact hpart.name_child x hx ▸ hne _ (exists_leaf_of_mem_concat hur hy)

end Contents

variable {what scope : String} {members : List Member} {member : Member}

def keptMembers (members : List Member) : List (Identifier.Named Member) :=
  (Identifier.group Member.name members).uniques

theorem assemble_value (what scope : String) (members : List Member) :
    (assemble what scope members).value =
      .concat ((keptMembers members).map (·.item.contents.value)) := by
  simp [assemble, keptMembers, Identifier.uniques, Function.comp_def]

theorem assemble_notices (what scope : String) (members : List Member) :
    (assemble what scope members).notices =
      (Identifier.group Member.name members).notices what scope ++
        (keptMembers members).flatMap (·.item.contents.notices) := by
  simp [assemble, keptMembers, Identifier.uniques, List.flatMap_map]

theorem mem_keptMembers {named : Identifier.Named Member} (h : named ∈ keptMembers members) :
    named.item ∈ members ∧ named.identifier = Identifier.ofName named.item.name ∧
      named.identifier ≠ "" := by
  obtain ⟨member, hm, rfl⟩ := Identifier.exists_of_mem_uniques h
  exact ⟨hm, rfl, (Identifier.mem_uniques_iff.mp h).1⟩

theorem assemble_orderly
    (hu : ∀ member ∈ members, member.contents.value.Under (Identifier.ofName member.name)) :
    (assemble what scope members).value.Orderly := by
  let parts := (keptMembers members).map fun named =>
    (named.identifier, named.item.contents.value)
  have hvalue : (assemble what scope members).value = .concat (parts.map Prod.snd) := by
    simp [assemble_value, parts, Function.comp_def]
  rw [hvalue]
  refine Contents.orderly_concat ?_ ?_ ?_
  · have hi := Identifier.increasing_uniques Member.name members
    simpa [parts, Function.comp_def, keptMembers] using hi
  · intro part hp
    obtain ⟨named, hn, rfl⟩ := List.mem_map.mp hp
    obtain ⟨-, hid, hne⟩ := mem_keptMembers hn
    exact ⟨hne, hid ▸ Identifier.dot_not_mem_ofName _⟩
  · intro part hp
    obtain ⟨named, hn, rfl⟩ := List.mem_map.mp hp
    obtain ⟨hm, hid, -⟩ := mem_keptMembers hn
    exact hid ▸ hu named.item hm

theorem mem_leaves_assemble {leaf : Leaf} :
    leaf ∈ (assemble what scope members).value.leaves ↔
      ∃ named ∈ keptMembers members, leaf ∈ named.item.contents.value.leaves := by
  simp only [assemble_value, Contents.concat, List.flatMap_map, List.mem_flatMap]

theorem mem_children_assemble {child : Node} :
    child ∈ (assemble what scope members).value.children ↔
      ∃ named ∈ keptMembers members, child ∈ named.item.contents.value.children := by
  simp only [assemble_value, Contents.concat, List.flatMap_map, List.mem_flatMap]

theorem children_assemble_eq_nil (what scope : String)
    (h : ∀ member ∈ members, member.contents.value.children = []) :
    (assemble what scope members).value.children = [] := by
  apply List.eq_nil_iff_forall_not_mem.mpr
  intro child hc
  obtain ⟨named, hnamed, hc⟩ := mem_children_assemble.mp hc
  rw [h named.item (mem_keptMembers hnamed).1] at hc
  cases hc

theorem Contents.has_of_children_eq_nil {contents : Contents} (h : contents.children = [])
    {name : String} {path : List String} {leaf : Leaf} (hl : (contents.node name).Has path leaf) :
    leaf ∈ contents.leaves := by
  obtain ⟨node, hn, hl⟩ := hl
  cases path with
  | nil =>
    rw [Node.leads_nil.mp hn, leaves_node] at hl
    exact hl
  | cons step below =>
    obtain ⟨child, hc, -⟩ := Node.leads_cons.mp hn
    rw [children_node, h] at hc
    cases hc

theorem exists_member_of_mem_notices {notice : Notice}
    (h : notice ∈ (assemble what scope members).notices)
    (hcollision : ∀ identifier rawKeys, notice ≠ .identifierCollision what scope identifier rawKeys)
    (hempty : ∀ rawKey, notice ≠ .identifierEmpty what scope rawKey) :
    ∃ member ∈ members, notice ∈ member.contents.notices := by
  rw [assemble_notices] at h
  rcases List.mem_append.mp h with h | h
  · rcases Identifier.cases_of_mem_notices h with ⟨identifier, rawKeys, he⟩ | ⟨rawKey, he⟩
    · exact absurd he (hcollision identifier rawKeys)
    · exact absurd he (hempty rawKey)
  · obtain ⟨named, hnamed, h⟩ := List.mem_flatMap.mp h
    exact ⟨named.item, (mem_keptMembers hnamed).1, h⟩

theorem exists_child_of_has {α : Type} {items : List α} {title : α → String}
    {inner : α → Noted Contents} {name : String} {path : List String} {leaf : Leaf}
    (h : ((assemble what scope (items.map fun item =>
      .child (title item) (inner item))).value.node name).Has path leaf) :
    ∃ item ∈ items, ∃ below,
      ((inner item).value.node (Identifier.ofName (title item))).Has below leaf := by
  obtain ⟨node, hn, hl⟩ := h
  cases path with
  | nil =>
    rw [Node.leads_nil.mp hn, Contents.leaves_node] at hl
    obtain ⟨named, hnamed, hl⟩ := mem_leaves_assemble.mp hl
    obtain ⟨item, -, hitem⟩ := List.mem_map.mp (mem_keptMembers hnamed).1
    rw [← hitem] at hl
    cases hl
  | cons step below =>
    obtain ⟨child, hc, -, hn⟩ := Node.leads_cons.mp hn
    rw [Contents.children_node] at hc
    obtain ⟨named, hnamed, hc⟩ := mem_children_assemble.mp hc
    obtain ⟨item, hi, hitem⟩ := List.mem_map.mp (mem_keptMembers hnamed).1
    rw [← hitem] at hc
    exact ⟨item, hi, below, node, List.mem_singleton.mp hc ▸ hn, hl⟩

theorem filter_flatMap_eq {α β : Type} {items : List α} {f : α → List β} {p : β → Bool} {item : α}
    (hd : items.Nodup) (hm : item ∈ items)
    (ho : ∀ other ∈ items, other ≠ item → (f other).filter p = []) :
    (items.flatMap f).filter p = (f item).filter p := by
  induction items with
  | nil => cases hm
  | cons first rest ih =>
    obtain ⟨hfirst, hrest⟩ := List.nodup_cons.mp hd
    rw [List.flatMap_cons, List.filter_append]
    rcases List.mem_cons.mp hm with rfl | hm
    · have hnone : (rest.flatMap f).filter p = [] := by
        apply List.filter_eq_nil_iff.mpr
        intro b hb
        obtain ⟨other, hother, hb⟩ := List.mem_flatMap.mp hb
        have hempty := ho other (List.mem_cons_of_mem _ hother) fun he => hfirst (he ▸ hother)
        exact List.filter_eq_nil_iff.mp hempty b hb
      rw [hnone, List.append_nil]
    · rw [ho first (List.mem_cons_self ..) fun he => hfirst (he ▸ hm), List.nil_append]
      exact ih hrest hm fun other hother => ho other (List.mem_cons_of_mem _ hother)

theorem keptMembers_nodup (members : List Member) :
    ((keptMembers members).map Identifier.Named.identifier).Nodup :=
  (Identifier.increasing_uniques Member.name members).nodup

theorem keptMembers_nodup_items (members : List Member) : (keptMembers members).Nodup :=
  List.Nodup.of_map _ (keptMembers_nodup members)

theorem eq_of_identifier {a b : Identifier.Named Member} (ha : a ∈ keptMembers members)
    (hb : b ∈ keptMembers members) (h : a.identifier = b.identifier) : a = b :=
  List.inj_on_of_nodup_map (keptMembers_nodup members) ha hb h

theorem filter_notices_assemble (what scope : String) {p : Notice → Bool}
    (hcollision : ∀ identifier rawKeys,
      p (.identifierCollision what scope identifier rawKeys) = false)
    (hempty : ∀ rawKey, p (.identifierEmpty what scope rawKey) = false)
    (hk : Identifier.name Member.name member ∈ keptMembers members)
    (ho : ∀ other ∈ members, ∀ notice ∈ other.contents.notices, p notice = true →
      Identifier.ofName other.name = Identifier.ofName member.name) :
    (assemble what scope members).notices.filter p = member.contents.notices.filter p := by
  rw [assemble_notices, List.filter_append,
    Identifier.filter_notices_eq_nil _ hcollision hempty, List.nil_append,
    filter_flatMap_eq (keptMembers_nodup_items _) hk]
  · rfl
  · intro other hother hne
    apply List.filter_eq_nil_iff.mpr
    intro notice hn hp
    obtain ⟨hm, hid, -⟩ := mem_keptMembers hother
    exact hne (eq_of_identifier hother hk (hid.trans (ho other.item hm notice hn hp)))

theorem leavesNamed_assemble (what scope : String)
    (hu : ∀ member ∈ members, member.contents.value.Under (Identifier.ofName member.name))
    (hk : Identifier.name Member.name member ∈ keptMembers members) :
    (assemble what scope members).value.leaves.filter (·.name == Identifier.ofName member.name) =
      member.contents.value.leaves := by
  have hname : ∀ other ∈ keptMembers members, ∀ leaf ∈ other.item.contents.value.leaves,
      leaf.name = other.identifier := by
    intro other ho leaf hl
    obtain ⟨hm, hid, -⟩ := mem_keptMembers ho
    exact hid ▸ (hu other.item hm).name_leaf leaf hl
  have hvalue : (assemble what scope members).value.leaves =
      (keptMembers members).flatMap (·.item.contents.value.leaves) := by
    simp [assemble_value, Contents.concat, List.flatMap_map]
  rw [hvalue, filter_flatMap_eq (keptMembers_nodup_items members) hk]
  · exact List.filter_eq_self.mpr fun leaf hl => beq_iff_eq.mpr (hname _ hk leaf hl)
  · intro other ho hne
    refine List.filter_eq_nil_iff.mpr fun leaf hl he => hne (eq_of_identifier ho hk ?_)
    exact (hname other ho leaf hl).symm.trans (beq_iff_eq.mp he)

theorem infix_leaves_assemble (what scope : String)
    (hk : Identifier.name Member.name member ∈ keptMembers members) :
    member.contents.value.leaves <:+: (assemble what scope members).value.leaves := by
  obtain ⟨before, after, hsplit⟩ := List.append_of_mem hk
  refine ⟨before.flatMap (·.item.contents.value.leaves),
    after.flatMap (·.item.contents.value.leaves),
    ?_⟩
  simp [assemble_value, Contents.concat, List.flatMap_map, hsplit, Identifier.name]

theorem Member.child_under {name : String} {contents : Noted Contents}
    (h : contents.value.Orderly) :
    (Member.child name contents).contents.value.Under (Identifier.ofName name) :=
  .child (Contents.name_node _ _) (h.node _)

@[simp] theorem notices_child (name : String) (contents : Noted Contents) :
    (Member.child name contents).contents.notices = contents.notices := by
  simp [Member.child]

/-- Everything that the member has to give is in the contents, and it gives no notice. -/
structure Member.Kept (member : Member) (contents : Contents) : Prop where
  quiet : member.contents.notices = []
  leaves : ∀ leaf ∈ member.contents.value.leaves, leaf ∈ contents.leaves
  children : ∀ child ∈ member.contents.value.children, child ∈ contents.children

theorem kept_of_notices_eq_nil (h : (assemble what scope members).notices = [])
    (hm : member ∈ members) : member.Kept (assemble what scope members).value := by
  rw [assemble_notices, List.append_eq_nil_iff] at h
  have hk : Identifier.name Member.name member ∈ keptMembers members :=
    Identifier.mem_uniques_of_notices_eq_nil h.1 hm
  exact ⟨List.flatMap_eq_nil_iff.mp h.2 _ hk, fun _ hl => mem_leaves_assemble.mpr ⟨_, hk, hl⟩,
    fun _ hc => mem_children_assemble.mpr ⟨_, hk, hc⟩⟩

namespace Member.Kept

variable {name : String} {inner : Noted Contents} {contents : Contents}

theorem quiet_child (h : (Member.child name inner).Kept contents) : inner.notices = [] := by
  simpa using h.quiet

theorem leads_child (h : (Member.child name inner).Kept contents) (whole : String)
    {path : List String} {node : Node}
    (hn : (inner.value.node (Identifier.ofName name)).Leads path node) :
    (contents.node whole).Leads (Identifier.ofName name :: path) node := by
  refine ⟨inner.value.node (Identifier.ofName name), ?_, Contents.name_node _ _, hn⟩
  rw [Contents.children_node]
  exact h.children _ (List.mem_singleton_self _)

theorem has_child (h : (Member.child name inner).Kept contents) (whole : String)
    {path : List String} {leaf : Leaf}
    (hl : (inner.value.node (Identifier.ofName name)).Has path leaf) :
    (contents.node whole).Has (Identifier.ofName name :: path) leaf := by
  obtain ⟨node, hn, hl⟩ := hl
  exact ⟨node, h.leads_child whole hn, hl⟩

theorem has_leaf {member : Member} (h : member.Kept contents) (whole : String) {leaf : Leaf}
    (hl : leaf ∈ member.contents.value.leaves) : (contents.node whole).Has [] leaf := by
  rw [Node.has_nil, Contents.leaves_node]
  exact h.leaves leaf hl

end Member.Kept

end Accessors.Namespace

import Accessors.Symbol.Validation

/-!
# Paths in the tree of symbols

A path is a list of names; it leads from a node through children of these names. Where siblings have
distinct names a path leads to one node at most, and looking it up, also in its dotted form, finds
that node. Passing validation upwards leaves all paths as they are.
-/

namespace Accessors.Symbol.Node

def Leads (root : Node) : List String → Node → Prop
  | [], node => node = root
  | name :: path, node => ∃ child ∈ root.children, child.name = name ∧ child.Leads path node

@[simp] theorem leads_nil {root node : Node} : root.Leads [] node ↔ node = root := Iff.rfl

theorem leads_cons {root node : Node} {name : String} {path : List String} :
    root.Leads (name :: path) node ↔
      ∃ child ∈ root.children, child.name = name ∧ child.Leads path node := Iff.rfl

def Throughout (p : Node → Prop) (root : Node) : Prop :=
  ∀ path node, root.Leads path node → p node

theorem throughout_iff {p : Node → Prop} {root : Node} :
    root.Throughout p ↔ p root ∧ ∀ child ∈ root.children, child.Throughout p := by
  constructor
  · intro h
    refine ⟨h [] root rfl, fun child hc path node hn => ?_⟩
    exact h (child.name :: path) node ⟨child, hc, rfl, hn⟩
  · rintro ⟨hroot, hchildren⟩ path node hn
    cases path with
    | nil => exact leads_nil.mp hn ▸ hroot
    | cons name path =>
      obtain ⟨child, hc, -, hn⟩ := hn
      exact hchildren child hc path node hn

theorem Throughout.mono {p q : Node → Prop} {root : Node} (h : root.Throughout p)
    (hpq : ∀ node, p node → q node) : root.Throughout q :=
  fun path node hn => hpq node (h path node hn)

theorem leads_append {root node : Node} {path below : List String} :
    root.Leads (path ++ below) node ↔ ∃ inner, root.Leads path inner ∧ inner.Leads below node := by
  induction path generalizing root with
  | nil => simp
  | cons name path ih =>
    rw [List.cons_append, leads_cons]
    constructor
    · rintro ⟨child, hc, hname, hn⟩
      obtain ⟨inner, hi, hn⟩ := ih.mp hn
      exact ⟨inner, ⟨child, hc, hname, hi⟩, hn⟩
    · rintro ⟨inner, ⟨child, hc, hname, hi⟩, hn⟩
      exact ⟨child, hc, hname, ih.mpr ⟨inner, hi, hn⟩⟩

theorem Throughout.below {p : Node → Prop} {root node : Node} {path : List String}
    (h : root.Throughout p) (hn : root.Leads path node) : node.Throughout p :=
  fun below inner hi => h (path ++ below) inner (leads_append.mpr ⟨node, hn, hi⟩)

def Has (root : Node) (path : List String) (leaf : Leaf) : Prop :=
  ∃ node, root.Leads path node ∧ leaf ∈ node.leaves

theorem has_nil {root : Node} {leaf : Leaf} : root.Has [] leaf ↔ leaf ∈ root.leaves := by
  simp [Has]

@[elab_as_elim]
theorem induct {motive : Node → Prop}
    (node : ∀ node : Node, (∀ child ∈ node.children, motive child) → motive node) :
    ∀ root : Node, motive root
  | ⟨name, leaves, children, validation, validatable⟩ =>
    node ⟨name, leaves, children, validation, validatable⟩ fun child hc =>
      have : sizeOf child < sizeOf children := List.sizeOf_lt_of_mem hc
      induct node child
termination_by root => sizeOf root
decreasing_by simp only [mk.sizeOf_spec]; omega

def Distinct (node : Node) : Prop := (node.children.map Node.name).Nodup

theorem child?_eq_some_iff {node child : Node} {name : String} (hd : node.Distinct) :
    node.child? name = some child ↔ child ∈ node.children ∧ child.name = name := by
  unfold Distinct at hd
  unfold child?
  generalize node.children = children at hd
  induction children with
  | nil => simp
  | cons first rest ih =>
    rw [List.map_cons, List.nodup_cons] at hd
    by_cases hf : first.name = name
    · rw [List.find?_cons_of_pos (by simpa using hf)]
      constructor
      · rintro ⟨⟩
        exact ⟨List.mem_cons_self .., hf⟩
      · rintro ⟨hm, hn⟩
        rcases List.mem_cons.mp hm with rfl | hm
        · rfl
        · exact absurd (List.mem_map_of_mem (f := Node.name) hm) (hn ▸ hf ▸ hd.1)
    · rw [List.find?_cons_of_neg (by simpa using hf), ih hd.2, List.mem_cons]
      constructor
      · exact fun h => ⟨.inr h.1, h.2⟩
      · rintro ⟨rfl | hm, hn⟩
        · exact absurd hn hf
        · exact ⟨hm, hn⟩

theorem follow?_cons (root : Node) (name : String) (path : List String) :
    root.follow? (name :: path) = (root.child? name).bind (·.follow? path) := rfl

theorem follow?_eq_some_iff {root node : Node} {path : List String}
    (hd : root.Throughout Distinct) : root.follow? path = some node ↔ root.Leads path node := by
  induction path generalizing root with
  | nil => exact ⟨fun h => (Option.some.inj h).symm, fun h => congrArg some h.symm⟩
  | cons name path ih =>
    obtain ⟨hroot, hchildren⟩ := throughout_iff.mp hd
    rw [follow?_cons, leads_cons, Option.bind_eq_some_iff]
    constructor
    · rintro ⟨child, hc, hn⟩
      obtain ⟨hm, hname⟩ := (child?_eq_some_iff hroot).mp hc
      exact ⟨child, hm, hname, (ih (hchildren child hm)).mp hn⟩
    · rintro ⟨child, hm, hname, hn⟩
      exact ⟨child, (child?_eq_some_iff hroot).mpr ⟨hm, hname⟩, (ih (hchildren child hm)).mpr hn⟩

theorem Leads.unique {root a b : Node} {path : List String} (hd : root.Throughout Distinct)
    (ha : root.Leads path a) (hb : root.Leads path b) : a = b :=
  Option.some.inj (((follow?_eq_some_iff hd).mpr ha).symm.trans ((follow?_eq_some_iff hd).mpr hb))

theorem descendant?_intercalate (root : Node) {path : List String} (hne : path ≠ [])
    (hdot : ∀ name ∈ path, '.' ∉ name.toList) :
    root.descendant? (".".intercalate path) = root.follow? path := by
  have hsplit : (".".intercalate path).toList.splitOn '.' = path.map String.toList := by
    rw [String.toList_intercalate]
    refine List.splitOn_intercalate '.' ?_ (by simpa using hne)
    simpa using hdot
  have hback : (path.map String.toList).map String.ofList = path := by
    simp [List.map_map, Function.comp_def]
  rw [descendant?, hsplit, hback]

@[simp] theorem name_propagate (node : Node) : node.propagate.name = node.name := by
  cases node; rfl

@[simp] theorem leaves_propagate (node : Node) : node.propagate.leaves = node.leaves := by
  cases node; rfl

@[simp] theorem children_propagate (node : Node) :
    node.propagate.children = node.children.map propagate := by
  cases node with
  | mk name leaves children validation validatable => exact propagateAll_eq_map children

theorem leads_propagate_iff {root result : Node} {path : List String} :
    root.propagate.Leads path result ↔ ∃ node, root.Leads path node ∧ result = node.propagate := by
  induction path generalizing root with
  | nil => simp
  | cons name path ih =>
    rw [leads_cons, children_propagate]
    constructor
    · rintro ⟨passed, hm, hname, hr⟩
      obtain ⟨child, hc, rfl⟩ := List.mem_map.mp hm
      obtain ⟨node, hn, rfl⟩ := ih.mp hr
      exact ⟨node, ⟨child, hc, (name_propagate child).symm.trans hname, hn⟩, rfl⟩
    · rintro ⟨node, ⟨child, hc, hname, hn⟩, rfl⟩
      exact ⟨child.propagate, List.mem_map_of_mem hc, (name_propagate child).trans hname,
        ih.mpr ⟨node, hn, rfl⟩⟩

theorem throughout_propagate_iff {p : Node → Prop} {root : Node} :
    root.propagate.Throughout p ↔ root.Throughout fun node => p node.propagate := by
  constructor
  · intro h path node hn
    exact h path _ (leads_propagate_iff.mpr ⟨node, hn, rfl⟩)
  · intro h path result hr
    obtain ⟨node, hn, rfl⟩ := leads_propagate_iff.mp hr
    exact h path node hn

theorem distinct_propagate_iff {node : Node} : node.propagate.Distinct ↔ node.Distinct := by
  simp [Distinct, List.map_map, Function.comp_def]

end Accessors.Symbol.Node

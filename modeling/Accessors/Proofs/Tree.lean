import Accessors.Proofs.Namespace.Orderly

/-!
# The compiled tree

The tree that a compilation gives is orderly at every node, whatever the resources and the options.
Its root has one child for each enabled namespace that has its identifier to itself. A dotted path
of names finds the node that it leads to, and the validation that is passed upwards runs every check
of the resources once.
-/

namespace Accessors

open Identifier (ofName)
open Record (PlistValue Resources)
open Accessors.Symbol (Leaf Node Proper Step stepsOf)

variable (options : Options) (resources : Resources)

theorem contents_orderly :
    ∀ space ∈ namespaces options resources, space.contents.value.Orderly := by
  intro space hs
  rcases List.mem_append.mp hs with hs | hs
  · simp only [List.mem_cons, List.not_mem_nil, or_false] at hs
    rcases hs with rfl | rfl | rfl | rfl | rfl | rfl | rfl | rfl | rfl
    · exact Namespace.strings_orderly options resources.strings
    · exact Namespace.nibs_orderly options _
    · exact Namespace.storyboards_orderly options _
    · exact Namespace.folderContents_orderly ..
    · exact Namespace.folderContents_orderly ..
    · exact Namespace.folderContents_orderly ..
    · exact Namespace.fonts_orderly resources.fonts
    · exact Namespace.files_orderly options resources.files
    · exact Namespace.reuseIdentifiers_orderly _
  · obtain ⟨bucket, -, rfl⟩ := List.mem_map.mp hs
    exact Namespace.propertyList_orderly options bucket.1 bucket.2

theorem aggregate_orderly (rootName : String) {subtrees : List Node}
    (h : ∀ subtree ∈ subtrees, subtree.Throughout Node.Orderly) :
    (aggregate rootName subtrees).value.Throughout Node.Orderly := by
  refine Namespace.Contents.Orderly.node (Namespace.assemble_orderly fun member hm => ?_) rootName
  obtain ⟨subtree, hs, rfl⟩ := List.mem_map.mp hm
  exact .child rfl (Node.throughout_orderly_rename _ (h subtree hs))

def enabledNamespaces : List Namespace :=
  (namespaces options resources).filter (options.isEnabled ·.kind)

variable {options resources} in
theorem enabledNamespaces_eq (he : options.excludedKinds = []) :
    enabledNamespaces options resources = namespaces options resources := by
  apply List.filter_eq_self.mpr
  intro space _
  simp [Options.isEnabled, he]

theorem gather_value :
    (gather options resources).value =
      (aggregate options.rootName ((enabledNamespaces options resources).map fun space =>
        space.contents.value.node space.name)).value := by
  simp [gather, enabledNamespaces, Namespace.node, Function.comp_def]

theorem gather_orderly : (gather options resources).value.Throughout Node.Orderly := by
  rw [gather_value]
  apply aggregate_orderly options.rootName
  intro subtree hs
  obtain ⟨space, hspace, rfl⟩ := List.mem_map.mp hs
  exact (contents_orderly options resources space (List.mem_filter.mp hspace).1).node space.name

theorem compile_value :
    (compile options resources).value = (gather options resources).value.propagate := by
  simp only [compile, Noted.bind_value, Noted.pure_value]

theorem compile_notices :
    (compile options resources).notices =
      (enabledNamespaces options resources).flatMap (·.contents.notices) ++
        (aggregate options.rootName ((enabledNamespaces options resources).map fun space =>
          space.contents.value.node space.name)).notices := by
  simp [compile, gather, enabledNamespaces, Namespace.node, List.flatMap_map, Function.comp_def]

def Namespace.child (space : Namespace) : Node :=
  (space.contents.value.node (ofName space.name)).propagate

def Namespace.member (space : Namespace) : Namespace.Member :=
  .plain space.name (.ofChild (space.contents.value.node (ofName space.name)))

def keptNamespaces : List Namespace :=
  (Identifier.group Namespace.name (enabledNamespaces options resources)).uniques.map
    Identifier.Named.item

def namespaceNotices : List (ResourceKind × Notice) :=
  (enabledNamespaces options resources).flatMap fun space =>
    space.contents.notices.map fun notice => (space.kind, notice)

theorem aggregate_spaces (rootName : String) (spaces : List Namespace) :
    aggregate rootName (spaces.map fun space => space.contents.value.node space.name) = (do
      let contents ← Namespace.assemble "namespaces" rootName (spaces.map Namespace.member)
      return contents.node rootName) := by
  rw [aggregate, List.map_map]
  congr 2
  refine List.map_congr_left fun space _ => ?_
  rw [Function.comp_apply, Namespace.Contents.rename_node, Namespace.Contents.name_node,
    Namespace.member]

theorem children_assemble_member (what scope : String) (spaces : List Namespace) :
    (Namespace.assemble what scope (spaces.map Namespace.member)).value.children =
      (Identifier.group Namespace.name spaces).uniques.map fun named =>
        named.item.contents.value.node (ofName named.item.name) := by
  rw [Namespace.assemble_value, Namespace.keptMembers, Identifier.group_map, List.map_map]
  change List.flatMap Namespace.Contents.children (List.map _ _) = _
  rw [List.flatMap_map, List.map_eq_flatMap]
  rfl

theorem notices_assemble_member (what scope : String) (spaces : List Namespace) :
    (Namespace.assemble what scope (spaces.map Namespace.member)).notices =
      (Identifier.group Namespace.name spaces).notices what scope := by
  rw [Namespace.assemble_notices, Namespace.keptMembers, Identifier.group_map, List.flatMap_map]
  have hquiet : ∀ named ∈ (Identifier.group (Namespace.Member.name ∘ Namespace.member)
      spaces).uniques, (named.map Namespace.member).item.contents.notices = [] :=
    fun named _ => rfl
  rw [List.flatMap_eq_nil_iff.mpr hquiet, List.append_nil]
  rfl

/-- What a compilation makes of the enabled namespaces. -/
structure Gathered : Prop where
  children : (compile options resources).value.children =
    (keptNamespaces options resources).map Namespace.child
  notices : (compile options resources).notices =
    (namespaceNotices options resources).map Prod.snd ++
      (Identifier.group Namespace.name (enabledNamespaces options resources)).notices "namespaces"
        options.rootName

theorem gathered : Gathered options resources where
  children := by
    rw [compile_value, gather_value, aggregate_spaces, Node.children_propagate, Noted.bind_value,
      Noted.pure_value, Namespace.Contents.children_node, children_assemble_member, keptNamespaces,
      List.map_map, List.map_map]
    rfl
  notices := by
    rw [compile_notices, aggregate_spaces, Noted.bind_notices, Noted.pure_notices, List.append_nil,
      notices_assemble_member, namespaceNotices, List.map_flatMap]
    simp only [List.map_map, Function.comp_def, List.map_id']

variable {options resources} in
theorem exists_space_of_has {path : List String} {leaf : Leaf}
    (h : (compile options resources).value.Has path leaf) :
    ∃ space ∈ namespaces options resources, ∃ below,
      (space.contents.value.node (ofName space.name)).Has below leaf := by
  obtain ⟨node, hn, hl⟩ := h
  cases path with
  | nil =>
    rw [Node.leads_nil.mp hn, compile_value, Node.leaves_propagate, gather_value, aggregate_spaces,
      Noted.bind_value, Noted.pure_value, Namespace.Contents.leaves_node] at hl
    obtain ⟨named, hnamed, hl⟩ := Namespace.mem_leaves_assemble.mp hl
    obtain ⟨space, -, hitem⟩ := List.mem_map.mp (Namespace.mem_keptMembers hnamed).1
    rw [← hitem] at hl
    cases hl
  | cons step below =>
    obtain ⟨child, hc, -, hn⟩ := Node.leads_cons.mp hn
    rw [(gathered options resources).children] at hc
    obtain ⟨space, hkept, rfl⟩ := List.mem_map.mp hc
    obtain ⟨named, hnamed, rfl⟩ := List.mem_map.mp hkept
    obtain ⟨space, hs, rfl⟩ := Identifier.exists_of_mem_uniques hnamed
    obtain ⟨inner, hinner, rfl⟩ := Node.leads_propagate_iff.mp hn
    rw [Node.leaves_propagate] at hl
    exact ⟨space, (List.mem_filter.mp hs).1, below, inner, hinner, hl⟩

theorem compile_distinct : (compile options resources).value.Throughout Node.Distinct := by
  rw [compile_value, Node.throughout_propagate_iff]
  exact (gather_orderly options resources).mono fun node h =>
    Node.distinct_propagate_iff.mpr h.plain.distinct

/-- At every node the names are in order, and its dotted path finds the node. -/
theorem compile_wellNamed (path : List String) (node : Node)
    (h : (compile options resources).value.Leads path node) :
    node.WellNamed ∧ (path ≠ [] →
      (compile options resources).value.descendant? (dotted path) = some node) := by
  have hdistinct := compile_distinct options resources
  have horderly := gather_orderly options resources
  rw [compile_value] at h hdistinct ⊢
  obtain ⟨inner, hinner, rfl⟩ := Node.leads_propagate_iff.mp h
  refine ⟨Node.wellNamed_of_tidy (Node.tidy_propagate (horderly path inner hinner).tidy), ?_⟩
  intro hne
  have hproper := Node.proper_of_leads horderly hinner
  rw [dotted, Node.descendant?_intercalate _ hne fun name hm => (hproper name hm).2]
  exact (Node.follow?_eq_some_iff hdistinct).mpr h

def sampleResources : Resources where
  strings := [⟨"Main", .language "en", .ofList [("greeting", ⟨"Hello %@, %d", none, none⟩)]⟩]
  templates := [
    ⟨.nib, "Cell", .unspecified, ["UIView"], [], [⟨"cell", "Cell"⟩], ["icon"], [], none⟩,
    ⟨.storyboard, "Start", .base, ["UIViewController"], [⟨"menu", "Menu"⟩], [], [], [], none⟩]
  assets := [⟨.image, "Assets", ["tab"], "home"⟩, ⟨.color, "Assets", [], "accent"⟩]
  imageFiles := [⟨"icon@2x.png"⟩]
  fonts := [⟨"Sans.ttf", "Sans-Bold"⟩]
  files := [⟨"data/seed.json"⟩]
  propertyLists := [⟨"Info", "Debug", ⟨[("Flags", .dictionary [("beta", .bool true)])],
    by simp [PlistValue.Ordered, PlistValue.OrderedEntries, Increasing]⟩⟩]

theorem compile_wellNamed_sample : ∃ node,
    (compile .default sampleResources).value.Leads ["image", "tab"] node ∧ node.WellNamed ∧
      (compile .default sampleResources).value.descendant? "image.tab" = some node := by
  have hfound : ((compile .default sampleResources).value.follow? ["image", "tab"]).isSome =
      true := by decide +kernel
  have hleads := (Node.follow?_eq_some_iff (compile_distinct .default sampleResources)).mp
    (Option.some_get hfound).symm
  obtain ⟨hnames, hpath⟩ := compile_wellNamed .default sampleResources ["image", "tab"] _ hleads
  exact ⟨_, hleads, hnames, hpath (by decide)⟩

theorem gather_plain : (gather options resources).value.Throughout Node.Plain :=
  (gather_orderly options resources).mono fun _ h => h.plain

/-- Passing validation upwards reaches every check once, in order, and a compilation always passes
it through such a tree. -/
theorem validation_complete :
    (∀ root : Node, root.Throughout Node.Plain → root.Validated) ∧
      ∀ options resources, (gather options resources).value.Throughout Node.Plain ∧
        (compile options resources).value = (gather options resources).value.propagate :=
  ⟨fun _ => Node.validated_of_plain, fun options resources =>
    ⟨gather_plain options resources, compile_value options resources⟩⟩

theorem validation_complete_sample :
    (compile .default sampleResources).value.run =
        (gather .default sampleResources).value.allChecks ∧
      (gather .default sampleResources).value.allChecks.length = 3 := by
  obtain ⟨hplain, hvalue⟩ := validation_complete.2 .default sampleResources
  refine ⟨hvalue ▸ (validation_complete.1 _ hplain).run, ?_⟩
  decide +kernel

end Accessors

import Accessors.Proofs.Namespace.Complete
import Accessors.Proofs.Tree

/-!
# A compilation without notices loses nothing

If nothing is excluded and a compilation has nothing to note, every resource has its accessors in
the compiled tree, at the identifiers of the names that it is known by.
-/

namespace Accessors

open Identifier (ofName)
open Namespace (Reaches assetLeaf exposedType? fileLeaves fontContents resourceType reuseType)
open Record (Asset BundledFile Font ImageFile PlistValue PropertyList Resources StringTable Template
  TypedIdentifier)
open Accessors.Symbol (Leaf Node)
open Accessors.Template (Merged mergeAll)

/-- Every resource has its accessors in the tree. -/
structure Lossless (resources : Resources) (root : Node) : Prop where
  strings : ∀ record ∈ resources.strings, ∀ key ∈ record.entries.keys,
    ∃ leaf, root.Has ["string", ofName record.table] leaf ∧ leaf.name = ofName key ∧
      leaf.shape = .constant
  templates : ∀ template ∈ resources.templates,
    ∃ node, root.Leads [template.kind.label, ofName template.name] node
  elements : ∀ template ∈ resources.templates, template.kind = .storyboard →
    ∀ element ∈ template.nestedElements,
      ∃ leaf, root.Has ["storyboard", ofName template.name] leaf ∧
        leaf.name = ofName element.identifier ∧ leaf.shape = .function [] ∧
        leaf.typeName = element.typeName ++ "?"
  reuseTokens : ∀ template ∈ resources.templates, ∀ token ∈ template.reuseTokens,
    ∃ leaf, root.Has ["reuseIdentifier"] leaf ∧ leaf.name = ofName token.identifier ∧
      leaf.shape = .constant ∧ leaf.typeName = reuseType token
  assets : ∀ asset ∈ resources.assets,
    ∃ leaf, root.Has (asset.kind.label :: asset.folders.map ofName) leaf ∧
      leaf.name = ofName asset.name ∧ leaf.shape = .constant ∧
      leaf.typeName = resourceType asset.kind
  imageFiles : ∀ file ∈ resources.imageFiles, ∃ base, ImageName.base? file.fileName = some base ∧
    ∃ leaf, root.Has ["image"] leaf ∧ leaf.name = ofName base ∧ leaf.shape = .constant ∧
      leaf.typeName = resourceType .image
  fonts : ∀ font ∈ resources.fonts, ∃ constant function, root.Has ["font"] constant ∧
    root.Has ["font"] function ∧ constant.name = ofName font.postscriptName ∧
    function.name = ofName font.postscriptName ∧ constant.shape = .constant ∧
    function.shape = .function [.labeled "size" "CGFloat"]
  files : ∀ file ∈ resources.files, ∃ constant function, root.Has ["file"] constant ∧
    root.Has ["file"] function ∧ constant.name = ofName file.fileName ∧
    function.name = ofName file.fileName ∧ constant.shape = .constant ∧
    function.shape = .function []
  propertyLists : ∀ list ∈ resources.propertyLists, ∀ steps key value typeName,
    Reaches key value steps list.root.entries → exposedType? value = some typeName →
      ∃ leaf, root.Has (ofName list.name :: steps.map ofName) leaf ∧ leaf.name = ofName key ∧
        leaf.shape = .constant ∧ leaf.typeName = typeName

variable {options : Options} {resources : Resources}

theorem aggregate_complete {rootName : String} {subtrees : List Node}
    (hq : (aggregate rootName subtrees).notices = []) {subtree : Node} (hs : subtree ∈ subtrees) :
    { subtree with name := ofName subtree.name } ∈
      (aggregate rootName subtrees).value.children := by
  simp only [aggregate, Noted.bind_notices, Noted.bind_value, Noted.pure_notices, Noted.pure_value,
    List.append_nil, Namespace.Contents.children_node] at hq ⊢
  have hkept := Namespace.kept_of_notices_eq_nil hq
    (List.mem_map_of_mem (f := fun subtree : Node => Namespace.Member.plain subtree.name
      (.ofChild { subtree with name := ofName subtree.name })) hs)
  exact hkept.children _ (List.mem_singleton_self _)

section

variable (he : options.excludedKinds = []) (hq : (compile options resources).notices = [])
  {kind : ResourceKind} {title : String} {contents : Noted Namespace.Contents}
  (hs : ⟨kind, title, contents⟩ ∈ namespaces options resources)

include he hq

include hs in
theorem namespace_quiet : contents.notices = [] := by
  rw [compile_notices, enabledNamespaces_eq he, List.append_eq_nil_iff] at hq
  exact List.flatMap_eq_nil_iff.mp hq.1 _ hs

include hs in
theorem leads_of_namespace {name : String} (hname : ofName title = name) {path : List String}
    {node : Node} (hn : (contents.value.node name).Leads path node) :
    (compile options resources).value.Leads (name :: path) node.propagate := by
  rw [compile_notices, enabledNamespaces_eq he, List.append_eq_nil_iff] at hq
  have hchild := aggregate_complete hq.2 (List.mem_map_of_mem hs)
  rw [Namespace.Contents.name_node, Namespace.Contents.rename_node, hname] at hchild
  rw [compile_value, gather_value, enabledNamespaces_eq he]
  exact Node.leads_propagate_iff.mpr
    ⟨node, ⟨_, hchild, Namespace.Contents.name_node _ _, hn⟩, rfl⟩

include hs in
theorem has_of_namespace {name : String} (hname : ofName title = name) {path : List String}
    {leaf : Leaf} (h : (contents.value.node name).Has path leaf) :
    (compile options resources).value.Has (name :: path) leaf := by
  obtain ⟨node, hn, hl⟩ := h
  refine ⟨node.propagate, leads_of_namespace he hq hs hname hn, ?_⟩
  rw [Node.leaves_propagate]
  exact hl

theorem strings_lossless {record : StringTable} (hr : record ∈ resources.strings) {key : String}
    (hk : key ∈ record.entries.keys) :
    ∃ leaf, (compile options resources).value.Has ["string", ofName record.table] leaf ∧
      leaf.name = ofName key ∧ leaf.shape = .constant := by
  have hs : ⟨.strings, "string", Namespace.strings options resources.strings⟩ ∈
      namespaces options resources := by simp [namespaces]
  have hname : ofName "string" = "string" := by decide +kernel
  obtain ⟨leaf, hhas, hleaf⟩ :=
    Namespace.strings_complete (namespace_quiet he hq hs) hr hk "string"
  exact ⟨leaf, has_of_namespace he hq hs hname hhas, hleaf⟩

theorem nibs_lossless {merged : Merged} (hm : merged ∈ mergeAll resources.templates)
    (hk : merged.template.kind = .nib) :
    merged.Undivided ∧ ∃ node, (compile options resources).value.Leads
      ["nib", ofName merged.template.name] node := by
  have hs : ⟨.nibs, "nib", Namespace.nibs options (mergeAll resources.templates)⟩ ∈
      namespaces options resources := by simp [namespaces]
  have hname : ofName "nib" = "nib" := by decide +kernel
  obtain ⟨hu, node, hn⟩ := Namespace.nibs_complete (namespace_quiet he hq hs) hm hk "nib"
  exact ⟨hu, node.propagate, leads_of_namespace he hq hs hname hn⟩

theorem storyboards_lossless {merged : Merged} (hm : merged ∈ mergeAll resources.templates)
    (hk : merged.template.kind = .storyboard) :
    merged.Undivided ∧
      (∃ node, (compile options resources).value.Leads
        ["storyboard", ofName merged.template.name] node) ∧
      ∀ element ∈ merged.template.nestedElements, ∃ leaf,
        (compile options resources).value.Has ["storyboard", ofName merged.template.name] leaf ∧
          leaf.name = ofName element.identifier ∧ leaf.shape = .function [] ∧
          leaf.typeName = element.typeName ++ "?" := by
  have hs : ⟨.storyboards, "storyboard", Namespace.storyboards options
      (mergeAll resources.templates)⟩ ∈ namespaces options resources := by simp [namespaces]
  have hname : ofName "storyboard" = "storyboard" := by decide +kernel
  obtain ⟨hu, ⟨node, hn⟩, helements⟩ :=
    Namespace.storyboards_complete (namespace_quiet he hq hs) hm hk "storyboard"
  refine ⟨hu, ⟨node.propagate, leads_of_namespace he hq hs hname hn⟩, fun element hm => ?_⟩
  obtain ⟨leaf, hhas, hleaf⟩ := helements element hm
  exact ⟨leaf, has_of_namespace he hq hs hname hhas, hleaf⟩

theorem merged_lossless {template : Template} (ht : template ∈ resources.templates) :
    ∃ merged ∈ mergeAll resources.templates, merged.template.kind = template.kind ∧
      merged.template.name = template.name ∧ Merged.Agrees merged.template template ∧
      ∃ node, (compile options resources).value.Leads
        [template.kind.label, ofName template.name] node := by
  obtain ⟨merged, hm, hkind, hname, hagrees⟩ := Template.exists_merged ht
  -- Variants that diverge are noted by the namespace of their kind.
  refine ⟨merged, hm, hkind, hname, ?_⟩
  rw [← hname, ← hkind]
  cases hmerged : merged.template.kind with
  | nib =>
    obtain ⟨hu, hnode⟩ := nibs_lossless he hq hm hmerged
    exact ⟨hagrees hu, hnode⟩
  | storyboard =>
    obtain ⟨hu, hnode, -⟩ := storyboards_lossless he hq hm hmerged
    exact ⟨hagrees hu, hnode⟩

theorem elements_lossless {template : Template} (ht : template ∈ resources.templates)
    (hk : template.kind = .storyboard) {element : TypedIdentifier}
    (hn : element ∈ template.nestedElements) :
    ∃ leaf, (compile options resources).value.Has ["storyboard", ofName template.name] leaf ∧
      leaf.name = ofName element.identifier ∧ leaf.shape = .function [] ∧
      leaf.typeName = element.typeName ++ "?" := by
  obtain ⟨merged, hm, hkind, hname, hagrees, -⟩ := merged_lossless he hq ht
  obtain ⟨-, -, helements⟩ := storyboards_lossless he hq hm (hkind.trans hk)
  rw [hname] at helements
  exact helements element ((hagrees.elements element).mpr hn)

theorem reuseTokens_lossless {template : Template} (ht : template ∈ resources.templates)
    {token : TypedIdentifier} (hr : token ∈ template.reuseTokens) :
    ∃ leaf, (compile options resources).value.Has ["reuseIdentifier"] leaf ∧
      leaf.name = ofName token.identifier ∧ leaf.shape = .constant ∧
      leaf.typeName = reuseType token := by
  obtain ⟨merged, hm, -, -, hagrees, -⟩ := merged_lossless he hq ht
  have hs : ⟨.reuseIdentifiers, "reuseIdentifier", Namespace.reuseIdentifiers
      (mergeAll resources.templates)⟩ ∈ namespaces options resources := by simp [namespaces]
  have hname : ofName "reuseIdentifier" = "reuseIdentifier" := by decide +kernel
  obtain ⟨leaf, hhas, hleaf⟩ := Namespace.reuseIdentifiers_complete
    (namespace_quiet he hq hs) hm ((hagrees.tokens token).mpr hr) "reuseIdentifier"
  exact ⟨leaf, has_of_namespace he hq hs hname hhas, hleaf⟩

theorem images_lossless :
    Namespace.unsupportedImages resources.imageFiles = [] ∧
      ∀ path entry, (path, entry) ∈ Namespace.assetEntries .image resources.assets ++
          Namespace.looseEntries resources.imageFiles →
        (compile options resources).value.Has ("image" :: path.map ofName)
          (assetLeaf .image options.bundleExpression entry) := by
  have hs : ⟨.images, "image", Namespace.images options resources.assets resources.imageFiles⟩ ∈
      namespaces options resources := by simp [namespaces]
  have hname : ofName "image" = "image" := by decide +kernel
  have hquiet := namespace_quiet he hq hs
  simp only [Namespace.images, Noted.bind_notices, Noted.give_notices,
    List.append_eq_nil_iff] at hquiet
  refine ⟨hquiet.1, fun path entry hentry => has_of_namespace he hq hs hname ?_⟩
  simp only [Namespace.images, Noted.bind_value]
  exact Namespace.media_complete hquiet.2 hentry "image"

theorem assets_lossless {asset : Asset} (ha : asset ∈ resources.assets) :
    (compile options resources).value.Has (asset.kind.label :: asset.folders.map ofName)
      (assetLeaf asset.kind options.bundleExpression ⟨asset.name, asset.fullName⟩) := by
  cases hkind : asset.kind with
  | image =>
    have hentry := Namespace.mem_assetEntries ha hkind
    exact (images_lossless he hq).2 _ _ (List.mem_append_left _ hentry)
  | color =>
    have hs : ⟨.colors, "color", Namespace.colors options resources.assets⟩ ∈
        namespaces options resources := by simp [namespaces]
    have hname : ofName "color" = "color" := by decide +kernel
    have hentry := Namespace.mem_assetEntries ha hkind
    exact has_of_namespace he hq hs hname
      (Namespace.media_complete (namespace_quiet he hq hs) hentry "color")
  | data =>
    have hs : ⟨.data, "data", Namespace.data options resources.assets⟩ ∈
        namespaces options resources := by simp [namespaces]
    have hname : ofName "data" = "data" := by decide +kernel
    have hentry := Namespace.mem_assetEntries ha hkind
    exact has_of_namespace he hq hs hname
      (Namespace.media_complete (namespace_quiet he hq hs) hentry "data")

theorem imageFiles_lossless {file : ImageFile} (hf : file ∈ resources.imageFiles) :
    ∃ base, ImageName.base? file.fileName = some base ∧
      (compile options resources).value.Has ["image"]
        (assetLeaf .image options.bundleExpression ⟨base, base⟩) := by
  obtain ⟨hsupported, hhas⟩ := images_lossless he hq
  obtain ⟨base, hbase, hentry⟩ := Namespace.mem_looseEntries hsupported hf
  exact ⟨base, hbase, hhas _ _ (List.mem_append_right _ hentry)⟩

theorem fonts_lossless {font : Font} (hf : font ∈ resources.fonts) :
    ∀ leaf ∈ (fontContents font).leaves, (compile options resources).value.Has ["font"] leaf := by
  intro leaf hl
  have hs : ⟨.fonts, "font", Namespace.fonts resources.fonts⟩ ∈ namespaces options resources := by
    simp [namespaces]
  have hname : ofName "font" = "font" := by decide +kernel
  exact has_of_namespace he hq hs hname
    (Namespace.fonts_complete (namespace_quiet he hq hs) hf "font" leaf hl)

theorem files_lossless {file : BundledFile} (hf : file ∈ resources.files) :
    ∀ leaf ∈ fileLeaves options.bundleExpression file,
      (compile options resources).value.Has ["file"] leaf := by
  intro leaf hl
  have hs : ⟨.files, "file", Namespace.files options resources.files⟩ ∈
      namespaces options resources := by simp [namespaces]
  have hname : ofName "file" = "file" := by decide +kernel
  exact has_of_namespace he hq hs hname
    (Namespace.files_complete (namespace_quiet he hq hs) hf "file" leaf hl)

theorem propertyLists_lossless {list : PropertyList} (hl : list ∈ resources.propertyLists)
    {steps : List String} {key : String} {value : PlistValue} {typeName : String}
    (h : Reaches key value steps list.root.entries)
    (htype : exposedType? value = some typeName) :
    ∃ leaf, (compile options resources).value.Has (ofName list.name :: steps.map ofName) leaf ∧
      leaf.name = ofName key ∧ leaf.shape = .constant ∧ leaf.typeName = typeName := by
  let lists := resources.propertyLists.filter (·.name == list.name)
  have hbucket : (list.name, lists) ∈ buckets PropertyList.name resources.propertyLists :=
    mem_buckets_iff.mpr ⟨⟨list, hl, rfl⟩, rfl⟩
  have hs : ⟨.propertyLists, list.name, Namespace.propertyList options list.name lists⟩ ∈
      namespaces options resources :=
    List.mem_append_right _ (List.mem_map.mpr ⟨_, hbucket, rfl⟩)
  have hmem : list ∈ lists := List.mem_filter.mpr ⟨hl, beq_self_eq_true _⟩
  obtain ⟨leaf, hhas, hleaf⟩ := Namespace.propertyList_complete (namespace_quiet he hq hs)
    hmem htype h (ofName list.name)
  exact ⟨leaf, has_of_namespace he hq hs rfl hhas, hleaf⟩

end

/-- A compilation without notices, from which nothing is excluded, loses nothing. -/
theorem compile_lossless (options : Options) (resources : Resources)
    (he : options.excludedKinds = []) (hq : (compile options resources).notices = []) :
    Lossless resources (compile options resources).value where
  strings := fun _ hr _ hk => strings_lossless he hq hr hk
  templates := by
    intro template ht
    obtain ⟨-, -, -, -, -, hnode⟩ := merged_lossless he hq ht
    exact hnode
  elements := fun _ ht hk _ hn => elements_lossless he hq ht hk hn
  reuseTokens := fun _ ht _ hr => reuseTokens_lossless he hq ht hr
  assets := fun _ ha => ⟨_, assets_lossless he hq ha, rfl, rfl, rfl⟩
  imageFiles := by
    intro file hf
    obtain ⟨base, hbase, hhas⟩ := imageFiles_lossless he hq hf
    exact ⟨base, hbase, _, hhas, rfl, rfl, rfl⟩
  fonts := fun font hf => ⟨_, _, fonts_lossless he hq hf _ (List.mem_cons_self ..),
    fonts_lossless he hq hf _ (List.mem_cons_of_mem _ (List.mem_cons_self ..)), rfl, rfl, rfl, rfl⟩
  files := fun file hf => ⟨_, _, files_lossless he hq hf _ (List.mem_cons_self ..),
    files_lossless he hq hf _ (List.mem_cons_of_mem _ (List.mem_cons_self ..)), rfl, rfl, rfl, rfl⟩
  propertyLists := fun _ hl _ _ _ _ h htype => propertyLists_lossless he hq hl h htype

theorem compile_lossless_sample :
    (compile .default sampleResources).notices = [] ∧
      Lossless sampleResources (compile .default sampleResources).value := by
  have hquiet : (compile .default sampleResources).notices = [] := by decide +kernel
  exact ⟨hquiet, compile_lossless .default sampleResources rfl hquiet⟩

end Accessors

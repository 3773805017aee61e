import Accessors.Proofs.Namespace.Consensus
import Accessors.Proofs.Namespace.Folders
import Accessors.Proofs.Namespace.Strings
import Accessors.Proofs.Template.Merged

/-!
# Namespaces without notices are complete

A namespace that gives no notice has left nothing out: each key, template, element, token, asset,
file and exposed value has its accessor under the identifiers of the names on the way to it.
-/

namespace Accessors.Namespace

open Record (Asset AssetKind BundledFile Font ImageFile PlistEntries PlistValue PropertyList
  StringEntry StringTable Template TemplateKind TypedIdentifier)
open Accessors.Symbol (Leaf Node)
open Template (Merged)

theorem strings_complete {options : Options} {records : List StringTable}
    (hq : (strings options records).notices = []) {record : StringTable} (hr : record ∈ records)
    {key : String} (hk : key ∈ record.entries.keys) (name : String) :
    ∃ leaf, ((strings options records).value.node name).Has [Identifier.ofName record.table] leaf ∧
      leaf.name = Identifier.ofName key ∧ leaf.shape = .constant := by
  have hrepresents := collectTables_represents records
  obtain ⟨held, hheld, hname⟩ := List.mem_map.mp
    (hrepresents.mem_names_iff.mpr (List.mem_map_of_mem hr))
  have hkeys : key ∈ keysOf records record.table :=
    List.mem_flatMap.mpr ⟨record, List.mem_filter.mpr ⟨hr, beq_self_eq_true _⟩, hk⟩
  obtain ⟨locale, entry, hsome⟩ := mem_keysOf_iff.mp hkeys
  rw [← hname] at hsome
  obtain ⟨variant, hv, -, hget⟩ := (hrepresents.exists_variant_iff hheld).mpr hsome
  have hkey : key ∈ held.keys := (hrepresents.mem_keys_iff hheld).mpr ⟨locale, entry, hsome⟩
  rw [notices_strings, List.append_eq_nil_iff] at hq
  have htable : (Member.child held.name (tableContents options held)).Kept _ :=
    kept_of_notices_eq_nil hq.2 (List.mem_map_of_mem hheld)
  have hquiet := htable.quiet_child
  rw [notices_tableContents, List.append_eq_nil_iff] at hquiet
  have hmember := kept_of_notices_eq_nil hquiet.2
    (List.mem_map_of_mem (f := (contextOf options held).member) hkey)
  have hentry : Among ((contextOf options held).entriesOf key) entry :=
    TableContext.among_entriesOf_iff.mpr ⟨variant, hv, hget⟩
  obtain ⟨fallback, hconstant⟩ := TableContext.exists_constant_mem hentry
    (TableContext.notices_member _ _ ▸ hmember.quiet)
  rw [← TableContext.leaves_member] at hconstant
  refine ⟨(contextOf options held).constant key fallback, ?_, rfl, rfl⟩
  rw [← hname, value_strings]
  refine htable.has_child name ?_
  rw [value_tableContents]
  exact hmember.has_leaf _ hconstant

theorem undivided_of_divergences {merged : Merged} (h : divergences merged = []) :
    merged.Undivided := by
  simp only [divergences, List.append_eq_nil_iff, List.map_eq_nil_iff] at h
  exact ⟨h.1.1.2, h.1.2⟩

theorem mem_ofKind {kind : TemplateKind} {templates : List Merged} {merged : Merged}
    (hm : merged ∈ templates) (hk : merged.template.kind = kind) :
    merged ∈ ofKind kind templates :=
  List.mem_filter.mpr ⟨hm, beq_iff_eq.mpr hk⟩

theorem nibs_complete {options : Options} {templates : List Merged}
    (hq : (nibs options templates).notices = []) {merged : Merged} (hm : merged ∈ templates)
    (hk : merged.template.kind = .nib) (name : String) :
    merged.Undivided ∧ ∃ node, ((nibs options templates).value.node name).Leads
      [Identifier.ofName merged.template.name] node := by
  have hnib : (Member.child merged.template.name (nib options.bundleExpression merged)).Kept _ :=
    kept_of_notices_eq_nil hq (List.mem_map_of_mem (mem_ofKind hm hk))
  exact ⟨undivided_of_divergences hnib.quiet_child, _, hnib.leads_child name rfl⟩

theorem mem_stableElements {merged : Merged} (hu : merged.Undivided) {element : TypedIdentifier}
    (he : element ∈ merged.template.nestedElements) : element ∈ merged.stableElements := by
  refine List.mem_filter.mpr ⟨he, ?_⟩
  rw [hu.elements]
  rfl

def elementLeaf (bundle : String) (template : Template) (element : TypedIdentifier) : Leaf :=
  .function (Identifier.ofName element.identifier) [] (element.typeName ++ "?")
    (elementBinding bundle template element) []

theorem elementLeaf_mem {bundle : String} {template : Template} {element : TypedIdentifier}
    (hq : (elementMember bundle template element).contents.notices = []) :
    elementLeaf bundle template element ∈
      (elementMember bundle template element).contents.value.leaves := by
  simp only [elementMember] at hq ⊢
  split at hq
  · cases hq
  · next hfree =>
    rw [if_neg hfree]
    exact List.mem_singleton_self _

theorem value_storyboard (bundle : String) (merged : Merged) :
    (storyboard bundle merged).value = storyboardFixed bundle merged ++
      (assemble "view controllers" s!"storyboard '{merged.template.name}'"
        (merged.stableElements.map (elementMember bundle merged.template))).value := by
  simp only [storyboard, Noted.bind_value, Noted.pure_value]

theorem storyboards_complete {options : Options} {templates : List Merged}
    (hq : (storyboards options templates).notices = []) {merged : Merged} (hm : merged ∈ templates)
    (hk : merged.template.kind = .storyboard) (name : String) :
    merged.Undivided ∧
      (∃ node, ((storyboards options templates).value.node name).Leads
        [Identifier.ofName merged.template.name] node) ∧
      ∀ element ∈ merged.template.nestedElements, ∃ leaf,
        ((storyboards options templates).value.node name).Has
            [Identifier.ofName merged.template.name] leaf ∧
          leaf.name = Identifier.ofName element.identifier ∧ leaf.shape = .function [] ∧
          leaf.typeName = element.typeName ++ "?" := by
  have hboard : (Member.child merged.template.name
      (storyboard options.bundleExpression merged)).Kept _ :=
    kept_of_notices_eq_nil hq (List.mem_map_of_mem (mem_ofKind hm hk))
  have hquiet := hboard.quiet_child
  simp only [storyboard, Noted.bind_notices, Noted.give_notices, Noted.pure_notices,
    List.append_eq_nil_iff] at hquiet
  have hu := undivided_of_divergences hquiet.1
  refine ⟨hu, ⟨_, hboard.leads_child name rfl⟩, fun element he => ?_⟩
  have helement := kept_of_notices_eq_nil hquiet.2.1
    (List.mem_map_of_mem (f := elementMember options.bundleExpression merged.template)
      (mem_stableElements hu he))
  refine ⟨elementLeaf options.bundleExpression merged.template element, ?_, rfl, rfl, rfl⟩
  refine hboard.has_child name ?_
  rw [Node.has_nil, Contents.leaves_node, value_storyboard]
  exact List.mem_append_right _ (helement.leaves _ (elementLeaf_mem helement.quiet))

theorem token?_of_tokenConflict? {types : String × List String} {typeName : String}
    (hq : tokenConflict? types = none) (ht : typeName ∈ types.2) :
    token? types = some ⟨types.1, typeName⟩ := by
  obtain ⟨identifier, types⟩ := types
  match types with
  | [] => cases ht
  | [used] =>
    rw [List.mem_singleton.mp ht]
    rfl
  | first :: second :: rest => cases hq

theorem reuseIdentifiers_complete {templates : List Merged}
    (hq : (reuseIdentifiers templates).notices = []) {merged : Merged} (hm : merged ∈ templates)
    {token : TypedIdentifier} (ht : token ∈ merged.template.reuseTokens) (name : String) :
    ∃ leaf, ((reuseIdentifiers templates).value.node name).Has [] leaf ∧
      leaf.name = Identifier.ofName token.identifier ∧ leaf.shape = .constant ∧
      leaf.typeName = reuseType token := by
  simp only [reuseIdentifiers, Noted.bind_notices, Noted.give_notices,
    List.append_eq_nil_iff] at hq
  obtain ⟨hconflicts, hassemble⟩ := hq
  let tokens := templates.flatMap (·.template.reuseTokens)
  let bucket := (token.identifier, tokens.filter (·.identifier == token.identifier))
  have htokens : token ∈ tokens := List.mem_flatMap.mpr ⟨merged, hm, ht⟩
  have hbucket : bucket ∈ buckets TypedIdentifier.identifier tokens :=
    mem_buckets_iff.mpr ⟨⟨token, htokens, rfl⟩, rfl⟩
  let types := (bucket.1, distinct (bucket.2.map TypedIdentifier.typeName))
  have htypes : types ∈ tokenTypes templates := List.mem_map_of_mem hbucket
  have hused : token.typeName ∈ types.2 :=
    mem_distinct.mpr (List.mem_map_of_mem (List.mem_filter.mpr ⟨htokens, beq_self_eq_true _⟩))
  have htoken : token? types = some token :=
    token?_of_tokenConflict? (List.filterMap_eq_nil_iff.mp hconflicts types htypes) hused
  have hkept := kept_of_notices_eq_nil hassemble
    (List.mem_map_of_mem (f := tokenMember) (List.mem_filterMap.mpr ⟨types, htypes, htoken⟩))
  refine ⟨reuseLeaf (Identifier.ofName token.identifier) token, ?_, rfl, rfl, rfl⟩
  simp only [reuseIdentifiers, Noted.bind_value]
  exact hkept.has_leaf name (List.mem_singleton_self _)

theorem mem_folderMembers (kind : AssetKind) (bundle scope : String)
    {folders : List (String × Folder)} {step : String} {inner : Folder}
    (h : (step, inner) ∈ folders) :
    Member.child step (folderContents kind bundle (scope ++ "/" ++ step) inner) ∈
      folderMembers kind bundle scope folders := by
  induction folders with
  | nil => cases h
  | cons first rest ih =>
    obtain ⟨name, folder⟩ := first
    rw [folderMembers]
    rcases List.mem_cons.mp h with he | h
    · obtain ⟨rfl, rfl⟩ := Prod.mk.inj he
      exact List.mem_cons_self ..
    · exact List.mem_cons_of_mem _ (ih h)

theorem folderContents_complete {kind : AssetKind} {bundle scope : String} {folder : Folder}
    (hq : (folderContents kind bundle scope folder).notices = []) {entry : MediaEntry}
    {path : List String} (h : folder.Holds entry path) (name : String) :
    ((folderContents kind bundle scope folder).value.node name).Has
      (path.map Identifier.ofName) (assetLeaf kind bundle entry) := by
  induction path generalizing folder scope name with
  | nil =>
    obtain ⟨assets, folders⟩ := folder
    rw [folderContents] at hq ⊢
    have hkept := kept_of_notices_eq_nil hq
      (List.mem_append_left _ (List.mem_map_of_mem (f := assetMember kind bundle) h))
    exact hkept.has_leaf name (List.mem_singleton_self _)
  | cons step path ih =>
    obtain ⟨assets, folders⟩ := folder
    obtain ⟨inner, hlookup, h⟩ := h
    rw [folderContents] at hq ⊢
    have hkept := kept_of_notices_eq_nil hq
      (List.mem_append_right _ (mem_folderMembers kind bundle scope (mem_of_lookup hlookup)))
    rw [List.map_cons]
    exact hkept.has_child name (ih hkept.quiet_child h _)

theorem media_complete {options : Options} {kind : AssetKind}
    {entries : List (List String × MediaEntry)} (hq : (media options kind entries).notices = [])
    {path : List String} {entry : MediaEntry} (h : (path, entry) ∈ entries) (name : String) :
    ((media options kind entries).value.node name).Has (path.map Identifier.ofName)
      (assetLeaf kind options.bundleExpression entry) :=
  folderContents_complete hq (Folder.holds_ofEntries h) name

theorem mem_assetEntries {kind : AssetKind} {assets : List Asset} {asset : Asset}
    (h : asset ∈ assets) (hk : asset.kind = kind) :
    (asset.folders, ⟨asset.name, asset.fullName⟩) ∈ assetEntries kind assets :=
  List.mem_map.mpr ⟨asset, List.mem_filter.mpr ⟨h, beq_iff_eq.mpr hk⟩, rfl⟩

theorem mem_looseEntries {files : List ImageFile} (hq : unsupportedImages files = [])
    {file : ImageFile} (h : file ∈ files) :
    ∃ base, ImageName.base? file.fileName = some base ∧
      ([], ⟨base, base⟩) ∈ looseEntries files := by
  cases hbase : ImageName.base? file.fileName with
  | none =>
    have hnone := List.filter_eq_nil_iff.mp (List.map_eq_nil_iff.mp hq) file h
    simp [hbase] at hnone
  | some base =>
    refine ⟨base, rfl, List.mem_map.mpr ⟨base, ?_, rfl⟩⟩
    exact List.mem_eraseDups.mpr (List.mem_filterMap.mpr ⟨file, h, hbase⟩)

theorem fonts_complete {records : List Font} (hq : (fonts records).notices = []) {font : Font}
    (h : font ∈ records) (name : String) :
    ∀ leaf ∈ (fontContents font).leaves, ((fonts records).value.node name).Has [] leaf := by
  intro leaf hl
  have hkept := kept_of_notices_eq_nil hq
    (List.mem_map_of_mem (f := fun font => Member.plain font.postscriptName (fontContents font)) h)
  exact hkept.has_leaf name hl

theorem files_complete {options : Options} {records : List BundledFile}
    (hq : (files options records).notices = []) {file : BundledFile} (h : file ∈ records)
    (name : String) : ∀ leaf ∈ fileLeaves options.bundleExpression file,
      ((files options records).value.node name).Has [] leaf := by
  intro leaf hl
  have hkept := kept_of_notices_eq_nil hq (List.mem_map_of_mem (f := fun file =>
    Member.plain file.fileName (.ofLeaves (fileLeaves options.bundleExpression file))) h)
  exact hkept.has_leaf name hl

def Reaches (key : String) (value : PlistValue) : List String → PlistEntries → Prop
  | [], entries => (key, value) ∈ entries
  | step :: steps, entries =>
    ∃ inner, (step, .dictionary inner) ∈ entries ∧ Reaches key value steps inner

def exposedType? : PlistValue → Option String
  | .bool _ => some "Bool"
  | .string _ => some "String"
  | .array items => if (textItems? items).isSome then some "[String]" else none
  | .dictionary _ => none

theorem valueMember_of_exposedType? (context : PlistContext) (path : List String) (key : String)
    {value : PlistValue} {typeName : String} (h : exposedType? value = some typeName) :
    ∃ reader fallback, valueMember context path key value =
      some (context.leafMember path key reader typeName fallback) := by
  cases value with
  | bool flag =>
    obtain rfl := Option.some.inj h
    exact ⟨_, _, by rw [valueMember]⟩
  | string text =>
    obtain rfl := Option.some.inj h
    exact ⟨_, _, by rw [valueMember]⟩
  | array items =>
    rw [exposedType?] at h
    split at h
    · next htexts =>
      obtain rfl := Option.some.inj h
      obtain ⟨texts, htexts⟩ := Option.isSome_iff_exists.mp htexts
      refine ⟨"propertyListStringArray", Text.quoteList texts, ?_⟩
      rw [valueMember, htexts]
    · cases h
  | dictionary entries => cases h

theorem mem_entryMembers {context : PlistContext} {path : List String} {key : String}
    {value : PlistValue} {member : Member} {entries : PlistEntries} (h : (key, value) ∈ entries)
    (hm : valueMember context path key value = some member) :
    member ∈ entryMembers context path entries := by
  induction entries with
  | nil => cases h
  | cons entry rest ih =>
    obtain ⟨first, held⟩ := entry
    rw [entryMembers]
    rcases List.mem_cons.mp h with he | h
    · obtain ⟨rfl, rfl⟩ := Prod.mk.inj he
      exact List.mem_append_left _ (Option.mem_toList.mpr hm)
    · exact List.mem_append_right _ (ih h)

theorem entryMembers_complete {context : PlistContext} {what scope : String} {path : List String}
    {entries : PlistEntries}
    (hq : (assemble what scope (entryMembers context path entries)).notices = [])
    {key : String} {value : PlistValue} {typeName : String}
    (htype : exposedType? value = some typeName) {steps : List String}
    (h : Reaches key value steps entries) (name : String) :
    ∃ leaf, ((assemble what scope (entryMembers context path entries)).value.node name).Has
        (steps.map Identifier.ofName) leaf ∧
      leaf.name = Identifier.ofName key ∧ leaf.shape = .constant ∧ leaf.typeName = typeName := by
  induction steps generalizing scope what path entries name with
  | nil =>
    obtain ⟨reader, fallback, hvalue⟩ := valueMember_of_exposedType? context path key htype
    have hkept := kept_of_notices_eq_nil hq (mem_entryMembers h hvalue)
    exact ⟨context.leaf path key reader typeName fallback,
      hkept.has_leaf name (List.mem_singleton_self _), rfl, rfl, rfl⟩
  | cons step steps ih =>
    obtain ⟨inner, hinner, h⟩ := h
    have hkept := kept_of_notices_eq_nil hq
      (mem_entryMembers hinner (by rw [valueMember]))
    obtain ⟨leaf, hhas, hleaf⟩ := ih hkept.quiet_child h (Identifier.ofName step)
    exact ⟨leaf, hkept.has_child name hhas, hleaf⟩

theorem propertyList_complete {options : Options} {name : String} {lists : List PropertyList}
    (hq : (propertyList options name lists).notices = []) {list : PropertyList}
    (hl : list ∈ lists) {key : String} {value : PlistValue} {typeName : String}
    (htype : exposedType? value = some typeName) {steps : List String}
    (h : Reaches key value steps list.root.entries) (whole : String) :
    ∃ leaf, ((propertyList options name lists).value.node whole).Has
        (steps.map Identifier.ofName) leaf ∧
      leaf.name = Identifier.ofName key ∧ leaf.shape = .constant ∧ leaf.typeName = typeName := by
  simp only [propertyList, Noted.bind_notices, Noted.bind_value, List.append_eq_nil_iff] at hq ⊢
  rw [← consensus_quiet hq.1 hl] at h
  exact entryMembers_complete hq.2 htype h whole

end Accessors.Namespace

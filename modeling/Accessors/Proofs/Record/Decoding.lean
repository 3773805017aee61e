import Accessors.Proofs.Json.Decoding
import Accessors.Record.Resources

/-!
# Records are read back from their JSON

A record is written with all its fields, and its decoder takes what is written as that record. Only
a language named like the base locale is not told from it, so the locale of a table or a template
has to be another. A property list value is written as the value of its own kind, and the entries of
a dictionary stand in the order that the decoder puts them in.
-/

namespace Accessors

open Json

theorem Json.decodes_dictionary {α : Type} {decode : Decoder α} {encode : α → Json}
    {d : Dictionary α} (h : ∀ entry ∈ d.entries, Decodes decode (encode entry.2) entry.2) :
    Decodes (dictionary? decode) (ofDictionary encode d) d := by
  intro room hroom
  obtain ⟨room, rfl, hinner⟩ := exists_room_of_record hroom
  have hentries : (d.entries.map fun entry => (some entry.1, encode entry.2)).mapM
      (member? (decode room)) = some d.entries := by
    refine mapM_map_eq_some fun entry he => ?_
    have hfield := hinner (entry.1, encode entry.2) (List.mem_map.mpr ⟨entry, he, rfl⟩)
    rw [member?, h entry he room hfield]
    rfl
  have hsame : Dictionary.ofList d.entries = d :=
    Dictionary.ext (collectEntries_eq_self d.increasing)
  rw [ofDictionary, record, List.map_map]
  exact (congrArg (Option.map Dictionary.ofList) hentries).trans (congrArg some hsame)

theorem Locale.decodes {locale : Locale} (h : locale ≠ .language "Base") :
    Decodes Locale.ofJson locale.toJson locale := by
  intro room hroom
  have htag : nullable string? room locale.toJson = some locale.tag :=
    decodes_optional text (fun tag _ => ⟨nofun, decodes_string tag⟩) room hroom
  rw [Locale.ofJson, htag]
  exact congrArg some (ofTag_tag h)

namespace Record

theorem PluralRule.decodes (rule : PluralRule) : Decodes PluralRule.ofJson rule.toJson rule := by
  intro room hroom
  obtain ⟨fields, hread, hw⟩ :=
    exists_fields_of_record ["specType", "valueType", "cases"] (by decide) (.refl _) hroom
  have hspec : fields.withDefault "specType" countType string? = some rule.specType :=
    hw.withDefault_eq (decodes_string _) rfl
  have hvalue : fields.required "valueType" string? = some rule.valueType :=
    hw.required_eq (decodes_string _) rfl
  have hcases : fields.withDefault "cases" .empty (dictionary? string?) = some rule.cases :=
    hw.withDefault_eq (decodes_dictionary fun entry _ => decodes_string entry.2) rfl
  simp [PluralRule.ofJson, PluralRule.toJson, hread, hspec, hvalue, hcases]

theorem StringEntry.decodes (entry : StringEntry) :
    Decodes StringEntry.ofJson entry.toJson entry := by
  intro room hroom
  obtain ⟨fields, hread, hw⟩ :=
    exists_fields_of_record ["value", "comment", "pluralRules"] (by decide) (.refl _) hroom
  have hvalue : fields.required "value" string? = some entry.value :=
    hw.required_eq (decodes_string _) rfl
  have hcomment : fields.orNone "comment" string? = some entry.comment :=
    hw.withDefault_eq (decodes_optional text fun s _ => ⟨nofun, decodes_string s⟩) rfl
  have hrules : fields.orNone "pluralRules" (dictionary? PluralRule.ofJson) =
      some entry.pluralRules :=
    hw.withDefault_eq (decodes_optional (ofDictionary PluralRule.toJson) fun rules _ =>
      ⟨nofun, decodes_dictionary fun rule _ => rule.2.decodes⟩) rfl
  simp [StringEntry.ofJson, StringEntry.toJson, hread, hvalue, hcomment, hrules]

theorem StringTable.decodes {table : StringTable} (h : table.locale ≠ .language "Base") :
    Decodes StringTable.ofJson table.toJson table := by
  intro room hroom
  obtain ⟨fields, hread, hw⟩ :=
    exists_fields_of_record ["table", "locale", "entries"] (by decide) (.refl _) hroom
  have htable : fields.required "table" string? = some table.table :=
    hw.required_eq (decodes_string _) rfl
  have hlocale : fields.withDefault "locale" .unspecified Locale.ofJson = some table.locale :=
    hw.withDefault_eq (Locale.decodes h) rfl
  have hentries : fields.withDefault "entries" .empty (dictionary? StringEntry.ofJson) =
      some table.entries :=
    hw.withDefault_eq (decodes_dictionary fun entry _ => entry.2.decodes) rfl
  simp [StringTable.ofJson, StringTable.toJson, hread, htable, hlocale, hentries]

theorem TemplateKind.decodes (kind : TemplateKind) :
    Decodes TemplateKind.ofJson (text kind.label) kind := fun _ _ => by
  cases kind <;> rfl

theorem TypedIdentifier.decodes (element : TypedIdentifier) :
    Decodes TypedIdentifier.ofJson element.toJson element := by
  intro room hroom
  obtain ⟨fields, hread, hidentifier, htype⟩ := exists_fields_of_pair (by decide)
    (decodes_string element.identifier) (decodes_string element.typeName) hroom
  simp [TypedIdentifier.ofJson, TypedIdentifier.toJson, hread, hidentifier, htype]

theorem DeploymentTarget.decodes (target : DeploymentTarget) :
    Decodes DeploymentTarget.ofJson target.toJson target := by
  intro room hroom
  obtain ⟨fields, hread, hplatform, hversion⟩ := exists_fields_of_pair (by decide)
    (decodes_string target.platform) (decodes_string target.version) hroom
  simp [DeploymentTarget.ofJson, DeploymentTarget.toJson, hread, hplatform, hversion]

theorem Template.decodes {template : Template} (h : template.locale ≠ .language "Base") :
    Decodes Template.ofJson template.toJson template := by
  intro room hroom
  obtain ⟨fields, hread, hw⟩ :=
    exists_fields_of_record fieldNames (by decide) (.refl _) hroom
  have htexts : ∀ values : List String, Decodes (list? string?) (texts values) values :=
    fun values => decodes_list fun s _ => decodes_string s
  have helements : ∀ elements : List TypedIdentifier, Decodes (list? TypedIdentifier.ofJson)
      (.array (elements.map TypedIdentifier.toJson)) elements :=
    fun elements => decodes_list fun element _ => element.decodes
  have hkind : fields.required "kind" TemplateKind.ofJson = some template.kind :=
    hw.required_eq template.kind.decodes rfl
  have hname : fields.required "name" string? = some template.name :=
    hw.required_eq (decodes_string _) rfl
  have hlocale : fields.withDefault "locale" .unspecified Locale.ofJson = some template.locale :=
    hw.withDefault_eq (Locale.decodes h) rfl
  have hroots : fields.orEmpty "rootTypes" string? = some template.rootTypes :=
    hw.withDefault_eq (htexts _) rfl
  have hnested : fields.orEmpty "nestedElements" TypedIdentifier.ofJson =
      some template.nestedElements := hw.withDefault_eq (helements _) rfl
  have htokens : fields.orEmpty "reuseTokens" TypedIdentifier.ofJson =
      some template.reuseTokens := hw.withDefault_eq (helements _) rfl
  have himages : fields.orEmpty "usedImages" string? = some template.usedImages :=
    hw.withDefault_eq (htexts _) rfl
  have hcolors : fields.orEmpty "usedColors" string? = some template.usedColors :=
    hw.withDefault_eq (htexts _) rfl
  have htarget : fields.orNone "deploymentTarget" DeploymentTarget.ofJson =
      some template.deploymentTarget :=
    hw.withDefault_eq (decodes_optional DeploymentTarget.toJson fun target _ =>
      ⟨nofun, target.decodes⟩) rfl
  rw [Template.ofJson, Template.toJson, hread]
  simp only [hkind, hname, hlocale, hroots, hnested, htokens, himages, hcolors, htarget,
    Option.bind_eq_bind, Option.bind_some]
  rfl

theorem AssetKind.decodes (kind : AssetKind) : Decodes AssetKind.ofJson (text kind.label) kind :=
  fun _ _ => by cases kind <;> rfl

theorem Asset.decodes (asset : Asset) : Decodes Asset.ofJson asset.toJson asset := by
  intro room hroom
  obtain ⟨fields, hread, hw⟩ :=
    exists_fields_of_record ["kind", "catalog", "namespace", "name"] (by decide) (.refl _) hroom
  have hkind : fields.required "kind" AssetKind.ofJson = some asset.kind :=
    hw.required_eq asset.kind.decodes rfl
  have hcatalog : fields.withDefault "catalog" "" string? = some asset.catalog :=
    hw.withDefault_eq (decodes_string _) rfl
  have hfolders : fields.orEmpty "namespace" string? = some asset.folders :=
    hw.withDefault_eq (decodes_list fun s _ => decodes_string s) rfl
  have hname : fields.required "name" string? = some asset.name :=
    hw.required_eq (decodes_string _) rfl
  simp [Asset.ofJson, Asset.toJson, hread, hkind, hcatalog, hfolders, hname]

theorem ImageFile.decodes (file : ImageFile) : Decodes ImageFile.ofJson file.toJson file := by
  intro room hroom
  obtain ⟨fields, hread, hname⟩ := exists_fields_of_single (decodes_string file.fileName) hroom
  simp [ImageFile.ofJson, ImageFile.toJson, hread, hname]

theorem Font.decodes (font : Font) : Decodes Font.ofJson font.toJson font := by
  intro room hroom
  obtain ⟨fields, hread, hfile, hname⟩ := exists_fields_of_pair (by decide)
    (decodes_string font.fileName) (decodes_string font.postscriptName) hroom
  simp [Font.ofJson, Font.toJson, hread, hfile, hname]

theorem BundledFile.decodes (file : BundledFile) :
    Decodes BundledFile.ofJson file.toJson file := by
  intro room hroom
  obtain ⟨fields, hread, hpath⟩ := exists_fields_of_single (decodes_string file.path) hroom
  simp [BundledFile.ofJson, BundledFile.toJson, hread, hpath]

namespace PlistValue

theorem toJsonItems_eq_map (items : List PlistValue) : toJsonItems items = items.map toJson := by
  induction items with
  | nil => rfl
  | cons item rest ih => rw [toJsonItems, ih, List.map_cons]

theorem toJsonEntries_eq_map (entries : PlistEntries) :
    toJsonEntries entries = entries.map fun entry => (some entry.1, entry.2.toJson) := by
  induction entries with
  | nil => rfl
  | cons entry rest ih =>
    obtain ⟨key, value⟩ := entry
    rw [toJsonEntries, ih, List.map_cons]

theorem toJson_array (items : List PlistValue) :
    (array items).toJson = .array (items.map toJson) := by
  rw [toJson, toJsonItems_eq_map]

theorem toJson_dictionary (entries : PlistEntries) :
    (dictionary entries).toJson =
      record (entries.map fun entry => (entry.1, entry.2.toJson)) := by
  rw [toJson, toJsonEntries_eq_map, record, List.map_map]
  rfl

theorem exists_orderedItems {items : List PlistValue} (h : (array items).Ordered) :
    ∃ values : List OrderedPlist, values.map Subtype.val = items :=
  ⟨items.attachWith _ (orderedItems_iff.mp h), List.attachWith_map_subtype_val _⟩

theorem exists_orderedEntries {entries : PlistEntries} (h : (dictionary entries).Ordered) :
    ∃ pairs : List (String × OrderedPlist),
      (pairs.map fun pair => (pair.1, pair.2.val)) = entries := by
  refine ⟨(entries.attachWith _ (orderedEntries_iff.mp h.2)).map fun entry =>
    (entry.val.1, ⟨entry.val.2, entry.property⟩), ?_⟩
  rw [List.map_map]
  exact List.attachWith_map_subtype_val _

theorem decodes (value : OrderedPlist) : Decodes ofJson value.val.toJson value := by
  intro room
  obtain ⟨value, ordered⟩ := value
  -- The recursion of the decoder is on the room, and each container that is opened takes some.
  induction room generalizing value with
  | zero =>
    intro hroom
    cases value with
    | bool flag => rfl
    | string s => rfl
    | array items => exact absurd hroom (by rw [toJson, nesting]; omega)
    | dictionary entries => exact absurd hroom (by rw [toJson, nesting]; omega)
  | succ room ih =>
    intro hroom
    cases value with
    | bool flag => rfl
    | string s => rfl
    | array items =>
      obtain ⟨values, rfl⟩ := exists_orderedItems ordered
      simp only [toJson_array, List.map_map] at hroom ⊢
      obtain ⟨inner, hinner, hitems⟩ := exists_room_of_array hroom
      obtain rfl := Nat.succ.inj hinner
      have hvalues : (values.map (toJson ∘ Subtype.val)).mapM (ofJson room) = some values :=
        mapM_map_eq_some fun value hv =>
          ih value.val value.property (hitems _ (List.mem_map_of_mem hv))
      rw [ofJson, hvalues]
      rfl
    | dictionary entries =>
      obtain ⟨pairs, rfl⟩ := exists_orderedEntries ordered
      simp only [toJson_dictionary, List.map_map] at hroom ⊢
      obtain ⟨inner, hinner, hfields⟩ := exists_room_of_record hroom
      obtain rfl := Nat.succ.inj hinner
      have hpairs : (pairs.map fun pair => (some pair.1, pair.2.val.toJson)).mapM
          (member? (ofJson room)) = some pairs := mapM_map_eq_some fun pair hp => by
        rw [member?, ih pair.2.val pair.2.property (hfields _ (List.mem_map_of_mem hp))]
        rfl
      rw [record, List.map_map, ofJson]
      refine (congrArg (Option.map _) hpairs).trans (congrArg some (Subtype.ext ?_))
      exact congrArg dictionary (collectEntries_eq_self ordered.1)

end PlistValue

theorem PlistRoot.decodes (root : PlistRoot) :
    Decodes PlistRoot.ofJson (.object (PlistValue.toJsonEntries root.entries)) root := by
  intro room hroom
  have hvalue := PlistValue.decodes ⟨.dictionary root.entries, root.ordered⟩ room hroom
  rw [PlistValue.toJson] at hvalue
  rw [PlistRoot.ofJson, hvalue]

theorem PropertyList.decodes (list : PropertyList) :
    Decodes PropertyList.ofJson list.toJson list := by
  intro room hroom
  obtain ⟨fields, hread, hw⟩ :=
    exists_fields_of_record ["name", "configuration", "root"] (by decide) (.refl _) hroom
  have hname : fields.required "name" string? = some list.name :=
    hw.required_eq (decodes_string _) rfl
  have hconfiguration : fields.withDefault "configuration" "" string? =
      some list.configuration := hw.withDefault_eq (decodes_string _) rfl
  have hroot : fields.withDefault "root" .empty PlistRoot.ofJson = some list.root :=
    hw.withDefault_eq list.root.decodes rfl
  simp [PropertyList.ofJson, PropertyList.toJson, hread, hname, hconfiguration, hroot]

def Resources.locales (resources : Resources) : List Locale :=
  resources.strings.map StringTable.locale ++ resources.templates.map Template.locale

theorem Resources.decodes {resources : Resources}
    (h : ∀ locale ∈ resources.locales, locale ≠ .language "Base") :
    Decodes Resources.ofJson resources.toJson resources := by
  intro room hroom
  obtain ⟨hstring, htemplate⟩ := List.forall_mem_append.mp h
  obtain ⟨fields, hread, hw⟩ :=
    exists_fields_of_record fieldNames (by decide) (.refl _) hroom
  have hstrings : fields.orEmpty "strings" StringTable.ofJson = some resources.strings :=
    hw.withDefault_eq (decodes_list fun table ht =>
      StringTable.decodes (hstring _ (List.mem_map_of_mem ht))) rfl
  have htemplates : fields.orEmpty "templates" Template.ofJson = some resources.templates :=
    hw.withDefault_eq (decodes_list fun template ht =>
      Template.decodes (htemplate _ (List.mem_map_of_mem ht))) rfl
  have hassets : fields.orEmpty "assets" Asset.ofJson = some resources.assets :=
    hw.withDefault_eq (decodes_list fun asset _ => asset.decodes) rfl
  have himages : fields.orEmpty "imageFiles" ImageFile.ofJson = some resources.imageFiles :=
    hw.withDefault_eq (decodes_list fun file _ => file.decodes) rfl
  have hfonts : fields.orEmpty "fonts" Font.ofJson = some resources.fonts :=
    hw.withDefault_eq (decodes_list fun font _ => font.decodes) rfl
  have hfiles : fields.orEmpty "files" BundledFile.ofJson = some resources.files :=
    hw.withDefault_eq (decodes_list fun file _ => file.decodes) rfl
  have hlists : fields.orEmpty "propertyLists" PropertyList.ofJson =
      some resources.propertyLists :=
    hw.withDefault_eq (decodes_list fun list _ => list.decodes) rfl
  rw [Resources.ofJson, Resources.toJson, hread]
  simp only [hstrings, htemplates, hassets, himages, hfonts, hfiles, hlists,
    Option.bind_eq_bind, Option.bind_some]
  rfl

end Record

end Accessors

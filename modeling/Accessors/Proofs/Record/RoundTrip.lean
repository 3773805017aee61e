import Accessors.Proofs.Json.Reading
import Accessors.Proofs.Record.Decoding

/-!
# Resources are read back from their text

All records but property lists nest to a depth of their own, whatever they hold. A property list
that was read has its values as deep as they stood in the text, so resources that were read fit into
a text again. They have no language named like the base locale either, and these are the two things
that keep resources from being read back from what is written of them.
-/

namespace Accessors

open Json

namespace Json

/-- The value can be written, and its containers nest at most so deep. -/
structure Fits (j : Json) (room : Nat) : Prop where
  sound : j.Sound
  nesting : j.nesting ≤ room

variable {α : Type} {room : Nat}

theorem fits_text (s : String) (room : Nat) : (text s).Fits room := ⟨.string _, Nat.zero_le _⟩

theorem Fits.record {fields : List (String × Json)} (h : ∀ field ∈ fields, field.2.Fits room) :
    (record fields).Fits (room + 1) where
  sound := .record fun field hf => (h field hf).sound
  nesting := by
    refine Nat.succ_le_succ (membersNesting_le.mpr fun member hm => ?_)
    obtain ⟨field, hf, rfl⟩ := List.mem_map.mp hm
    exact (h field hf).nesting

theorem Fits.list {encode : α → Json} {items : List α}
    (h : ∀ item ∈ items, (encode item).Fits room) :
    (Json.array (items.map encode)).Fits (room + 1) where
  sound := .map fun item hi => (h item hi).sound
  nesting := by
    refine Nat.succ_le_succ (itemsNesting_le.mpr fun j hj => ?_)
    obtain ⟨item, hi, rfl⟩ := List.mem_map.mp hj
    exact (h item hi).nesting

theorem Fits.dictionary {encode : α → Json} {d : Dictionary α}
    (h : ∀ entry ∈ d.entries, (encode entry.2).Fits room) :
    (ofDictionary encode d).Fits (room + 1) :=
  .record fun field hf => by
    obtain ⟨entry, he, rfl⟩ := List.mem_map.mp hf
    exact h entry he

theorem Fits.optional {encode : α → Json} {value : Option α}
    (h : ∀ a ∈ value, (encode a).Fits room) : (optional encode value).Fits room := by
  cases value with
  | none => exact ⟨.null, Nat.zero_le _⟩
  | some a => exact h a rfl

theorem fits_pair (first second a b : String) (room : Nat) :
    (record [(first, text a), (second, text b)]).Fits (room + 1) := by
  refine .record ?_
  simp only [List.forall_mem_cons]
  exact ⟨fits_text _ _, fits_text _ _, nofun⟩

theorem fits_texts (values : List String) (room : Nat) : (texts values).Fits (room + 1) :=
  .list fun s _ => fits_text s room

end Json

theorem Locale.fits (locale : Locale) (room : Nat) : locale.toJson.Fits room :=
  .optional fun tag _ => fits_text tag room

namespace Record

variable (room : Nat)

theorem PluralRule.fits (rule : PluralRule) : rule.toJson.Fits (room + 2) := by
  refine .record ?_
  simp only [List.forall_mem_cons]
  exact ⟨fits_text _ _, fits_text _ _, .dictionary fun entry _ => fits_text entry.2 room, nofun⟩

theorem StringEntry.fits (entry : StringEntry) : entry.toJson.Fits (room + 4) := by
  refine .record ?_
  simp only [List.forall_mem_cons]
  exact ⟨fits_text _ _, .optional fun s _ => fits_text s _,
    .optional fun rules _ => .dictionary fun rule _ => rule.2.fits room, nofun⟩

theorem StringTable.fits (table : StringTable) : table.toJson.Fits (room + 6) := by
  refine .record ?_
  simp only [List.forall_mem_cons]
  exact ⟨fits_text _ _, table.locale.fits _, .dictionary fun entry _ => entry.2.fits room, nofun⟩

theorem TypedIdentifier.fits (element : TypedIdentifier) : element.toJson.Fits (room + 1) :=
  fits_pair ..

theorem DeploymentTarget.fits (target : DeploymentTarget) : target.toJson.Fits (room + 1) :=
  fits_pair ..

theorem Template.fits (template : Template) : template.toJson.Fits (room + 3) := by
  have helements : ∀ elements : List TypedIdentifier,
      (Json.array (elements.map TypedIdentifier.toJson)).Fits (room + 2) :=
    fun elements => .list fun element _ => element.fits room
  refine .record ?_
  simp only [List.forall_mem_cons]
  exact ⟨fits_text _ _, fits_text _ _, template.locale.fits _, fits_texts _ _, helements _,
    helements _, fits_texts _ _, fits_texts _ _,
    .optional fun target _ => target.fits _, nofun⟩

theorem Asset.fits (asset : Asset) : asset.toJson.Fits (room + 2) := by
  refine .record ?_
  simp only [List.forall_mem_cons]
  exact ⟨fits_text _ _, fits_text _ _, fits_texts _ _, fits_text _ _, nofun⟩

theorem ImageFile.fits (file : ImageFile) : file.toJson.Fits (room + 1) :=
  .record (List.forall_mem_singleton.mpr (fits_text _ _))

theorem Font.fits (font : Font) : font.toJson.Fits (room + 1) :=
  fits_pair ..

theorem BundledFile.fits (file : BundledFile) : file.toJson.Fits (room + 1) :=
  .record (List.forall_mem_singleton.mpr (fits_text _ _))

namespace PlistValue

mutual

theorem sound : (value : PlistValue) → value.toJson.Sound
  | .bool _ => .bool _
  | .string _ => .string _
  | .array items => .array _ (sound_items items)
  | .dictionary entries => .object _ (sound_entries entries)

theorem sound_items : (items : List PlistValue) → ∀ j ∈ toJsonItems items, j.Sound
  | [] => nofun
  | item :: rest => List.forall_mem_cons.mpr ⟨item.sound, sound_items rest⟩

theorem sound_entries :
    (entries : PlistEntries) → ∀ member ∈ toJsonEntries entries, member.2.Sound
  | [] => nofun
  | (_, value) :: rest => List.forall_mem_cons.mpr ⟨value.sound, sound_entries rest⟩

end

theorem ofJson_cases {room : Nat} {j : Json} {value : OrderedPlist}
    (h : ofJson room j = some value) :
    value.val.toJson.nesting = 0 ∨ ∃ inner, room = inner + 1 ∧
      ((∃ values : List OrderedPlist, value.val = .array (values.map Subtype.val) ∧
        ∀ item ∈ values, ∃ j, ofJson inner j = some item) ∨
      ∃ pairs : List (String × OrderedPlist),
        value.val = .dictionary (collectEntries (pairs.map fun pair => (pair.1, pair.2.val))) ∧
        ∀ pair ∈ pairs, ∃ j, ofJson inner j = some pair.2) := by
  unfold ofJson at h
  split at h
  · next flag =>
    obtain rfl := Option.some.inj h
    exact .inl rfl
  · next s =>
    obtain rfl := Option.some.inj h
    exact .inl rfl
  · next inner items =>
    obtain ⟨values, hvalues, rfl⟩ := Option.map_eq_some_iff.mp h
    refine .inr ⟨inner, rfl, .inl ⟨values, rfl, fun item hi => ?_⟩⟩
    obtain ⟨j, -, hj⟩ := (mem_iff_of_mapM hvalues).mp hi
    exact ⟨j, hj⟩
  · next inner members =>
    obtain ⟨pairs, hpairs, rfl⟩ := Option.map_eq_some_iff.mp h
    refine .inr ⟨inner, rfl, .inr ⟨pairs, rfl, fun pair hp => ?_⟩⟩
    obtain ⟨member, -, hm⟩ := (mem_iff_of_mapM hpairs).mp hp
    obtain ⟨key, -, hm⟩ := Option.bind_eq_some_iff.mp hm
    obtain ⟨item, hitem, hm⟩ := Option.bind_eq_some_iff.mp hm
    obtain rfl := Option.some.inj hm
    exact ⟨member.2, hitem⟩
  · cases h

theorem nesting_le_of_ofJson {room : Nat} {j : Json} {value : OrderedPlist}
    (h : ofJson room j = some value) : value.val.toJson.nesting ≤ room := by
  induction room generalizing j value with
  | zero =>
    obtain hzero | ⟨inner, hinner, -⟩ := ofJson_cases h
    · exact Nat.le_of_eq hzero
    · cases hinner
  | succ room ih =>
    obtain hzero | ⟨inner, hinner, ⟨values, hvalue, hitems⟩ | ⟨pairs, hvalue, hpairs⟩⟩ :=
      ofJson_cases h
    · exact hzero ▸ Nat.zero_le _
    · obtain rfl := Nat.succ.inj hinner
      rw [hvalue, toJson_array, List.map_map]
      refine Nat.succ_le_succ (itemsNesting_le.mpr fun j hj => ?_)
      obtain ⟨item, hi, rfl⟩ := List.mem_map.mp hj
      obtain ⟨source, hsource⟩ := hitems item hi
      exact ih hsource
    · obtain rfl := Nat.succ.inj hinner
      rw [hvalue, toJson, toJsonEntries_eq_map]
      refine Nat.succ_le_succ (membersNesting_le.mpr fun member hm => ?_)
      obtain ⟨entry, he, rfl⟩ := List.mem_map.mp hm
      obtain ⟨pair, hp, rfl⟩ := List.mem_map.mp (mem_collectEntries he)
      obtain ⟨source, hsource⟩ := hpairs pair hp
      exact ih hsource

end PlistValue

theorem PlistRoot.fits_of_ofJson {room : Nat} {j : Json} {root : PlistRoot}
    (h : PlistRoot.ofJson room j = some root) :
    (Json.object (PlistValue.toJsonEntries root.entries)).Fits room := by
  refine ⟨.object _ (PlistValue.sound_entries root.entries), ?_⟩
  rw [PlistRoot.ofJson] at h
  split at h
  · next entries ordered hread =>
    obtain rfl := Option.some.inj h
    exact PlistValue.nesting_le_of_ofJson hread
  · cases h

theorem PropertyList.fits {list : PropertyList}
    (h : (Json.object (PlistValue.toJsonEntries list.root.entries)).Fits room) :
    list.toJson.Fits (room + 1) := by
  refine .record ?_
  simp only [List.forall_mem_cons]
  exact ⟨fits_text _ _, fits_text _ _, h, nofun⟩

end Record

namespace Json.Fields

variable {α : Type} {decode : Decoder α} {fields : Fields} {name : String}

theorem withDefault_cases {default a : α} (h : fields.withDefault name default decode = some a) :
    a = default ∨ ∃ j, decode fields.room j = some a := by
  rw [withDefault] at h
  split at h
  · exact .inl (Option.some.inj h).symm
  · next j hj => exact .inr ⟨j, h⟩

theorem exists_of_mem_orEmpty {items : List α} (h : fields.orEmpty name decode = some items)
    {item : α} (hi : item ∈ items) :
    ∃ room j, fields.room = room + 1 ∧ decode room j = some item := by
  rcases withDefault_cases h with rfl | ⟨j, hj⟩
  · cases hi
  · unfold list? at hj
    split at hj
    · next room found hroom =>
      obtain ⟨j, -, hj⟩ := (mem_iff_of_mapM hj).mp hi
      exact ⟨room, j, hroom, hj⟩
    · cases hj

end Json.Fields

theorem Locale.ne_of_withDefault {fields : Fields} {name : String} {locale : Locale}
    (h : fields.withDefault name .unspecified Locale.ofJson = some locale) :
    locale ≠ .language "Base" := by
  rcases Fields.withDefault_cases h with rfl | ⟨j, hj⟩
  · nofun
  · obtain ⟨tag, -, rfl⟩ := Option.map_eq_some_iff.mp hj
    intro he
    cases tag with
    | none => cases he
    | some tag =>
      rw [ofTag] at he
      split at he
      · cases he
      · next hne => exact hne (Locale.language.inj he)

namespace Record

variable {room : Nat} {j : Json}

theorem StringTable.locale_of_ofJson {table : StringTable}
    (h : StringTable.ofJson room j = some table) : table.locale ≠ .language "Base" := by
  simp only [StringTable.ofJson, Option.bind_eq_bind, Option.bind_eq_some_iff] at h
  obtain ⟨fields, -, name, -, locale, hlocale, entries, -, h⟩ := h
  obtain rfl := Option.some.inj h
  exact Locale.ne_of_withDefault hlocale

theorem Template.locale_of_ofJson {template : Template}
    (h : Template.ofJson room j = some template) : template.locale ≠ .language "Base" := by
  simp only [Template.ofJson, Option.bind_eq_bind, Option.bind_eq_some_iff] at h
  obtain ⟨fields, -, kind, -, name, -, locale, hlocale, _, -, _, -, _, -, _, -, _, -, _, -, h⟩ := h
  obtain rfl := Option.some.inj h
  exact Locale.ne_of_withDefault hlocale

theorem PropertyList.fits_of_ofJson {list : PropertyList}
    (h : PropertyList.ofJson (room + 2) j = some list) : list.toJson.Fits (room + 2) := by
  simp only [PropertyList.ofJson, Option.bind_eq_bind, Option.bind_eq_some_iff] at h
  obtain ⟨fields, hfields, name, -, configuration, -, root, hroot, h⟩ := h
  obtain rfl := Option.some.inj h
  refine PropertyList.fits (room + 1) ?_
  rcases Fields.withDefault_cases hroot with rfl | ⟨j, hj⟩
  · exact ⟨.object _ (PlistValue.sound_entries _), Nat.succ_le_succ (Nat.zero_le _)⟩
  · exact room_of_fields? hfields ▸ PlistRoot.fits_of_ofJson hj

namespace Resources

theorem fits (room : Nat) {resources : Resources}
    (h : ∀ list ∈ resources.propertyLists, list.toJson.Fits (room + 6)) :
    resources.toJson.Fits (room + 8) := by
  refine .record ?_
  simp only [List.forall_mem_cons]
  exact ⟨.list fun table _ => table.fits room, .list fun template _ => template.fits _,
    .list fun asset _ => asset.fits _, .list fun file _ => file.fits _,
    .list fun font _ => font.fits _, .list fun file _ => file.fits _, .list h, nofun⟩

theorem sound (resources : Resources) : resources.toJson.Sound := by
  let depth := itemsNesting (resources.propertyLists.map PropertyList.toJson)
  refine (fits depth fun list hl => ⟨?_, ?_⟩).sound
  · exact (PropertyList.fits _ ⟨.object _ (PlistValue.sound_entries _), Nat.le_refl _⟩).sound
  · exact Nat.le_add_right_of_le
      (itemsNesting_le.mp (Nat.le_refl depth) _ (List.mem_map_of_mem hl))

theorem readable_of_ofJson (room : Nat) {resources : Resources}
    (h : ofJson (room + 8) j = some resources) :
    resources.toJson.nesting ≤ room + 8 ∧
      ∀ locale ∈ resources.locales, locale ≠ .language "Base" := by
  simp only [ofJson, Option.bind_eq_bind, Option.bind_eq_some_iff] at h
  obtain ⟨fields, hfields, strings, hstrings, templates, htemplates, _, -, _, -, _, -, _, -,
    lists, hlists, h⟩ := h
  obtain rfl := Option.some.inj h
  have hroom : fields.room = room + 7 := room_of_fields? hfields
  refine ⟨(fits room fun list hl => ?_).nesting, List.forall_mem_append.mpr ⟨?_, ?_⟩⟩
  · obtain ⟨inner, j, hinner, hj⟩ := Fields.exists_of_mem_orEmpty hlists hl
    obtain rfl : inner = room + 6 := by omega
    exact PropertyList.fits_of_ofJson hj
  · refine List.forall_mem_map.mpr fun table ht => ?_
    obtain ⟨inner, j, -, hj⟩ := Fields.exists_of_mem_orEmpty hstrings ht
    exact StringTable.locale_of_ofJson hj
  · refine List.forall_mem_map.mpr fun template ht => ?_
    obtain ⟨inner, j, -, hj⟩ := Fields.exists_of_mem_orEmpty htemplates ht
    exact Template.locale_of_ofJson hj

theorem readable_of_ofText {resources : Resources} {source : String}
    (h : ofText? source = some resources) :
    resources.toJson.nesting ≤ nestingLimit ∧
      ∀ locale ∈ resources.locales, locale ≠ .language "Base" := by
  obtain ⟨j, -, hj⟩ := Option.bind_eq_some_iff.mp h
  exact readable_of_ofJson 119 hj

/-- Whatever text resources were read from, they are read again from any text that is written of
them. Resources in general are read back just if their JSON nests no deeper than a text may and
none of their locales is a language with the name of the base locale. -/
theorem round_trip (resources : Resources) {s : String} (hs : Written resources.toJson s) :
    (∀ source, ofText? source = some resources → ofText? s = some resources) ∧
      (ofText? s = some resources ↔
        resources.toJson.nesting ≤ nestingLimit ∧
          ∀ locale ∈ resources.locales, locale ≠ .language "Base") := by
  have hback : resources.toJson.nesting ≤ nestingLimit ∧
      (∀ locale ∈ resources.locales, locale ≠ .language "Base") →
      ofText? s = some resources := by
    rintro ⟨hnesting, hlocales⟩
    rw [ofText?, decodeText, read_written resources.sound hs]
    exact decodes hlocales nestingLimit hnesting
  exact ⟨fun source h => hback (readable_of_ofText h), readable_of_ofText, hback⟩

example : ofText? "\x7b\"strings\": [[\"Menu\", \"Base\"]], \"more\": [1]\x7d" =
    some { empty with strings := [⟨"Menu", .base, .empty⟩] } := by decide

def sample : Resources where
  strings := [
    ⟨"Localizable", .base, .ofList [
      ("files", ⟨"%#@n@", some "\n", some (.ofList [
        ("n", ⟨PluralRule.countType, "d", .ofList [("one", "%d file"), ("other", "%d files")]⟩)])⟩),
      ("title", ⟨"\"Title\"", none, none⟩)]⟩,
    ⟨"Localizable", .language "de", .empty⟩,
    ⟨"", .unspecified, .ofList [("", ⟨"", some "", some .empty⟩)]⟩]
  templates := [
    ⟨.nib, "Cell", .unspecified, ["CardCell"], [⟨"title", "UILabel"⟩], [⟨"card", "CardCell"⟩],
      ["star"], ["accent"], some ⟨"iOS", "15.0"⟩⟩,
    ⟨.storyboard, "Main", .base, [], [], [], [], [], none⟩]
  assets := [⟨.image, "Media", ["icons", "tab"], "home"⟩, ⟨.color, "", [], "accent"⟩]
  imageFiles := [⟨"photo.png"⟩]
  fonts := [⟨"Inter.ttf", "Inter-Regular"⟩]
  files := [⟨"seed/data.json"⟩]
  propertyLists := [⟨"info", "", ⟨[
    ("Flag", .bool true),
    ("Items", .array [.string "a", .array [], .dictionary [("k", .bool false)]]),
    ("Nested", .dictionary [("a", .dictionary []), ("b", .string "")])], by
      simp only [PlistValue.Ordered, PlistValue.OrderedEntries, PlistValue.OrderedItems]
      decide⟩⟩]

theorem round_trip_sample :
    (Written sample.toJson (compact sample.toJson) ∧
        ofText? (compact sample.toJson) = some sample) ∧
      Written sample.toJson (pretty sample.toJson) ∧
        ofText? (pretty sample.toJson) = some sample :=
  ⟨⟨written_compact _, (round_trip sample (written_compact _)).2.mpr ⟨by decide, by decide⟩⟩,
    written_pretty _, (round_trip sample (written_pretty _)).2.mpr ⟨by decide, by decide⟩⟩

end Resources

end Record

end Accessors

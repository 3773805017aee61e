import Mathlib.Data.List.Nodup
import Accessors.Namespace.Strings

/-!
# Localized tables

The tables that are put together from records hold, for each table, locale and key, the one of the
definitions in the records that counts: the first with plural rules, or else the first. Each record
keeps this true of the tables so far.
-/

namespace Accessors.Namespace

open Record (StringEntry StringTable)

def definitions (records : List StringTable) (table : String) (locale : Locale) (key : String) :
    List StringEntry :=
  (records.filter fun record => record.table = table ∧ record.locale = locale).filterMap
    (·.entries.get? key)

/-- The first definition with plural rules, or else the first. -/
def settled? (definitions : List StringEntry) : Option StringEntry :=
  (definitions.find? (·.pluralRules.isSome)).or definitions.head?

/-- The definition of a key of a table in one locale that counts. -/
def localized? (records : List StringTable) (table : String) (locale : Locale) (key : String) :
    Option StringEntry :=
  settled? (definitions records table locale key)

def settle : Option StringEntry → StringEntry → StringEntry
  | none, definition => definition
  | some held, definition =>
    if held.pluralRules.isNone ∧ definition.pluralRules.isSome then definition else held

theorem settled?_append_singleton (definitions : List StringEntry) (definition : StringEntry) :
    settled? (definitions ++ [definition]) = some (settle (settled? definitions) definition) := by
  unfold settled?
  rw [List.find?_append, List.head?_append]
  cases hfind : definitions.find? (·.pluralRules.isSome) with
  | some held =>
    have hheld := List.find?_some hfind
    simp [settle, Option.isNone_iff_eq_none, Option.isSome_iff_ne_none.mp hheld]
  | none =>
    cases definitions with
    | nil => cases h : definition.pluralRules <;> simp [settle, h]
    | cons first rest =>
      have hfirst : first.pluralRules = none := by
        simpa using List.find?_eq_none.mp hfind first (List.mem_cons_self ..)
      cases h : definition.pluralRules <;> simp [settle, h, hfirst]

theorem definitions_append_singleton (records : List StringTable) (record : StringTable)
    (table : String) (locale : Locale) (key : String) :
    definitions (records ++ [record]) table locale key =
      definitions records table locale key ++
        if record.table = table ∧ record.locale = locale then (record.entries.get? key).toList
        else [] := by
  unfold definitions
  rw [List.filter_append, List.filterMap_append]
  congr 1
  by_cases h : record.table = table ∧ record.locale = locale
  · cases hget : record.entries.get? key <;> simp [h, hget]
  · simp [h]

theorem localized?_append_of_ne {records : List StringTable} {record : StringTable} {table : String}
    {locale : Locale} (h : ¬ (record.table = table ∧ record.locale = locale)) (key : String) :
    localized? (records ++ [record]) table locale key = localized? records table locale key := by
  rw [localized?, definitions_append_singleton, if_neg h, List.append_nil, localized?]

theorem localized?_append (records : List StringTable) (record : StringTable) (key : String) :
    localized? (records ++ [record]) record.table record.locale key =
      match record.entries.get? key with
      | none => localized? records record.table record.locale key
      | some definition =>
        some (settle (localized? records record.table record.locale key) definition) := by
  rw [localized?, definitions_append_singleton, if_pos ⟨rfl, rfl⟩]
  cases record.entries.get? key with
  | none => rw [Option.toList_none, List.append_nil, localized?]
  | some definition => rw [Option.toList_some, settled?_append_singleton, localized?]

theorem localized?_eq_none_iff {records : List StringTable} {table : String} {locale : Locale}
    {key : String} : localized? records table locale key = none ↔
      ∀ record ∈ records, record.table = table → record.locale = locale →
        record.entries.get? key = none := by
  have hnone : ∀ found : List StringEntry, settled? found = none ↔ found = [] := by
    intro found
    rw [settled?, Option.or_eq_none_iff, List.head?_eq_none_iff, and_iff_right_iff_imp]
    rintro rfl
    rfl
  rw [localized?, hnone, definitions, List.filterMap_eq_nil_iff]
  simp only [List.mem_filter, decide_eq_true_eq, and_imp]

theorem value_addEntry (table : String) (locale : Locale) (entries : Dictionary StringEntry)
    (definition : String × StringEntry) :
    (addEntry table locale entries definition).value = entries ∨
      (addEntry table locale entries definition).value =
        entries.insert definition.1 definition.2 := by
  unfold addEntry
  split
  · exact .inr rfl
  · split
    · exact .inl rfl
    · split
      · exact .inr rfl
      · exact .inl rfl

theorem get?_addEntry_self (table : String) (locale : Locale) (entries : Dictionary StringEntry)
    (definition : String × StringEntry) :
    (addEntry table locale entries definition).value.get? definition.1 =
      some (settle (entries.get? definition.1) definition.2) := by
  unfold addEntry
  cases hget : entries.get? definition.1 with
  | none => simp [Dictionary.get?_insert, settle]
  | some held =>
    by_cases hkeep : held = definition.2 ∨ held.pluralRules.isSome
    · have hnot : ¬ (held.pluralRules.isNone ∧ definition.2.pluralRules.isSome) := by
        rintro ⟨hnone, hsome⟩
        rcases hkeep with rfl | hheld
        · simp [Option.isNone_iff_eq_none.mp hnone] at hsome
        · simp [Option.isNone_iff_eq_none.mp hnone] at hheld
      simp only [if_pos hkeep, settle, if_neg hnot]
      exact hget
    · have hnone : held.pluralRules.isNone := by simpa using (not_or.mp hkeep).2
      by_cases hplural : definition.2.pluralRules.isSome
      · simp [hkeep, hplural, settle, hnone, Dictionary.get?_insert]
      · simp [hkeep, hplural, settle, hget]

theorem get?_addEntry_of_ne {table : String} {locale : Locale} {entries : Dictionary StringEntry}
    {definition : String × StringEntry} {key : String} (h : key ≠ definition.1) :
    (addEntry table locale entries definition).value.get? key = entries.get? key := by
  rcases value_addEntry table locale entries definition with he | he
  · rw [he]
  · rw [he, Dictionary.get?_insert, if_neg h]

theorem get?_addEntries (record : StringTable) (entries : Dictionary StringEntry) (key : String) :
    (addEntries record entries).value.get? key =
      match record.entries.get? key with
      | none => entries.get? key
      | some definition => some (settle (entries.get? key) definition) := by
  have hd := record.entries.increasing.nodup
  have hget : record.entries.get? key = record.entries.entries.lookup key := rfl
  -- Keys of a record are distinct, so at most one of its definitions settles the key.
  rw [addEntries, Noted.foldlM_value, hget]
  generalize record.entries.entries = added at hd
  induction added generalizing entries with
  | nil => rfl
  | cons definition rest ih =>
    obtain ⟨hfirst, hrest⟩ := List.nodup_cons.mp hd
    rw [List.foldl_cons, ih _ hrest, lookup_cons_ite]
    by_cases hk : key = definition.1
    · subst hk
      have hnone : rest.lookup definition.1 = none := by
        refine List.lookup_eq_none_iff.mpr fun other ho => bne_iff_ne.mpr fun he => hfirst ?_
        exact he ▸ List.mem_map_of_mem ho
      rw [hnone, if_pos rfl]
      exact get?_addEntry_self record.table record.locale entries definition
    · rw [if_neg hk, get?_addEntry_of_ne hk]

theorem Variant.locale_add (record : StringTable) (variant : Variant) :
    (variant.add record).value.locale = variant.locale := rfl

theorem Variant.locale_ofRecord (record : StringTable) :
    (Variant.ofRecord record).value.locale = record.locale := rfl

theorem Variant.notices_add (record : StringTable) (variant : Variant) :
    (variant.add record).notices = (addEntries record variant.entries).notices :=
  List.append_nil _

theorem Variant.notices_ofRecord (record : StringTable) :
    (Variant.ofRecord record).notices = (addEntries record .empty).notices := List.append_nil _

theorem value_addToVariants (record : StringTable) (variants : List Variant) :
    (addToVariants record variants).value =
      upsert Variant.locale record.locale (fun variant => (variant.add record).value)
        (Variant.ofRecord record).value variants :=
  Noted.value_upsert variants

theorem notices_addToVariants (record : StringTable) (variants : List Variant) :
    (∃ variant ∈ variants, variant.locale = record.locale ∧
        (addToVariants record variants).notices = (addEntries record variant.entries).notices) ∨
      (∀ variant ∈ variants, variant.locale ≠ record.locale) ∧
        (addToVariants record variants).notices = (addEntries record .empty).notices := by
  simp only [← Variant.notices_add, ← Variant.notices_ofRecord]
  exact Noted.notices_upsert variants

theorem addToVariants_cons (record : StringTable) (variant : Variant) (rest : List Variant) :
    addToVariants record (variant :: rest) =
      if variant.locale = record.locale then (· :: rest) <$> variant.add record
      else (variant :: ·) <$> addToVariants record rest := rfl

theorem variants_add (record : StringTable) (table : LocalizedTable) :
    (table.add record).value.variants = (addToVariants record table.variants).value := by
  unfold LocalizedTable.add LocalizedTable.variants
  rw [addToVariants_cons]
  split <;> rfl

theorem notices_add (record : StringTable) (table : LocalizedTable) :
    (table.add record).notices = (addToVariants record table.variants).notices := by
  unfold LocalizedTable.add LocalizedTable.variants
  rw [addToVariants_cons]
  split <;> rfl

theorem name_add (record : StringTable) (table : LocalizedTable) :
    (table.add record).value.name = table.name := by
  unfold LocalizedTable.add
  split <;> rfl

theorem notices_ofRecord (record : StringTable) :
    (LocalizedTable.ofRecord record).notices = (addEntries record .empty).notices :=
  (List.append_nil _).trans (Variant.notices_ofRecord record)

theorem value_addRecord (record : StringTable) (tables : List LocalizedTable) :
    (addRecord record tables).value =
      upsert LocalizedTable.name record.table (fun table => (table.add record).value)
        (LocalizedTable.ofRecord record).value tables :=
  Noted.value_upsert tables

theorem notices_addRecord (record : StringTable) (tables : List LocalizedTable) :
    (∃ table ∈ tables, table.name = record.table ∧
        (addRecord record tables).notices = (addToVariants record table.variants).notices) ∨
      (∀ table ∈ tables, table.name ≠ record.table) ∧
        (addRecord record tables).notices = (addEntries record .empty).notices := by
  simp only [← notices_add, ← notices_ofRecord]
  exact Noted.notices_upsert tables

theorem exists_notices_addRecord (record : StringTable) (tables : List LocalizedTable) :
    ∃ entries, (addRecord record tables).notices = (addEntries record entries).notices := by
  rcases notices_addRecord record tables with ⟨table, -, -, hnotices⟩ | ⟨-, hnotices⟩
  · rw [hnotices]
    rcases notices_addToVariants record table.variants with ⟨variant, -, -, h⟩ | ⟨-, h⟩
    · exact ⟨variant.entries, h⟩
    · exact ⟨.empty, h⟩
  · exact ⟨.empty, hnotices⟩

theorem get?_ofRecord (record : StringTable) (key : String) :
    (Variant.ofRecord record).value.entries.get? key = record.entries.get? key := by
  show (addEntries record .empty).value.get? key = _
  rw [get?_addEntries]
  cases record.entries.get? key <;> rfl

/-- The tables hold what the records say: each table and each of its locales once, with the
definitions that count. -/
structure Represents (records : List StringTable) (tables : List LocalizedTable) : Prop where
  names : (tables.map LocalizedTable.name).Nodup
  locales : ∀ table ∈ tables, (table.variants.map Variant.locale).Nodup
  origin : ∀ table ∈ tables, ∃ record ∈ records, record.table = table.name
  met : ∀ record ∈ records, ∃ table ∈ tables, table.name = record.table ∧
    record.locale ∈ table.variants.map Variant.locale
  entries : ∀ table ∈ tables, ∀ variant ∈ table.variants, ∀ key,
    variant.entries.get? key = localized? records table.name variant.locale key

theorem represents_nil : Represents [] [] := ⟨List.nodup_nil, nofun, nofun, nofun, nofun⟩

namespace Represents

variable {records : List StringTable} {tables : List LocalizedTable}

theorem eq_of_name (h : Represents records tables) {a b : LocalizedTable} (ha : a ∈ tables)
    (hb : b ∈ tables) (hn : a.name = b.name) : a = b :=
  List.inj_on_of_nodup_map h.names ha hb hn

theorem localized?_eq_none (h : Represents records tables) {table : String} {locale : Locale}
    (hnone : ∀ held ∈ tables, held.name = table →
      ∀ variant ∈ held.variants, variant.locale ≠ locale) (key : String) :
    localized? records table locale key = none := by
  apply localized?_eq_none_iff.mpr
  intro record hr ht hl
  obtain ⟨held, hh, hname, hlocale⟩ := h.met record hr
  obtain ⟨variant, hv, hvl⟩ := List.mem_map.mp hlocale
  exact absurd (hvl.trans hl) (hnone held hh (hname.trans ht) variant hv)

theorem addRecord_entries (h : Represents records tables) (record : StringTable)
    {table : LocalizedTable} (ht : table ∈ (addRecord record tables).value) {variant : Variant}
    (hv : variant ∈ table.variants) (key : String) :
    variant.entries.get? key =
      localized? (records ++ [record]) table.name variant.locale key := by
  rw [value_addRecord] at ht
  rcases mem_upsert h.names ht with ⟨hm, hne⟩ | ⟨old, hm, hname, rfl⟩ | ⟨rfl, hnew⟩
  · rw [h.entries table hm variant hv key, localized?_append_of_ne fun hr => hne hr.1.symm]
  · rw [variants_add, value_addToVariants] at hv
    rw [name_add, hname]
    rcases mem_upsert (h.locales old hm) hv with
      ⟨hm', hne⟩ | ⟨held, hm', hlocale, rfl⟩ | ⟨rfl, hnew⟩
    · rw [h.entries old hm variant hm' key, hname, localized?_append_of_ne fun hr => hne hr.2.symm]
    · show (addEntries record held.entries).value.get? key =
        localized? (records ++ [record]) record.table held.locale key
      rw [get?_addEntries, h.entries old hm held hm' key, hname, hlocale, localized?_append]
    · show _ = localized? (records ++ [record]) record.table record.locale key
      have hnone : localized? records record.table record.locale key = none := by
        refine h.localized?_eq_none (fun other ho hn variant hv => ?_) key
        exact hnew variant (h.eq_of_name ho hm (hn.trans hname.symm) ▸ hv)
      rw [get?_ofRecord, localized?_append, hnone]
      cases record.entries.get? key <;> rfl
  · obtain rfl : variant = (Variant.ofRecord record).value := List.mem_singleton.mp hv
    show _ = localized? (records ++ [record]) record.table record.locale key
    have hnone : localized? records record.table record.locale key = none :=
      h.localized?_eq_none (fun other ho hn => absurd hn (hnew other ho)) key
    rw [get?_ofRecord, localized?_append, hnone]
    cases record.entries.get? key <;> rfl

theorem met_addRecord_of_name (h : Represents records tables) (record : StringTable)
    {table : LocalizedTable} (ht : table ∈ tables) (hname : table.name = record.table)
    {locale : Locale}
    (hl : locale = record.locale ∨ locale ∈ table.variants.map Variant.locale) :
    ∃ held ∈ (addRecord record tables).value, held.name = record.table ∧
      locale ∈ held.variants.map Variant.locale := by
  refine ⟨(table.add record).value, ?_, (name_add record table).trans hname, ?_⟩
  · rw [value_addRecord]
    exact update_mem_upsert h.names ht hname
  · rw [variants_add, value_addToVariants]
    exact (mem_keys_upsert (Variant.locale_add record) (Variant.locale_ofRecord record)).mpr hl

theorem met_addRecord (h : Represents records tables) (record : StringTable) {other : StringTable}
    (ho : other ∈ records ++ [record]) :
    ∃ table ∈ (addRecord record tables).value, table.name = other.table ∧
      other.locale ∈ table.variants.map Variant.locale := by
  rcases List.mem_append.mp ho with ho | ho
  · obtain ⟨table, ht, hname, hlocale⟩ := h.met other ho
    by_cases hsame : table.name = record.table
    · rw [← hname, hsame]
      exact h.met_addRecord_of_name record ht hsame (.inr hlocale)
    · refine ⟨table, ?_, hname, hlocale⟩
      rw [value_addRecord]
      exact mem_upsert_of_ne ht hsame
  · obtain rfl := List.mem_singleton.mp ho
    by_cases hmet : ∃ table ∈ tables, table.name = other.table
    · obtain ⟨table, ht, hname⟩ := hmet
      exact h.met_addRecord_of_name other ht hname (.inl rfl)
    · refine ⟨(LocalizedTable.ofRecord other).value, ?_, rfl, List.mem_singleton_self _⟩
      rw [value_addRecord]
      apply new_mem_upsert
      intro table ht he
      exact hmet ⟨table, ht, he⟩

theorem addRecord (h : Represents records tables) (record : StringTable) :
    Represents (records ++ [record]) (addRecord record tables).value where
  names := by
    rw [value_addRecord]
    exact nodup_keys_upsert (name_add record) rfl h.names
  locales := by
    intro table ht
    rw [value_addRecord] at ht
    rcases mem_upsert h.names ht with ⟨hm, -⟩ | ⟨old, hm, -, rfl⟩ | ⟨rfl, -⟩
    · exact h.locales table hm
    · rw [variants_add, value_addToVariants]
      exact nodup_keys_upsert (Variant.locale_add record) (Variant.locale_ofRecord record)
        (h.locales old hm)
    · exact List.nodup_singleton record.locale
  origin := by
    intro table ht
    rw [value_addRecord] at ht
    rcases mem_upsert h.names ht with ⟨hm, -⟩ | ⟨old, hm, hname, rfl⟩ | ⟨rfl, -⟩
    · obtain ⟨other, ho, htable⟩ := h.origin table hm
      exact ⟨other, List.mem_append_left _ ho, htable⟩
    · exact ⟨record, List.mem_append_right _ (List.mem_singleton_self _),
        (hname.symm.trans (name_add record old).symm)⟩
    · exact ⟨record, List.mem_append_right _ (List.mem_singleton_self _), rfl⟩
  met := fun _ ho => h.met_addRecord record ho
  entries := fun _ ht _ hv key => h.addRecord_entries record ht hv key

theorem exists_variant_iff (h : Represents records tables) {table : LocalizedTable}
    (ht : table ∈ tables) {locale : Locale} {key : String} {entry : StringEntry} :
    (∃ variant ∈ table.variants, variant.locale = locale ∧ variant.entries.get? key = some entry) ↔
      localized? records table.name locale key = some entry := by
  constructor
  · rintro ⟨variant, hv, rfl, hget⟩
    rw [← h.entries table ht variant hv key, hget]
  · intro hsome
    have hmet : ¬ ∀ held ∈ tables, held.name = table.name →
        ∀ variant ∈ held.variants, variant.locale ≠ locale := by
      intro hnone
      rw [h.localized?_eq_none hnone key] at hsome
      cases hsome
    simp only [not_forall, not_not] at hmet
    obtain ⟨held, hh, hname, variant, hv, rfl⟩ := hmet
    obtain rfl := h.eq_of_name hh ht hname
    exact ⟨variant, hv, rfl, (h.entries held hh variant hv key).trans hsome⟩

theorem mem_names_iff (h : Represents records tables) {name : String} :
    name ∈ tables.map LocalizedTable.name ↔ name ∈ records.map StringTable.table := by
  simp only [List.mem_map]
  constructor
  · rintro ⟨table, ht, rfl⟩
    exact h.origin table ht
  · rintro ⟨record, hr, rfl⟩
    obtain ⟨table, ht, hname, -⟩ := h.met record hr
    exact ⟨table, ht, hname⟩

theorem mem_keys_iff (h : Represents records tables) {table : LocalizedTable} (ht : table ∈ tables)
    {key : String} :
    key ∈ table.keys ↔ ∃ locale entry, localized? records table.name locale key = some entry := by
  rw [LocalizedTable.keys, mem_distinct, List.mem_flatMap]
  constructor
  · rintro ⟨variant, hv, hk⟩
    obtain ⟨entry, hget⟩ := Dictionary.mem_keys_iff.mp hk
    exact ⟨variant.locale, entry, (h.exists_variant_iff ht).mp ⟨variant, hv, rfl, hget⟩⟩
  · rintro ⟨locale, entry, hsome⟩
    obtain ⟨variant, hv, -, hget⟩ := (h.exists_variant_iff ht).mpr hsome
    exact ⟨variant, hv, Dictionary.mem_keys_iff.mpr ⟨entry, hget⟩⟩

end Represents

theorem collectTables_represents (records : List StringTable) :
    Represents records (collectTables records).value := by
  rw [collectTables, Noted.foldlM_value]
  -- The tables of a run represent the records before it and those that it adds.
  have hrun : ∀ (before : List StringTable) (tables : List LocalizedTable),
      Represents before tables →
        Represents (before ++ records)
          (records.foldl (fun tables record => (addRecord record tables).value) tables) := by
    induction records with
    | nil =>
      intro before tables h
      rwa [List.append_nil]
    | cons record rest ih =>
      intro before tables h
      have hnext := ih (before ++ [record]) _ (h.addRecord record)
      rwa [List.append_assoc] at hnext
  exact hrun [] [] represents_nil

end Accessors.Namespace

import Mathlib.Data.List.Infix
import Mathlib.Data.List.Induction
import Accessors.Proofs.Namespace.Strings
import Accessors.Proofs.Permutation

/-!
# Merging of string records

Tables, and the locales of a table, stand in the order in which the records first name them. A
definition meets the one that is held for its key, and one of the two is held from then on. Only
where both are plain and differ does a notice say so: a definition that is dropped because of plural
rules, even for other ones, is dropped in silence.
-/

namespace Accessors

theorem eraseDups_append_singleton {α : Type} [DecidableEq α] (items : List α) (item : α) :
    (items ++ [item]).eraseDups =
      if item ∈ items then items.eraseDups else items.eraseDups ++ [item] := by
  have hsingle : [item].eraseDups = [item] := rfl
  rw [List.eraseDups_append]
  by_cases h : item ∈ items <;> simp [List.removeAll, h, hsingle]

namespace Namespace

open Record (StringEntry StringTable)

variable {records : List StringTable} {tables : List LocalizedTable} {table : String}
  {locale : Locale} {key : String}

def localesOf (records : List StringTable) (table : String) : List Locale :=
  ((records.filter (·.table == table)).map StringTable.locale).eraseDups

theorem localesOf_append_of_ne {record : StringTable} (h : record.table ≠ table) :
    localesOf (records ++ [record]) table = localesOf records table := by
  simp [localesOf, List.filter_append, h]

theorem localesOf_append (records : List StringTable) (record : StringTable) :
    localesOf (records ++ [record]) record.table =
      if record.locale ∈ localesOf records record.table then localesOf records record.table
      else localesOf records record.table ++ [record.locale] := by
  have hsingle : [record].filter (·.table == record.table) = [record] := by simp
  rw [localesOf, localesOf, List.filter_append, hsingle, List.map_append, List.map_singleton,
    eraseDups_append_singleton]
  simp only [List.mem_eraseDups]

theorem mem_localesOf_iff :
    locale ∈ localesOf records table ↔
      ∃ record ∈ records, record.table = table ∧ record.locale = locale := by
  simp [localesOf, and_assoc]

/-- Each table stands where it was met first, and so does each of its locales. -/
structure InOrderMet (records : List StringTable) (tables : List LocalizedTable) : Prop where
  names : tables.map LocalizedTable.name = (records.map StringTable.table).eraseDups
  locales : ∀ table ∈ tables, table.variants.map Variant.locale = localesOf records table.name

theorem InOrderMet.addRecord (h : InOrderMet records tables) (record : StringTable) :
    InOrderMet (records ++ [record]) (addRecord record tables).value where
  names := by
    have hnew : (LocalizedTable.ofRecord record).value.name = record.table := rfl
    rw [value_addRecord, keys_upsert (name_add record) hnew, h.names, List.map_append,
      List.map_singleton, eraseDups_append_singleton]
    simp only [List.mem_eraseDups]
  locales := by
    intro table ht
    have hd : (tables.map LocalizedTable.name).Nodup := h.names ▸ nodup_eraseDups _
    rw [value_addRecord] at ht
    rcases mem_upsert hd ht with ⟨hm, hne⟩ | ⟨old, hm, hname, rfl⟩ | ⟨rfl, hnew⟩
    · rw [h.locales table hm, localesOf_append_of_ne (Ne.symm hne)]
    · rw [variants_add, value_addToVariants,
        keys_upsert (Variant.locale_add record) (Variant.locale_ofRecord record),
        h.locales old hm, name_add, hname, localesOf_append]
    · have hnone : localesOf records record.table = [] := by
        apply List.eq_nil_iff_forall_not_mem.mpr
        intro locale hl
        obtain ⟨other, ho, htable, -⟩ := mem_localesOf_iff.mp hl
        have hmet : record.table ∈ tables.map LocalizedTable.name := by
          rw [h.names, List.mem_eraseDups]
          exact htable ▸ List.mem_map_of_mem ho
        obtain ⟨old, hold, hname⟩ := List.mem_map.mp hmet
        exact hnew old hold hname
      show [record.locale] = localesOf (records ++ [record]) record.table
      rw [localesOf_append, hnone]
      rfl

theorem value_collectTables_append (records : List StringTable) (record : StringTable) :
    (collectTables (records ++ [record])).value =
      (addRecord record (collectTables records).value).value := by
  rw [collectTables, List.foldlM_append]
  rfl

theorem notices_collectTables_append (records : List StringTable) (record : StringTable) :
    (collectTables (records ++ [record])).notices =
      (collectTables records).notices ++
        (addRecord record (collectTables records).value).notices := by
  rw [collectTables, List.foldlM_append]
  show _ ++ (_ ++ []) = _
  rw [List.append_nil]
  rfl

theorem collectTables_inOrderMet (records : List StringTable) :
    InOrderMet records (collectTables records).value := by
  induction records using List.reverseRecOn with
  | nil => exact ⟨rfl, nofun⟩
  | append_singleton records record ih =>
    rw [value_collectTables_append]
    exact ih.addRecord record

def held? (tables : List LocalizedTable) (table : String) (locale : Locale) (key : String) :
    Option StringEntry := do
  let found ← tables.find? (·.name == table)
  let variant ← found.variants.find? (·.locale == locale)
  variant.entries.get? key

theorem Represents.held?_eq (h : Represents records tables) (table : String) (locale : Locale)
    (key : String) : held? tables table locale key = localized? records table locale key := by
  simp only [held?, Option.bind_eq_bind]
  cases hfound : tables.find? (·.name == table) with
  | none =>
    refine (h.localized?_eq_none (fun other ho hname => ?_) key).symm
    exact absurd (beq_iff_eq.mpr hname) (List.find?_eq_none.mp hfound other ho)
  | some found =>
    have hm := List.mem_of_find?_eq_some hfound
    have hname : found.name = table := by simpa using List.find?_some hfound
    rw [Option.bind_some]
    cases hvariant : found.variants.find? (·.locale == locale) with
    | none =>
      refine (h.localized?_eq_none (fun other ho hother variant hv hl => ?_) key).symm
      obtain rfl := h.eq_of_name ho hm (hother.trans hname.symm)
      exact List.find?_eq_none.mp hvariant variant hv (beq_iff_eq.mpr hl)
    | some variant =>
      have hlocale : variant.locale = locale := by simpa using List.find?_some hvariant
      have hget := h.entries found hm variant (List.mem_of_find?_eq_some hvariant) key
      rw [hname, hlocale] at hget
      exact hget

theorem held?_collectTables (records : List StringTable) (table : String) (locale : Locale)
    (key : String) :
    held? (collectTables records).value table locale key = localized? records table locale key :=
  (collectTables_represents records).held?_eq table locale key

/-- Both definitions are plain, and they differ. -/
def contradicts : Option StringEntry → StringEntry → Bool
  | none, _ => false
  | some held, definition =>
    held != definition && held.pluralRules.isNone && definition.pluralRules.isNone

theorem notices_addEntry (table : String) (locale : Locale) (entries : Dictionary StringEntry)
    (definition : String × StringEntry) :
    (addEntry table locale entries definition).notices =
      if contradicts (entries.get? definition.1) definition.2 then
        [.keyRedefined definition.1 table locale]
      else [] := by
  unfold addEntry contradicts
  cases entries.get? definition.1 with
  | none => rfl
  | some held =>
    by_cases he : held = definition.2
    · simp [he]
    · cases hheld : held.pluralRules <;> cases hnew : definition.2.pluralRules <;>
        simp [he, hheld, hnew]

theorem notices_addEntries (record : StringTable) (entries : Dictionary StringEntry) :
    (addEntries record entries).notices = record.entries.entries.flatMap fun definition =>
      if contradicts (entries.get? definition.1) definition.2 then
        [.keyRedefined definition.1 record.table record.locale]
      else [] := by
  have hd := record.entries.increasing.nodup
  rw [addEntries]
  generalize record.entries.entries = added at hd
  induction added generalizing entries with
  | nil => rfl
  | cons definition rest ih =>
    obtain ⟨hfirst, hrest⟩ := List.nodup_cons.mp hd
    rw [List.foldlM_cons, Noted.bind_notices, ih _ hrest, notices_addEntry, List.flatMap_cons]
    congr 1
    refine List.flatMap_congr fun other ho => ?_
    have hne : other.1 ≠ definition.1 := fun he => hfirst (he ▸ List.mem_map_of_mem ho)
    rw [get?_addEntry_of_ne hne]

theorem Represents.notices_addRecord (h : Represents records tables) (record : StringTable) :
    (Namespace.addRecord record tables).notices =
      record.entries.entries.flatMap fun definition =>
        if contradicts (localized? records record.table record.locale definition.1)
            definition.2 then
          [.keyRedefined definition.1 record.table record.locale]
        else [] := by
  have hmet : ∃ entries : Dictionary StringEntry,
      (∀ key, entries.get? key = localized? records record.table record.locale key) ∧
        (Namespace.addRecord record tables).notices = (addEntries record entries).notices := by
    rcases Namespace.notices_addRecord record tables with ⟨table, ht, hname, hnotices⟩ |
        ⟨hnone, hnotices⟩
    · rw [hnotices]
      rcases notices_addToVariants record table.variants with ⟨variant, hv, hl, hnotices⟩ |
          ⟨hnone, hnotices⟩
      · exact ⟨variant.entries, fun key => hname ▸ hl ▸ h.entries table ht variant hv key, hnotices⟩
      · refine ⟨.empty, fun key => (h.localized?_eq_none (fun other ho hother => ?_) key).symm,
          hnotices⟩
        obtain rfl := h.eq_of_name ho ht (hother.trans hname.symm)
        exact hnone
    · exact ⟨.empty, fun key => (h.localized?_eq_none
        (fun other ho hother => absurd hother (hnone other ho)) key).symm, hnotices⟩
  obtain ⟨entries, hentries, hnotices⟩ := hmet
  rw [hnotices, notices_addEntries]
  simp only [hentries]

theorem notices_collectTables_record (records : List StringTable) (record : StringTable) :
    (collectTables (records ++ [record])).notices =
      (collectTables records).notices ++ record.entries.entries.flatMap fun definition =>
        if contradicts (localized? records record.table record.locale definition.1)
            definition.2 then
          [.keyRedefined definition.1 record.table record.locale]
        else [] := by
  rw [notices_collectTables_append, (collectTables_represents records).notices_addRecord]

end Namespace

end Accessors

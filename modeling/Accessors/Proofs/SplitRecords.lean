import Accessors.Proofs.Namespace.Merging
import Accessors.Proofs.Tree

/-!
# Records of strings that are split

Merging takes one definition after the other, and those of different keys have nothing to do with
each other. So a record may be given as two, one after the other, that share its keys out between
them: the tables are the same, and so are the notices but for their order.
-/

namespace Accessors

namespace Namespace

open Record (Resources StringEntry StringTable)

/-- The definitions of the record are shared out between the two others. -/
structure Splits (record first second : StringTable) : Prop where
  firstTable : first.table = record.table
  secondTable : second.table = record.table
  firstLocale : first.locale = record.locale
  secondLocale : second.locale = record.locale
  entries : (first.entries.entries ++ second.entries.entries).Perm record.entries.entries

namespace Splits

variable {record first second : StringTable}

theorem nodup_keys (h : Splits record first second) :
    ((first.entries.entries ++ second.entries.entries).map Prod.fst).Nodup :=
  (h.entries.map Prod.fst).nodup_iff.mpr record.entries.increasing.nodup

theorem get?_first (h : Splits record first second) {definition : String × StringEntry}
    (hd : definition ∈ second.entries.entries) : first.entries.get? definition.1 = none := by
  rw [Option.eq_none_iff_forall_ne_some]
  intro other hother
  have hdisjoint := List.disjoint_of_nodup_append (List.map_append ▸ h.nodup_keys)
  have hkey : definition.1 ∈ first.entries.entries.map Prod.fst :=
    Dictionary.mem_keys_iff.mpr ⟨other, hother⟩
  exact hdisjoint hkey (List.mem_map_of_mem hd)

theorem get?_eq (h : Splits record first second) (key : String) :
    record.entries.get? key = (first.entries.get? key).or (second.entries.get? key) := by
  refine Option.ext fun definition => ?_
  rw [Dictionary.get?_eq_some_iff, ← h.entries.mem_iff, List.mem_append,
    ← Dictionary.get?_eq_some_iff, ← Dictionary.get?_eq_some_iff]
  cases hsecond : second.entries.get? key with
  | none => simp
  | some other =>
    have hfirst := h.get?_first (Dictionary.get?_eq_some_iff.mp hsecond)
    simp [hfirst]

theorem addEntries_eq (h : Splits record first second) (entries : Dictionary StringEntry) :
    (addEntries second (addEntries first entries).value).value =
      (addEntries record entries).value := by
  refine Dictionary.ext_get? fun key => ?_
  rw [get?_addEntries, get?_addEntries, get?_addEntries, h.get?_eq key]
  cases hsecond : second.entries.get? key with
  | none => rw [Option.or_none]
  | some definition =>
    have hfirst := h.get?_first (Dictionary.get?_eq_some_iff.mp hsecond)
    rw [hfirst, Option.none_or]

theorem variant_add (h : Splits record first second) (variant : Variant) :
    ((variant.add first).value.add second).value = (variant.add record).value :=
  congrArg (Variant.mk variant.locale) (h.addEntries_eq variant.entries)

theorem variant_ofRecord (h : Splits record first second) :
    ((Variant.ofRecord first).value.add second).value = (Variant.ofRecord record).value := by
  show Variant.mk first.locale _ = Variant.mk record.locale _
  rw [h.firstLocale]
  exact congrArg (Variant.mk record.locale) (h.addEntries_eq .empty)

theorem addToVariants_eq (h : Splits record first second) (variants : List Variant) :
    (addToVariants second (addToVariants first variants).value).value =
      (addToVariants record variants).value := by
  rw [value_addToVariants, value_addToVariants, value_addToVariants, h.firstLocale, h.secondLocale,
    upsert_upsert (Variant.locale_add first) h.firstLocale, h.variant_ofRecord]
  simp only [h.variant_add]

theorem table_add (h : Splits record first second) (table : LocalizedTable) :
    ((table.add first).value.add second).value = (table.add record).value := by
  have hvariants : ((table.add first).value.add second).value.variants =
      (table.add record).value.variants := by
    rw [variants_add, variants_add, variants_add, h.addToVariants_eq]
  have hname : ((table.add first).value.add second).value.name = (table.add record).value.name := by
    rw [name_add, name_add, name_add]
  generalize ((table.add first).value.add second).value = a at hvariants hname
  generalize (table.add record).value = b at hvariants hname
  obtain ⟨hfirst, hothers⟩ := List.cons.inj hvariants
  cases a
  cases b
  exact LocalizedTable.mk.injEq .. ▸ ⟨hname, hfirst, hothers⟩

theorem table_ofRecord (h : Splits record first second) :
    ((LocalizedTable.ofRecord first).value.add second).value =
      (LocalizedTable.ofRecord record).value := by
  have hlocale : (LocalizedTable.ofRecord first).value.first.locale = second.locale :=
    h.firstLocale.trans h.secondLocale.symm
  rw [LocalizedTable.add, if_pos hlocale]
  show LocalizedTable.mk first.table _ [] = LocalizedTable.mk record.table _ []
  rw [h.firstTable]
  exact congrArg (LocalizedTable.mk record.table · []) h.variant_ofRecord

theorem addRecord_eq (h : Splits record first second) (tables : List LocalizedTable) :
    (addRecord second (addRecord first tables).value).value =
      (addRecord record tables).value := by
  have hnew : (LocalizedTable.ofRecord first).value.name = record.table := h.firstTable
  rw [value_addRecord, value_addRecord, value_addRecord, h.firstTable, h.secondTable,
    upsert_upsert (name_add first) hnew, h.table_ofRecord]
  simp only [h.table_add]

theorem notices_perm (h : Splits record first second) (before : List StringTable) :
    (collectTables (before ++ [first] ++ [second])).notices.Perm
      (collectTables (before ++ [record])).notices := by
  rw [notices_collectTables_record, notices_collectTables_record, notices_collectTables_record,
    List.append_assoc]
  refine List.Perm.append_left _ ?_
  have hunmet : ∀ definition ∈ second.entries.entries,
      localized? (before ++ [first]) second.table second.locale definition.1 =
        localized? before record.table record.locale definition.1 := by
    intro definition hd
    rw [h.secondTable, h.secondLocale, ← h.firstTable, ← h.firstLocale, localized?_append,
      h.get?_first hd]
  have hsecond : (second.entries.entries.flatMap fun definition =>
      if contradicts (localized? (before ++ [first]) second.table second.locale definition.1)
          definition.2 then
        [Notice.keyRedefined definition.1 second.table second.locale]
      else []) = second.entries.entries.flatMap fun definition =>
        if contradicts (localized? before record.table record.locale definition.1) definition.2 then
          [Notice.keyRedefined definition.1 record.table record.locale]
        else [] :=
    List.flatMap_congr fun definition hd => by rw [hunmet definition hd, h.secondTable,
      h.secondLocale]
  rw [hsecond, h.firstTable, h.firstLocale, ← List.flatMap_append]
  exact h.entries.flatMap_right _

theorem collectTables_eq (h : Splits record first second) (before after : List StringTable) :
    (collectTables (before ++ first :: second :: after)).value =
        (collectTables (before ++ record :: after)).value ∧
      (collectTables (before ++ first :: second :: after)).notices.Perm
        (collectTables (before ++ record :: after)).notices := by
  induction after using List.reverseRecOn with
  | nil =>
    rw [show before ++ [first, second] = before ++ [first] ++ [second] by simp]
    refine ⟨?_, h.notices_perm before⟩
    rw [value_collectTables_append, value_collectTables_append, value_collectTables_append,
      h.addRecord_eq]
  | append_singleton after last ih =>
    obtain ⟨hvalue, hnotices⟩ := ih
    rw [show before ++ first :: second :: (after ++ [last]) =
        before ++ first :: second :: after ++ [last] by simp,
      show before ++ record :: (after ++ [last]) = before ++ record :: after ++ [last] by simp,
      value_collectTables_append, value_collectTables_append, notices_collectTables_append,
      notices_collectTables_append, hvalue]
    exact ⟨rfl, hnotices.append_right _⟩

theorem strings_eq (h : Splits record first second) (options : Options)
    (before after : List StringTable) :
    (strings options (before ++ first :: second :: after)).value =
        (strings options (before ++ record :: after)).value ∧
      (strings options (before ++ first :: second :: after)).notices.Perm
        (strings options (before ++ record :: after)).notices := by
  obtain ⟨hvalue, hnotices⟩ := h.collectTables_eq before after
  rw [value_strings, value_strings, notices_strings, notices_strings, tableMembers, tableMembers,
    hvalue]
  exact ⟨rfl, hnotices.append_right _⟩

end Splits

end Namespace

open Record (Resources StringTable)

theorem compile_congr_strings (options : Options) (resources : Resources)
    {others : List StringTable}
    (hvalue : (Namespace.strings options others).value =
      (Namespace.strings options resources.strings).value)
    (hnotices : (Namespace.strings options others).notices.Perm
      (Namespace.strings options resources.strings).notices) :
    (compile options { resources with strings := others }).value =
        (compile options resources).value ∧
      (compile options { resources with strings := others }).notices.Perm
        (compile options resources).notices := by
  have hsplit : ∀ held : Resources, namespaces options held =
      ⟨.strings, "string", Namespace.strings options held.strings⟩ ::
        (namespaces options held).tail := fun _ => rfl
  have htail : (namespaces options { resources with strings := others }).tail =
      (namespaces options resources).tail := rfl
  have hnodes : (enabledNamespaces options { resources with strings := others }).map
        (fun space => space.contents.value.node space.name) =
      (enabledNamespaces options resources).map
        fun space => space.contents.value.node space.name := by
    rw [enabledNamespaces, enabledNamespaces, hsplit, hsplit resources, htail, List.filter_cons,
      List.filter_cons]
    split
    · rw [List.map_cons, List.map_cons, hvalue]
    · rfl
  have hgiven : ((enabledNamespaces options { resources with strings := others }).flatMap
        (·.contents.notices)).Perm
      ((enabledNamespaces options resources).flatMap (·.contents.notices)) := by
    rw [enabledNamespaces, enabledNamespaces, hsplit, hsplit resources, htail, List.filter_cons,
      List.filter_cons]
    split
    · rw [List.flatMap_cons, List.flatMap_cons]
      exact hnotices.append_right _
    · exact List.Perm.refl _
  rw [compile_value, compile_value, gather_value, gather_value, compile_notices, compile_notices,
    hnodes]
  exact ⟨rfl, hgiven.append_right _⟩

open Namespace (LocalizedTable Splits Variant collectTables definitions localesOf settled?)

/-- Each table and each of its locales is there once, where it is met first, and holds of each key
the first definition with plural rules, or else the first. Splitting a record changes nothing but
the order of the notices. -/
theorem records_merged (options : Options) (records : List StringTable) :
    (collectTables records).value.map LocalizedTable.name =
        (records.map StringTable.table).eraseDups ∧
      (∀ table ∈ (collectTables records).value,
        table.variants.map Variant.locale = localesOf records table.name ∧
          ∀ variant ∈ table.variants, ∀ key, variant.entries.get? key =
            settled? (definitions records table.name variant.locale key)) ∧
      ∀ before record after first second, records = before ++ record :: after →
        Splits record first second →
          let parted := before ++ first :: second :: after
          ((Namespace.strings options parted).value = (Namespace.strings options records).value ∧
            (Namespace.strings options parted).notices.Perm
              (Namespace.strings options records).notices) ∧
          ∀ resources : Resources, resources.strings = records →
            (compile options { resources with strings := parted }).value =
                (compile options resources).value ∧
              (compile options { resources with strings := parted }).notices.Perm
                (compile options resources).notices := by
  have hmet := Namespace.collectTables_inOrderMet records
  refine ⟨hmet.names, fun table ht => ⟨hmet.locales table ht, fun variant hv key => ?_⟩, ?_⟩
  · exact (Namespace.collectTables_represents records).entries table ht variant hv key
  · rintro before record after first second rfl hsplits
    obtain ⟨hvalue, hnotices⟩ := hsplits.strings_eq options before after
    refine ⟨⟨hvalue, hnotices⟩, fun resources hresources => ?_⟩
    rw [← hresources] at hvalue hnotices
    exact compile_congr_strings options resources hvalue hnotices

def menuTable (entries : List (String × Record.StringEntry)) : StringTable :=
  ⟨"Main", .language "en", .ofList entries⟩

def earlierEntries : List (String × Record.StringEntry) := [
  ("close", ⟨"Close", none, none⟩), ("open", ⟨"Open", none, none⟩)]

def laterEntries : List (String × Record.StringEntry) := [
  ("close", ⟨"Close %#@n@", none, some .empty⟩), ("open", ⟨"Open file", none, none⟩)]

def menuTables : List StringTable := [menuTable earlierEntries, menuTable laterEntries]

def menuVariant : Variant := ⟨.language "en", .ofList [
  ("close", ⟨"Close %#@n@", none, some .empty⟩), ("open", ⟨"Open", none, none⟩)]⟩

theorem records_merged_menu :
    let parted := [menuTable earlierEntries, menuTable laterEntries.tail,
      menuTable (laterEntries.take 1)]
    (collectTables menuTables).value.map LocalizedTable.name = ["Main"] ∧
      settled? (definitions menuTables "Main" (.language "en") "close") =
        some ⟨"Close %#@n@", none, some .empty⟩ ∧
      (Namespace.strings .default parted).value = (Namespace.strings .default menuTables).value ∧
      (compile .default { sampleResources with strings := parted }).notices.Perm
        (compile .default { sampleResources with strings := menuTables }).notices := by
  obtain ⟨hnames, hheld, hparted⟩ := records_merged .default menuTables
  have htable : ⟨"Main", menuVariant, []⟩ ∈ (collectTables menuTables).value := by decide +kernel
  have hclose := (hheld _ htable).2 menuVariant (List.mem_cons_self ..) "close"
  have hget : menuVariant.entries.get? "close" = some ⟨"Close %#@n@", none, some .empty⟩ := by
    decide +kernel
  have hsplits : Splits (menuTable laterEntries) (menuTable laterEntries.tail)
      (menuTable (laterEntries.take 1)) := ⟨rfl, rfl, rfl, rfl, by decide +kernel⟩
  obtain ⟨hstrings, hcompile⟩ := hparted [menuTable earlierEntries] _ [] _ _ rfl hsplits
  refine ⟨hnames.trans (by decide +kernel), hclose.symm.trans hget, hstrings.1, ?_⟩
  exact (hcompile { sampleResources with strings := menuTables } rfl).2

end Accessors

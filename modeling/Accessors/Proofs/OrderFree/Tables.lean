import Accessors.Proofs.Namespace.Strings
import Accessors.Proofs.OrderFree.Contents

/-!
# String tables without an order

If no table is given twice in one locale, the order of the records decides neither what the tables
hold nor what the locales of a key unify to. It decides which locale comes first, and so which text
stands for a key that the primary variant lacks; that text is part of the binding and of the
documentation only.
-/

namespace Accessors.Namespace

open Format (Argument)
open Record (StringEntry StringTable)
open Accessors.Symbol (Leaf Node)

def OncePerLocale (records : List StringTable) : Prop :=
  (records.map fun record => (record.table, record.locale)).Nodup

section

variable {records others : List StringTable}

theorem localized?_of_mem (hd : OncePerLocale records) {record : StringTable}
    (hr : record ∈ records) (key : String) :
    localized? records record.table record.locale key = record.entries.get? key := by
  have hfilter : records.filter (fun other =>
      decide (other.table = record.table ∧ other.locale = record.locale)) = [record] := by
    refine filter_eq_singleton (List.Nodup.of_map _ hd) hr (by simp) fun other ho he => ?_
    exact List.inj_on_of_nodup_map hd ho hr (Prod.ext_iff.mpr (of_decide_eq_true he))
  rw [localized?, definitions, hfilter]
  cases hget : record.entries.get? key with
  | none => simp [hget, settled?]
  | some entry =>
    have hsome : [record].filterMap (·.entries.get? key) = [entry] := by simp [hget]
    rw [hsome]
    exact settled?_append_singleton [] entry

theorem localized?_eq_of_perm (h : records.Perm others) (hd : OncePerLocale records)
    (table : String) (locale : Locale) (key : String) :
    localized? records table locale key = localized? others table locale key := by
  have hdo : OncePerLocale others := (h.map _).nodup_iff.mp hd
  by_cases hmet : ∃ record ∈ records, record.table = table ∧ record.locale = locale
  · obtain ⟨record, hr, rfl, rfl⟩ := hmet
    rw [localized?_of_mem hd hr, localized?_of_mem hdo (h.mem_iff.mp hr)]
  · have hnone : ∀ held : List StringTable, (∀ record ∈ held, record ∈ records) →
        localized? held table locale key = none := by
      intro held hheld
      refine localized?_eq_none_iff.mpr fun record hr ht hl => ?_
      exact absurd ⟨record, hheld record hr, ht, hl⟩ hmet
    rw [hnone records fun _ hr => hr, hnone others fun _ hr => h.mem_iff.mpr hr]

end

namespace TableContext

variable {context other : TableContext} {key : String}

theorem pairwise_entriesOf (hd : (context.table.variants.map Variant.locale).Nodup) (key : String) :
    (context.entriesOf key).Pairwise fun a b => a.1.Before b.1 := by
  refine List.Pairwise.filterMap _ ?_ (Locale.pairwise_mergeSort hd)
  intro a b hab pair hpair pair' hpair'
  obtain ⟨entry, -, rfl⟩ := Option.map_eq_some_iff.mp hpair
  obtain ⟨entry', -, rfl⟩ := Option.map_eq_some_iff.mp hpair'
  exact hab

theorem constant_withoutTexts (context : TableContext) (key : String) (fallback : StringEntry) :
    (context.constant key fallback).withoutTexts =
      ⟨Identifier.ofName key, .constant, "StringResource", "", []⟩ := rfl

theorem function_withoutTexts (context : TableContext) (key : String) (fallback : StringEntry)
    (arguments : List Argument) :
    (context.function key fallback arguments).withoutTexts =
      ⟨Identifier.ofName key, .function (parameters arguments), "String", "", []⟩ := rfl

theorem leaves_withoutTexts_congr (hname : context.table.name = other.table.name)
    (hentries : context.entriesOf key = other.entriesOf key) {entry : StringEntry}
    (hentry : Among (context.entriesOf key) entry) :
    (context.leaves key).value.map Leaf.withoutTexts =
      (other.leaves key).value.map Leaf.withoutTexts := by
  obtain ⟨fallback, hfallback⟩ := exists_fallback? hentry
  obtain ⟨otherFallback, hotherFallback⟩ := exists_fallback? (hentries ▸ hentry)
  cases hresult : argumentsOf key context.table.name (context.entriesOf key) with
  | error notice =>
    rw [leaves_error hresult, leaves_error (hname ▸ hentries ▸ hresult)]
  | ok arguments =>
    rw [leaves_ok hresult hfallback, leaves_ok (hname ▸ hentries ▸ hresult) hotherFallback]
    by_cases hempty : arguments = []
    · simp [hempty, constant_withoutTexts]
    · simp [hempty, constant_withoutTexts, function_withoutTexts]

end TableContext

section

variable {records others : List StringTable} {table table' : LocalizedTable}
  (options : Options) (h : records.Perm others) (hd : OncePerLocale records)
  (ht : table ∈ (collectTables records).value) (ht' : table' ∈ (collectTables others).value)
  (hname : table.name = table'.name)

include h hd ht ht' hname

theorem keys_eq_of_perm : table.keys = table'.keys := by
  refine Increasing.eq_of_mem_iff (increasing_distinct _) (increasing_distinct _) fun key => ?_
  rw [(collectTables_represents records).mem_keys_iff ht,
    (collectTables_represents others).mem_keys_iff ht', hname]
  simp only [localized?_eq_of_perm h hd]

theorem entriesOf_eq_of_perm (key : String) :
    (contextOf options table).entriesOf key = (contextOf options table').entriesOf key := by
  have hrepresents := collectTables_represents records
  have hrepresents' := collectTables_represents others
  refine eq_of_pairwise_of_mem_iff (fun a b => Locale.Before.asymm)
    (TableContext.pairwise_entriesOf (hrepresents.locales table ht) key)
    (TableContext.pairwise_entriesOf (hrepresents'.locales table' ht') key) ?_
  rintro ⟨locale, entry⟩
  rw [TableContext.mem_entriesOf_iff, TableContext.mem_entriesOf_iff]
  exact (hrepresents.exists_variant_iff ht).trans
    (hname ▸ localized?_eq_of_perm h hd .. ▸ (hrepresents'.exists_variant_iff ht').symm)

theorem tableContents_withoutTexts_eq_of_perm :
    (tableContents options table).value.withoutTexts =
      (tableContents options table').value.withoutTexts := by
  rw [value_tableContents, value_tableContents]
  refine view_assemble_eq_of_perm Contents.withoutTexts_concat (List.Perm.of_eq ?_) _ _ _
  simp only [views, keyMembers, List.map_map, ← keys_eq_of_perm h hd ht ht' hname]
  refine List.map_congr_left fun key hkey => ?_
  obtain ⟨locale, entry, hsome⟩ := ((collectTables_represents records).mem_keys_iff ht).mp hkey
  obtain ⟨variant, hv, -, hget⟩ :=
    ((collectTables_represents records).exists_variant_iff ht).mpr hsome
  have hentry : Among ((contextOf options table).entriesOf key) entry :=
    TableContext.among_entriesOf_iff.mpr ⟨variant, hv, hget⟩
  have hentries := entriesOf_eq_of_perm options h hd ht ht' hname key
  simp only [Function.comp_apply, TableContext.member, Noted.bind_value, Noted.pure_value,
    Contents.withoutTexts_ofLeaves, TableContext.leaves_withoutTexts_congr hname hentries hentry]

end

theorem strings_withoutTexts_eq_of_perm (options : Options) {records others : List StringTable}
    (h : records.Perm others) (hd : OncePerLocale records) :
    (strings options records).value.withoutTexts = (strings options others).value.withoutTexts := by
  have hrepresents := collectTables_represents records
  have hrepresents' := collectTables_represents others
  have hviews : ∀ tables : List LocalizedTable,
      views Contents.withoutTexts
          (tables.map fun table => .child table.name (tableContents options table)) =
        tables.map fun table => (table.name, .ofChild ((tableContents options
          table).value.withoutTexts.node (Identifier.ofName table.name))) := by
    intro tables
    simp only [views, List.map_map, Function.comp_def, Member.child, Noted.bind_value,
      Noted.pure_value, Contents.withoutTexts_ofChild, Contents.withoutTexts_node]
  rw [value_strings, value_strings]
  refine view_assemble_eq_of_perm Contents.withoutTexts_concat ?_ _ _ _
  rw [tableMembers, tableMembers, hviews, hviews]
  refine perm_map_of_keys hrepresents.names hrepresents'.names (fun name => ?_)
    fun table ht table' ht' hname => ?_
  · rw [hrepresents.mem_names_iff, hrepresents'.mem_names_iff]
    exact (h.map StringTable.table).mem_iff
  · rw [tableContents_withoutTexts_eq_of_perm options h hd ht ht' hname, hname]

end Accessors.Namespace

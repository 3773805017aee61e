import Accessors.Proofs.Namespace.Merging

/-!
# Gaps between the locales of a table

Each locale of a table is compared with the primary one: what it lacks and what it has besides are
reported, in order and only if there is any. The value that an accessor falls back on is that of the
primary locale; if this has none, it is that of the locale that was met first, and the key is
reported for every locale that has it. Without a report all locales have the same keys.
-/

namespace Accessors

def Notice.gap? : Notice → Option (String × Locale)
  | .translationMissing table locale _ => some (table, locale)
  | .translationExtra table locale _ _ => some (table, locale)
  | _ => none

namespace Namespace

open Format (Argument)
open Identifier (Alone)
open Record (StringEntry StringTable)
open Accessors.Symbol (Leaf Node Parameter)
open Text (quote quoteList)

variable {options : Options} {records : List StringTable} {held : LocalizedTable}
  {primary variant : Variant} {locale : Locale} {notice : Notice} {key : String}

/-- The base locale if it is among them, or else the language of development, or else the first. -/
def primaryLocale? (development : Option String) (locales : List Locale) : Option Locale :=
  if .base ∈ locales then some .base
  else ((development.map Locale.language).filter (· ∈ locales)).or locales.head?

theorem find?_locale_eq_none_iff {variants : List Variant} {locale : Locale} :
    variants.find? (·.locale == locale) = none ↔ locale ∉ variants.map Variant.locale := by
  simp [List.find?_eq_none]

theorem primary_spec (development : Option String) (held : LocalizedTable) :
    held.primary development ∈ held.variants ∧
      primaryLocale? development (held.variants.map Variant.locale) =
        some (held.primary development).locale := by
  have hfound : ∀ {locale : Locale} {variant : Variant},
      held.variants.find? (·.locale == locale) = some variant →
        variant ∈ held.variants ∧ variant.locale = locale ∧
          locale ∈ held.variants.map Variant.locale := by
    intro locale variant h
    have hm := List.mem_of_find?_eq_some h
    have hlocale : variant.locale = locale := by simpa using List.find?_some h
    exact ⟨hm, hlocale, hlocale ▸ List.mem_map_of_mem hm⟩
  have hfirst : held.first ∈ held.variants := List.mem_cons_self ..
  have hhead : (held.variants.map Variant.locale).head? = some held.first.locale := rfl
  unfold LocalizedTable.primary primaryLocale?
  dsimp only
  cases hbase : held.variants.find? (·.locale == .base) with
  | some variant =>
    obtain ⟨hm, hlocale, hmem⟩ := hfound hbase
    rw [if_pos hmem, Option.some_or, Option.getD_some, hlocale]
    exact ⟨hm, rfl⟩
  | none =>
    rw [if_neg (find?_locale_eq_none_iff.mp hbase), Option.none_or, hhead]
    cases development with
    | none => exact ⟨hfirst, rfl⟩
    | some name =>
      cases hlanguage : held.variants.find? (·.locale == .language name) with
      | some variant =>
        obtain ⟨hm, hlocale, hmem⟩ := hfound hlanguage
        simp [hlanguage, hm, hlocale, hmem, Option.filter]
      | none =>
        have hnot := find?_locale_eq_none_iff.mp hlanguage
        simp [hlanguage, hnot, hfirst, Option.filter]

theorem gap?_of_mem_gapsOf {table : String} (h : notice ∈ gapsOf table primary variant) :
    notice.gap? = some (table, variant.locale) := by
  rcases cases_of_mem_gapsOf h with ⟨keys, rfl⟩ | ⟨keys, rfl⟩ <;> rfl

theorem gap?_of_mem_translationGaps (h : notice ∈ translationGaps held primary) :
    ∃ locale, locale ≠ primary.locale ∧ locale ∈ held.variants.map Variant.locale ∧
      notice.gap? = some (held.name, locale) := by
  obtain ⟨variant, hv, h⟩ := List.mem_flatMap.mp h
  obtain ⟨hv, hne⟩ := List.mem_filter.mp (List.mem_mergeSort.mp hv)
  exact ⟨variant.locale, by simpa using hne, List.mem_map_of_mem hv, gap?_of_mem_gapsOf h⟩

theorem filter_translationGaps (hd : (held.variants.map Variant.locale).Nodup)
    (hv : variant ∈ held.variants) (hne : variant.locale ≠ primary.locale) :
    (translationGaps held primary).filter (·.gap? == some (held.name, variant.locale)) =
      gapsOf held.name primary variant := by
  let others := held.variants.filter (·.locale != primary.locale)
  have hvariant : variant ∈ others := List.mem_filter.mpr ⟨hv, by simpa using hne⟩
  have hnodup : (LocalizedTable.sortVariants others).Nodup :=
    (List.mergeSort_perm others _).nodup_iff.mpr ((List.Nodup.of_map _ hd).filter _)
  rw [translationGaps, filter_flatMap_eq hnodup (List.mem_mergeSort.mpr hvariant)]
  · exact List.filter_eq_self.mpr fun notice hn => beq_iff_eq.mpr (gap?_of_mem_gapsOf hn)
  · intro other hm hother
    refine List.filter_eq_nil_iff.mpr fun notice hn he => hother ?_
    have hm := (List.mem_filter.mp (List.mem_mergeSort.mp hm)).1
    rw [gap?_of_mem_gapsOf hn, beq_iff_eq, Option.some.injEq, Prod.mk.injEq] at he
    exact List.inj_on_of_nodup_map hd hm hv he.2

theorem gap?_collectTables (h : notice ∈ (collectTables records).notices) : notice.gap? = none := by
  obtain ⟨tables, record, -, h⟩ := Noted.mem_notices_foldlM h
  obtain ⟨key, rfl⟩ := exists_redefined_of_mem_addRecord h
  rfl

theorem gap?_of_rejects {table : String} (h : notice.rejects key table) : notice.gap? = none := by
  cases notice <;> first | rfl | exact h.elim

theorem filter_gaps_tableContents (options : Options) (held : LocalizedTable)
    {p : Notice → Bool} (hp : ∀ notice, p notice = true → notice.gap?.isSome) :
    (tableContents options held).notices.filter p =
      (translationGaps held (held.primary options.developmentLocale)).filter p := by
  have hquiet : (assemble "strings" s!"table '{held.name}'"
      (keyMembers options held)).notices.filter p = [] := by
    refine List.filter_eq_nil_iff.mpr fun notice hn hpn => ?_
    have hgap := hp notice hpn
    rw [assemble_notices] at hn
    rcases List.mem_append.mp hn with hn | hn
    · rcases Identifier.cases_of_mem_notices hn with ⟨_, _, rfl⟩ | ⟨_, rfl⟩ <;> cases hgap
    · obtain ⟨named, hnamed, hn⟩ := List.mem_flatMap.mp hn
      obtain ⟨key, -, hitem⟩ := List.mem_map.mp (mem_keptMembers hnamed).1
      rw [← hitem, TableContext.notices_member] at hn
      rw [gap?_of_rejects (TableContext.rejects_of_mem_leaves hn)] at hgap
      cases hgap
  rw [notices_tableContents, List.filter_append, hquiet, List.append_nil]

theorem filter_gaps_strings (hheld : held ∈ (collectTables records).value)
    (h : Alone (records.map StringTable.table) held.name) {p : Notice → Bool}
    (hp : ∀ notice, p notice = true → ∃ locale, notice.gap? = some (held.name, locale)) :
    (strings options records).notices.filter p =
      (translationGaps held (held.primary options.developmentLocale)).filter p := by
  have hsome : ∀ notice, p notice = true → notice.gap?.isSome := by
    intro notice hpn
    obtain ⟨locale, hgap⟩ := hp notice hpn
    rw [hgap]
    rfl
  have hquiet : (collectTables records).notices.filter p = [] := by
    refine List.filter_eq_nil_iff.mpr fun notice hn hpn => ?_
    have hgap := hsome notice hpn
    rw [gap?_collectTables hn] at hgap
    cases hgap
  rw [notices_strings, List.filter_append, hquiet, List.nil_append,
    filter_notices_assemble "string tables" "string" ?_ ?_ (name_mem_keptTables options hheld h),
    notices_child, filter_gaps_tableContents options held hsome]
  · intro other ho notice hn hpn
    obtain ⟨table, -, rfl⟩ := List.mem_map.mp ho
    rw [notices_child] at hn
    obtain ⟨locale, hgap⟩ := hp notice hpn
    have hn : notice ∈ (tableContents options table).notices.filter p :=
      List.mem_filter.mpr ⟨hn, hpn⟩
    rw [filter_gaps_tableContents options table hsome] at hn
    obtain ⟨other, -, -, hother⟩ := gap?_of_mem_translationGaps (List.mem_filter.mp hn).1
    rw [hgap, Option.some.injEq, Prod.mk.injEq] at hother
    exact congrArg Identifier.ofName hother.1.symm
  · exact fun _ _ => Bool.eq_false_iff.mpr fun hpn => absurd (hsome _ hpn) nofun
  · exact fun _ => Bool.eq_false_iff.mpr fun hpn => absurd (hsome _ hpn) nofun

theorem mem_localesOf_of_isSome {table : String}
    (h : (localized? records table locale key).isSome) : locale ∈ localesOf records table := by
  by_contra hnot
  have hnone : localized? records table locale key = none :=
    localized?_eq_none_iff.mpr fun record hr htable hlocale =>
      absurd (mem_localesOf_iff.mpr ⟨record, hr, htable, hlocale⟩) hnot
  rw [hnone] at h
  cases h

/-- The keys that one locale of a table has and another one lacks, in order. -/
structure LeftOut (records : List StringTable) (table : String) (having lacking : Locale)
    (keys : List String) : Prop where
  increasing : Increasing keys
  mem_iff : ∀ key, key ∈ keys ↔
    (localized? records table having key).isSome ∧ localized? records table lacking key = none

/-- Every other locale of a table is compared with the primary one, and nothing else is. -/
structure GapsReported (records : List StringTable) (table : String) (primary : Locale)
    (notices : List Notice) : Prop where
  compared : ∀ locale ∈ localesOf records table, locale ≠ primary → ∃ missing extra,
    LeftOut records table primary locale missing ∧ LeftOut records table locale primary extra ∧
      notices.filter (·.gap? == some (table, locale)) =
        (if missing = [] then [] else [.translationMissing table locale missing]) ++
          (if extra = [] then [] else [.translationExtra table locale primary extra])
  elsewhere : ∀ locale, locale = primary ∨ locale ∉ localesOf records table →
    notices.filter (·.gap? == some (table, locale)) = []

theorem LeftOut.of_filter {having lacking : Variant} {table : String}
    (hhaving : ∀ key, having.entries.get? key = localized? records table having.locale key)
    (hlacking : ∀ key, lacking.entries.get? key = localized? records table lacking.locale key) :
    LeftOut records table having.locale lacking.locale
      (having.entries.keys.filter (! lacking.entries.keys.contains ·)) where
  increasing := having.entries.increasing.sublist List.filter_sublist
  mem_iff := by
    intro key
    rw [List.mem_filter, Dictionary.mem_keys_iff, ← Option.isSome_iff_exists, hhaving,
      ← hlacking, Bool.not_eq_true', List.contains_eq_mem, decide_eq_false_iff_not,
      Dictionary.mem_keys_iff, ← Option.isSome_iff_exists, Option.not_isSome_iff_eq_none]

theorem gapsReported_strings (options : Options) (hheld : held ∈ (collectTables records).value)
    (h : Alone (records.map StringTable.table) held.name) :
    GapsReported records held.name (held.primary options.developmentLocale).locale
      (strings options records).notices where
  compared := by
    intro locale hl hne
    have hrepresents := collectTables_represents records
    rw [← (collectTables_inOrderMet records).locales held hheld] at hl
    obtain ⟨variant, hv, rfl⟩ := List.mem_map.mp hl
    have hprimary := hrepresents.entries held hheld _
      (primary_spec options.developmentLocale held).1
    have hentries := hrepresents.entries held hheld variant hv
    refine ⟨_, _, .of_filter hprimary hentries, .of_filter hentries hprimary, ?_⟩
    rw [filter_gaps_strings hheld h fun notice hn => ⟨_, beq_iff_eq.mp hn⟩,
      filter_translationGaps (hrepresents.locales held hheld) hv hne, gapsOf]
    simp only [List.isEmpty_iff]
  elsewhere := by
    intro locale hl
    rw [filter_gaps_strings hheld h fun notice hn => ⟨_, beq_iff_eq.mp hn⟩]
    refine List.filter_eq_nil_iff.mpr fun notice hn hgap => ?_
    obtain ⟨other, hne, hm, hother⟩ := gap?_of_mem_translationGaps hn
    rw [hother, beq_iff_eq, Option.some.injEq, Prod.mk.injEq] at hgap
    obtain rfl := hgap.2
    rw [(collectTables_inOrderMet records).locales held hheld] at hm
    exact hl.elim hne fun hnot => hnot hm

theorem LeftOut.eq_filter {table : String} {having lacking : Locale} {keys : List String}
    (h : LeftOut records table having lacking keys) :
    keys = (distinct (keysOf records table)).filter fun key =>
      (localized? records table having key).isSome &&
        (localized? records table lacking key).isNone := by
  refine h.increasing.eq_of_mem_iff ((increasing_distinct _).sublist List.filter_sublist) ?_
  intro key
  rw [h.mem_iff, List.mem_filter, mem_distinct, Bool.and_eq_true, Option.isNone_iff_eq_none,
    iff_and_self]
  rintro ⟨hhaving, -⟩
  exact mem_keysOf_iff.mpr ⟨having, Option.isSome_iff_exists.mp hhaving⟩

namespace GapsReported

variable {table : String} {primary : Locale} {notices : List Notice}

theorem ne_of_localized (hlacking : localized? records table primary key = none)
    (hhaving : (localized? records table locale key).isSome) : locale ≠ primary := by
  rintro rfl
  rw [hlacking] at hhaving
  cases hhaving

theorem listed (h : GapsReported records table primary notices)
    (hlacking : localized? records table primary key = none)
    (hhaving : (localized? records table locale key).isSome) :
    ∃ keys, key ∈ keys ∧ .translationExtra table locale primary keys ∈ notices := by
  obtain ⟨missing, extra, -, hextra, hfilter⟩ :=
    h.compared locale (mem_localesOf_of_isSome hhaving) (ne_of_localized hlacking hhaving)
  have hkey : key ∈ extra := (hextra.mem_iff key).mpr ⟨hhaving, hlacking⟩
  rw [if_neg (List.ne_nil_of_mem hkey)] at hfilter
  refine ⟨extra, hkey, List.mem_of_mem_filter (p := (·.gap? == some (table, locale))) ?_⟩
  rw [hfilter]
  exact List.mem_append_right _ (List.mem_singleton_self _)

theorem complete (h : GapsReported records table primary notices)
    (hquiet : ∀ notice ∈ notices, ∀ locale, notice.gap? ≠ some (table, locale))
    (hkey : key ∈ keysOf records table) (hl : locale ∈ localesOf records table) :
    (localized? records table locale key).isSome := by
  -- Nothing is missing or extra, so every locale agrees with the primary one on the key.
  have hsame : ∀ other ∈ localesOf records table,
      ((localized? records table other key).isSome ↔
        (localized? records table primary key).isSome) := by
    intro other ho
    by_cases hne : other = primary
    · rw [hne]
    obtain ⟨missing, extra, hmissing, hextra, hfilter⟩ := h.compared other ho hne
    have hnone : notices.filter (·.gap? == some (table, other)) = [] :=
      List.filter_eq_nil_iff.mpr fun notice hn he => hquiet notice hn other (beq_iff_eq.mp he)
    rw [hnone, eq_comm, List.append_eq_nil_iff] at hfilter
    obtain rfl : missing = [] := by simpa using hfilter.1
    obtain rfl : extra = [] := by simpa using hfilter.2
    have hnotMissing := (hmissing.mem_iff key).not.mp List.not_mem_nil
    have hnotExtra := (hextra.mem_iff key).not.mp List.not_mem_nil
    rw [not_and, ← Ne, ← Option.isSome_iff_ne_none] at hnotMissing hnotExtra
    exact ⟨hnotExtra, hnotMissing⟩
  obtain ⟨other, entry, hentry⟩ := mem_keysOf_iff.mp hkey
  have hsome : (localized? records table other key).isSome := hentry ▸ rfl
  exact (hsame locale hl).mpr ((hsame other (mem_localesOf_of_isSome hsome)).mp hsome)

end GapsReported

/-- The entry of the primary locale, or else that of the locale that was met first. -/
def development? (records : List StringTable) (table : String) (primary : Locale) (key : String) :
    Option StringEntry :=
  (localized? records table primary key).or
    ((localesOf records table).findSome? (localized? records table · key))

/-- An accessor of a key that falls back on a value where there is no translation. -/
inductive FallsBack (bundle table key value : String) : Leaf → Prop
  | constant (locales : List String) (documentation : List String) :
    FallsBack bundle table key value (.constant (Identifier.ofName key) "StringResource"
      (s!"StringResource(key: {quote key}, tableName: {quote table}, "
        ++ s!"bundle: {bundle}, locales: {quoteList locales}, "
        ++ s!"developmentValue: {quote value})") documentation)
  | function (parameters : List Parameter) (documentation : List String) :
    FallsBack bundle table key value (.function (Identifier.ofName key) parameters "String"
      (s!"String(format: NSLocalizedString({quote key}, tableName: {quote table}, "
        ++ s!"bundle: {bundle}, value: {quote value}, comment: \"\"), "
        ++ s!"{listed (parameters.map Parameter.name)})") documentation)

theorem TableContext.fallsBack_of_mem_leaves {context : TableContext} {leaf : Leaf}
    (h : leaf ∈ (context.leaves key).value) : ∃ fallback, context.fallback? key = some fallback ∧
      FallsBack context.bundle context.table.name key fallback.value leaf := by
  unfold leaves at h
  split at h
  · cases h
  · cases h
  · next fallback _ hfallback =>
    exact ⟨fallback, hfallback, List.mem_singleton.mp h ▸ .constant _ _⟩
  · next fallback _ _ hfallback =>
    refine ⟨fallback, hfallback, ?_⟩
    rcases List.mem_cons.mp h with rfl | h
    · exact .constant _ _
    · exact List.mem_singleton.mp h ▸ .function _ _

theorem fallback?_contextOf (options : Options) (hheld : held ∈ (collectTables records).value)
    (key : String) : (contextOf options held).fallback? key =
      development? records held.name (held.primary options.developmentLocale).locale key := by
  have hentries := (collectTables_represents records).entries held hheld
  have hmet : held.variants.findSome? (·.entries.get? key) =
      (held.variants.map Variant.locale).findSome? (localized? records held.name · key) := by
    rw [List.findSome?_map, ← List.head?_filterMap, ← List.head?_filterMap,
      List.filterMap_congr fun variant hv => hentries variant hv key]
    rfl
  rw [development?, ← (collectTables_inOrderMet records).locales held hheld, ← hmet,
    ← hentries _ (primary_spec options.developmentLocale held).1]
  rfl

theorem fallsBack_of_mem_tableContents (options : Options)
    (hheld : held ∈ (collectTables records).value) {leaf : Leaf}
    (h : leaf ∈ (tableContents options held).value.leaves) :
    ∃ key entry, Alone (keysOf records held.name) key ∧
      development? records held.name (held.primary options.developmentLocale).locale key =
        some entry ∧
      FallsBack options.bundleExpression held.name key entry.value leaf := by
  rw [value_tableContents] at h
  obtain ⟨named, hnamed, hl⟩ := mem_leaves_assemble.mp h
  obtain ⟨key, -, hitem⟩ := List.mem_map.mp (mem_keptMembers hnamed).1
  have halone := Identifier.alone_of_mem_uniques hnamed
  rw [name_keyMembers, ← hitem] at halone
  rw [← hitem, TableContext.leaves_member] at hl
  obtain ⟨fallback, hfallback, hfalls⟩ := TableContext.fallsBack_of_mem_leaves hl
  refine ⟨key, fallback, halone.congr fun other => ?_, ?_, hfalls⟩
  · exact ((collectTables_represents records).mem_keys_iff hheld).trans mem_keysOf_iff.symm
  · rw [← fallback?_contextOf options hheld key, hfallback]

/-- The gaps that a table reports and the values that its accessors fall back on go together: a
value that is not of the primary locale is of a key that is reported for every locale with it. -/
theorem translations_reported (options : Options) (records : List StringTable) {table : String}
    (htable : Alone (records.map StringTable.table) table) :
    let notices := (strings options records).notices
    ∃ primary node, primaryLocale? options.developmentLocale (localesOf records table) =
        some primary ∧
      ((strings options records).value.node "string").child? (Identifier.ofName table) =
        some node ∧
      GapsReported records table primary notices ∧
      (∀ leaf ∈ node.leaves, ∃ key entry, Alone (keysOf records table) key ∧
        development? records table primary key = some entry ∧
        FallsBack options.bundleExpression table key entry.value leaf) ∧
      (∀ key locale, localized? records table primary key = none →
        (localized? records table locale key).isSome →
          ∃ keys, key ∈ keys ∧ .translationExtra table locale primary keys ∈ notices) ∧
      ((∀ notice ∈ notices, ∀ locale, notice.gap? ≠ some (table, locale)) →
        ∀ key ∈ keysOf records table,
          (∀ locale ∈ localesOf records table, (localized? records table locale key).isSome) ∧
            development? records table primary key = localized? records table primary key) := by
  intro notices
  have hrepresents := collectTables_represents records
  obtain ⟨held, hheld, rfl⟩ := List.mem_map.mp (hrepresents.mem_names_iff.mpr htable.mem)
  have hlocales := (collectTables_inOrderMet records).locales held hheld
  obtain ⟨hmem, hprimary⟩ := primary_spec options.developmentLocale held
  have hlocale := hlocales ▸ List.mem_map_of_mem (f := Variant.locale) hmem
  rw [hlocales] at hprimary
  have hgaps := gapsReported_strings options hheld htable
  refine ⟨_, _, hprimary, (strings_table options hheld htable "").1, hgaps, ?_,
    fun key locale => hgaps.listed, fun hquiet key hkey => ?_⟩
  · intro leaf hl
    rw [Contents.leaves_node] at hl
    exact fallsBack_of_mem_tableContents options hheld hl
  · have hcomplete : ∀ locale ∈ localesOf records held.name,
        (localized? records held.name locale key).isSome :=
      fun locale hl => hgaps.complete hquiet hkey hl
    refine ⟨hcomplete, ?_⟩
    rw [development?, Option.or_of_isSome (hcomplete _ hlocale)]

def gappedTables : List StringTable := [
  ⟨"Main", .language "de", .ofList [
    ("bye", ⟨"Tschau", none, none⟩), ("hi", ⟨"Hallo", none, none⟩)]⟩,
  ⟨"Main", .language "en", .ofList [
    ("hi", ⟨"Hello", none, none⟩), ("new", ⟨"New", none, none⟩)]⟩]

def developedInEnglish : Options := { Options.default with developmentLocale := some "en" }

theorem translations_reported_gapped :
    Alone (gappedTables.map StringTable.table) "Main" ∧
      (strings developedInEnglish gappedTables).notices.filter
        (·.gap? == some ("Main", .language "de")) = [
          .translationMissing "Main" (.language "de") ["new"],
          .translationExtra "Main" (.language "de") (.language "en") ["bye"]] := by
  have htable : Alone (gappedTables.map StringTable.table) "Main" :=
    ⟨by decide, by decide +kernel, by decide +kernel⟩
  obtain ⟨primary, node, hprimary, -, hgaps, -⟩ :=
    translations_reported developedInEnglish gappedTables htable
  obtain rfl : Locale.language "en" = primary := by
    have hlocales : primaryLocale? (some "en") (localesOf gappedTables "Main") =
        some (.language "en") := by decide +kernel
    exact Option.some.inj (hlocales.symm.trans hprimary)
  obtain ⟨missing, extra, hmissing, hextra, hfilter⟩ :=
    hgaps.compared (.language "de") (by decide +kernel) (by decide)
  obtain rfl : missing = ["new"] := hmissing.eq_filter.trans (by decide +kernel)
  obtain rfl : extra = ["bye"] := hextra.eq_filter.trans (by decide +kernel)
  exact ⟨htable, hfilter⟩

end Namespace

end Accessors

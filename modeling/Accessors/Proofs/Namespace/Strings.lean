import Accessors.Proofs.Namespace.Arguments
import Accessors.Proofs.Namespace.Orderly
import Accessors.Proofs.Namespace.Tables

/-!
# What a key of a string table gives

A key whose name and whose table's name have their identifiers to themselves has a constant just if
its texts are sound, and a function behind it just if some text takes arguments. A key that has none
is left out with one notice that says so.
-/

namespace Accessors.Namespace

open Format (Argument)
open Record (StringEntry StringTable)
open Accessors.Symbol (Leaf Node Parameter)

/-- The parameters are as many as the longest text takes, and of the types that the texts take. -/
structure Fits (entries : StringEntry → Prop) (parameters : List Parameter) : Prop where
  longest : ∃ entry arguments, entries entry ∧ Takes entry arguments ∧
    arguments.length = parameters.length
  length_le : ∀ entry arguments, entries entry → Takes entry arguments →
    arguments.length ≤ parameters.length
  typed : ∀ entry arguments, entries entry → Takes entry arguments →
    ∀ (i : Nat) (argument : Argument), arguments[i]? = some argument → argument.specifier ≠ .any →
      ∃ parameter : Parameter, parameters[i]? = some parameter ∧
        parameter.typeName = argument.specifier.typeName

/-- What the leaves have under an identifier whose entries are those in question. -/
structure Emits (entries : StringEntry → Prop) (identifier : String) (leaves : List Leaf) :
    Prop where
  constant : (∃ leaf ∈ leaves, leaf.name = identifier ∧ leaf.shape = .constant) ↔ Sound entries
  function : Sound entries →
    (∃ entry arguments, entries entry ∧ Takes entry arguments ∧ arguments ≠ []) →
      ∃ constant function parameters, [constant, function] <:+: leaves ∧
        leaves.filter (·.name == identifier) = [constant, function] ∧
        constant.shape = .constant ∧ function.shape = .function parameters ∧
        Fits entries parameters
  alone : Sound entries →
    (∀ entry arguments, entries entry → Takes entry arguments → arguments = []) →
      ∃ constant, leaves.filter (·.name == identifier) = [constant] ∧ constant.shape = .constant
  rejected : ¬ Sound entries → leaves.filter (·.name == identifier) = []

namespace TableContext

variable {context : TableContext} {key : String}

theorem mem_entriesOf_iff {locale : Locale} {entry : StringEntry} :
    (locale, entry) ∈ context.entriesOf key ↔
      ∃ variant ∈ context.table.variants, variant.locale = locale ∧
        variant.entries.get? key = some entry := by
  simp only [entriesOf, List.mem_filterMap, LocalizedTable.sortVariants, List.mem_mergeSort,
    Option.map_eq_some_iff, Prod.mk.injEq]
  constructor
  · rintro ⟨variant, hv, found, hget, rfl, rfl⟩
    exact ⟨variant, hv, rfl, hget⟩
  · rintro ⟨variant, hv, rfl, hget⟩
    exact ⟨variant, hv, entry, hget, rfl, rfl⟩

theorem among_entriesOf_iff {entry : StringEntry} :
    Among (context.entriesOf key) entry ↔
      ∃ variant ∈ context.table.variants, variant.entries.get? key = some entry := by
  simp only [Among, mem_entriesOf_iff]
  constructor
  · rintro ⟨_, variant, hv, -, hget⟩
    exact ⟨variant, hv, hget⟩
  · rintro ⟨variant, hv, hget⟩
    exact ⟨variant.locale, variant, hv, rfl, hget⟩

theorem exists_fallback? {entry : StringEntry} (h : Among (context.entriesOf key) entry) :
    ∃ fallback, context.fallback? key = some fallback := by
  obtain ⟨variant, hv, hget⟩ := among_entriesOf_iff.mp h
  rw [← Option.isSome_iff_exists, fallback?, Option.isSome_or, Bool.or_eq_true]
  refine .inr (List.findSome?_isSome_iff.mpr ⟨variant, hv, ?_⟩)
  rw [hget]
  rfl

theorem leaves_ok {arguments : List Argument} {fallback : StringEntry}
    (harguments : argumentsOf key context.table.name (context.entriesOf key) = .ok arguments)
    (hfallback : context.fallback? key = some fallback) :
    context.leaves key = pure (context.constant key fallback ::
      if arguments = [] then [] else [context.function key fallback arguments]) := by
  unfold leaves
  rw [harguments, hfallback]
  cases arguments <;> rfl

theorem leaves_error {notice : Notice}
    (h : argumentsOf key context.table.name (context.entriesOf key) = .error notice) :
    context.leaves key = ⟨[], [notice]⟩ := by
  unfold leaves
  rw [h]

theorem fits_parameters {entries : StringEntry → Prop} {arguments : List Argument}
    (hjoins : Argument.Joins (fun list => ∃ entry, entries entry ∧ Takes entry list) arguments)
    (hne : arguments ≠ []) : Fits entries (parameters arguments) where
  longest := by
    obtain ⟨list, ⟨entry, he, htakes⟩, hlength⟩ := hjoins.exists_length_eq hne
    exact ⟨entry, list, he, htakes, hlength.trans (length_parameters arguments).symm⟩
  length_le := by
    intro entry list he htakes
    rw [length_parameters]
    exact hjoins.length_le ⟨entry, he, htakes⟩
  typed := by
    intro entry list he htakes i argument ha hne
    obtain ⟨joined, hj, hwithin⟩ := hjoins.within list ⟨entry, he, htakes⟩ ha
    obtain ⟨parameter, hp, htype⟩ := typeName_parameters hj
    exact ⟨parameter, hp, htype.trans (congrArg _ (hwithin.specifier hne))⟩

theorem emits_of_filter {leaves : List Leaf} {entry : StringEntry}
    (hentry : Among (context.entriesOf key) entry)
    (hfilter : leaves.filter (·.name == Identifier.ofName key) = (context.leaves key).value)
    (htogether : (context.leaves key).value <:+: leaves) :
    Emits (Among (context.entriesOf key)) (Identifier.ofName key) leaves := by
  obtain ⟨fallback, hfallback⟩ := exists_fallback? hentry
  cases hresult : argumentsOf key context.table.name (context.entriesOf key) with
  | error notice =>
    have hunsound := (argumentsOf_error hresult).2
    rw [leaves_error hresult] at hfilter
    refine ⟨⟨?_, fun h => absurd h hunsound⟩, fun h => absurd h hunsound,
      fun h => absurd h hunsound, fun _ => hfilter⟩
    rintro ⟨leaf, hl, hname, -⟩
    exact absurd (by simpa using hname) (List.filter_eq_nil_iff.mp hfilter leaf hl)
  | ok arguments =>
    obtain ⟨hsound, hjoins, -⟩ := argumentsOf_ok hresult
    rw [leaves_ok hresult hfallback] at hfilter htogether
    simp only [Noted.pure_value] at hfilter htogether
    have hconstant : context.constant key fallback ∈ leaves :=
      htogether.subset (List.mem_cons_self ..)
    refine ⟨⟨fun _ => hsound, fun _ => ⟨_, hconstant, rfl, rfl⟩⟩, ?_, ?_,
      fun h => absurd hsound h⟩
    · rintro - ⟨entry, list, he, htakes, hne⟩
      have hnonempty : arguments ≠ [] := by
        rintro rfl
        exact hne (List.length_eq_zero_iff.mp
          (Nat.le_zero.mp (hjoins.length_le ⟨entry, he, htakes⟩)))
      rw [if_neg hnonempty] at hfilter htogether
      exact ⟨_, _, parameters arguments, htogether, hfilter, rfl, rfl,
        fits_parameters hjoins hnonempty⟩
    · intro _ hempty
      have harguments : arguments = [] := by
        apply Classical.byContradiction
        intro hne
        obtain ⟨list, ⟨entry, he, htakes⟩, hlength⟩ := hjoins.exists_length_eq hne
        rw [hempty entry list he htakes] at hlength
        exact hne (List.length_eq_zero_iff.mp hlength.symm)
      rw [if_pos harguments] at hfilter
      exact ⟨_, hfilter, rfl⟩

theorem rejects_of_mem_leaves {notice : Notice} (h : notice ∈ (context.leaves key).notices) :
    notice.rejects key context.table.name := by
  unfold leaves at h
  split at h
  · next rejected _ hresult =>
    rw [List.mem_singleton.mp h]
    exact (argumentsOf_error hresult).1
  · cases h
  · cases h
  · cases h

theorem notices_leaves {entry : StringEntry} (hentry : Among (context.entriesOf key) entry) :
    (Sound (Among (context.entriesOf key)) → (context.leaves key).notices = []) ∧
      (¬ Sound (Among (context.entriesOf key)) →
        ∃ notice, (context.leaves key).notices = [notice]) := by
  obtain ⟨fallback, hfallback⟩ := exists_fallback? hentry
  cases hresult : argumentsOf key context.table.name (context.entriesOf key) with
  | error notice =>
    rw [leaves_error hresult]
    exact ⟨fun h => absurd h (argumentsOf_error hresult).2, fun _ => ⟨notice, rfl⟩⟩
  | ok arguments =>
    rw [leaves_ok hresult hfallback]
    exact ⟨fun _ => rfl, fun h => absurd (argumentsOf_ok hresult).1 h⟩

theorem exists_constant_mem {entry : StringEntry} (hentry : Among (context.entriesOf key) entry)
    (hq : (context.leaves key).notices = []) :
    ∃ fallback, context.constant key fallback ∈ (context.leaves key).value := by
  obtain ⟨fallback, hfallback⟩ := exists_fallback? hentry
  cases hresult : argumentsOf key context.table.name (context.entriesOf key) with
  | error notice =>
    rw [leaves_error hresult] at hq
    cases hq
  | ok arguments =>
    rw [leaves_ok hresult hfallback]
    exact ⟨fallback, List.mem_cons_self ..⟩

theorem leaves_member (context : TableContext) (key : String) :
    (context.member key).contents.value.leaves = (context.leaves key).value := by
  simp [member, Contents.ofLeaves]

theorem notices_member (context : TableContext) (key : String) :
    (context.member key).contents.notices = (context.leaves key).notices := by
  simp [member]

end TableContext

theorem exists_redefined_of_mem_addRecord {record : StringTable} {tables : List LocalizedTable}
    {notice : Notice} (h : notice ∈ (addRecord record tables).notices) :
    ∃ key, notice = .keyRedefined key record.table record.locale := by
  obtain ⟨entries, hnotices⟩ := exists_notices_addRecord record tables
  rw [hnotices] at h
  obtain ⟨held, definition, -, h⟩ := Noted.mem_notices_foldlM h
  unfold addEntry at h
  split at h
  · cases h
  · split at h
    · cases h
    · split at h
      · cases h
      · exact ⟨_, List.mem_singleton.mp h⟩

section Rejections

variable {key table : String}

theorem filter_rejects_collectTables (records : List StringTable) :
    (collectTables records).notices.filter (·.rejects key table) = [] := by
  apply List.filter_eq_nil_iff.mpr
  intro notice hn hr
  obtain ⟨tables, record, -, h⟩ := Noted.mem_notices_foldlM hn
  obtain ⟨redefined, rfl⟩ := exists_redefined_of_mem_addRecord h
  exact of_decide_eq_true hr

theorem filter_rejects_grouping {α : Type} (what scope : String)
    (grouping : Identifier.Grouping α) :
    (grouping.notices what scope).filter (·.rejects key table) = [] :=
  Identifier.filter_notices_eq_nil grouping (fun _ _ => decide_eq_false id) fun _ =>
    decide_eq_false id

theorem cases_of_mem_gapsOf {name : String} {primary variant : Variant} {notice : Notice}
    (h : notice ∈ gapsOf name primary variant) :
    (∃ keys, notice = .translationMissing name variant.locale keys) ∨
      ∃ keys, notice = .translationExtra name variant.locale primary.locale keys := by
  unfold gapsOf at h
  rcases List.mem_append.mp h with h | h <;> split at h
  · cases h
  · exact .inl ⟨_, List.mem_singleton.mp h⟩
  · cases h
  · exact .inr ⟨_, List.mem_singleton.mp h⟩

theorem filter_rejects_translationGaps (held : LocalizedTable) (primary : Variant) :
    (translationGaps held primary).filter (·.rejects key table) = [] := by
  apply List.filter_eq_nil_iff.mpr
  intro notice hn hr
  obtain ⟨variant, -, hn⟩ := List.mem_flatMap.mp hn
  rcases cases_of_mem_gapsOf hn with ⟨keys, rfl⟩ | ⟨keys, rfl⟩ <;> exact of_decide_eq_true hr

theorem filter_rejects_assemble (what scope : String) {members : List Member} {member : Member}
    (hk : Identifier.name Member.name member ∈ keptMembers members)
    (ho : ∀ other ∈ members, ∀ notice ∈ other.contents.notices, notice.rejects key table →
      Identifier.ofName other.name = Identifier.ofName member.name) :
    (assemble what scope members).notices.filter (·.rejects key table) =
      member.contents.notices.filter (·.rejects key table) := by
  refine filter_notices_assemble what scope (fun _ _ => decide_eq_false id)
    (fun _ => decide_eq_false id) hk fun other hother notice hn hr => ?_
  exact ho other hother notice hn (of_decide_eq_true hr)

end Rejections

def keysOf (records : List StringTable) (table : String) : List String :=
  (records.filter (·.table == table)).flatMap (·.entries.keys)

theorem mem_keysOf_iff {records : List StringTable} {table key : String} :
    key ∈ keysOf records table ↔
      ∃ locale entry, localized? records table locale key = some entry := by
  simp only [keysOf, List.mem_flatMap, List.mem_filter, beq_iff_eq]
  constructor
  · rintro ⟨record, ⟨hr, rfl⟩, hk⟩
    obtain ⟨entry, hget⟩ := Dictionary.mem_keys_iff.mp hk
    refine ⟨record.locale,
      Option.isSome_iff_exists.mp (Option.isSome_iff_ne_none.mpr fun hnone => ?_)⟩
    have hkey := localized?_eq_none_iff.mp hnone record hr rfl rfl
    rw [hget] at hkey
    cases hkey
  · rintro ⟨locale, entry, hsome⟩
    have hne : localized? records table locale key ≠ none := by simp [hsome]
    rw [Ne, localized?_eq_none_iff] at hne
    simp only [not_forall] at hne
    obtain ⟨record, hr, htable, -, hget⟩ := hne
    obtain ⟨entry, hget⟩ := Option.ne_none_iff_exists'.mp hget
    exact ⟨record, ⟨hr, htable⟩, Dictionary.mem_keys_iff.mpr ⟨entry, hget⟩⟩

def contextOf (options : Options) (table : LocalizedTable) : TableContext :=
  ⟨table, table.primary options.developmentLocale, options.bundleExpression⟩

def keyMembers (options : Options) (table : LocalizedTable) : List Member :=
  table.keys.map (contextOf options table).member

theorem value_tableContents (options : Options) (table : LocalizedTable) :
    (tableContents options table).value =
      (assemble "strings" s!"table '{table.name}'" (keyMembers options table)).value := by
  simp only [tableContents, Noted.bind_value]
  rfl

theorem notices_tableContents (options : Options) (table : LocalizedTable) :
    (tableContents options table).notices =
      translationGaps table (table.primary options.developmentLocale) ++
        (assemble "strings" s!"table '{table.name}'" (keyMembers options table)).notices := by
  simp only [tableContents, Noted.bind_notices, Noted.give_notices]
  rfl

def tableMembers (options : Options) (records : List StringTable) : List Member :=
  (collectTables records).value.map fun table => .child table.name (tableContents options table)

theorem value_strings (options : Options) (records : List StringTable) :
    (strings options records).value =
      (assemble "string tables" "string" (tableMembers options records)).value := by
  simp only [strings, Noted.bind_value]
  rfl

theorem notices_strings (options : Options) (records : List StringTable) :
    (strings options records).notices = (collectTables records).notices ++
      (assemble "string tables" "string" (tableMembers options records)).notices := by
  simp only [strings, Noted.bind_notices]
  rfl

theorem name_keyMembers (options : Options) (table : LocalizedTable) :
    (keyMembers options table).map Member.name = table.keys := by
  rw [keyMembers, List.map_map]
  exact List.map_id table.keys

theorem name_tableMembers (options : Options) (records : List StringTable) :
    (tableMembers options records).map Member.name =
      (collectTables records).value.map LocalizedTable.name := by
  rw [tableMembers, List.map_map]
  rfl

theorem keyMembers_under (options : Options) (table : LocalizedTable) :
    ∀ member ∈ keyMembers options table,
      member.contents.value.Under (Identifier.ofName member.name) := by
  intro member hm
  obtain ⟨key, -, rfl⟩ := List.mem_map.mp hm
  exact TableContext.member_under _ key

theorem table_of_rejects {options : Options} {held : LocalizedTable} {key table : String}
    {notice : Notice} (hn : notice ∈ (tableContents options held).notices)
    (hr : notice.rejects key table) : table = held.name := by
  have hfilter : notice ∈ (tableContents options held).notices.filter (·.rejects key table) :=
    List.mem_filter.mpr ⟨hn, decide_eq_true hr⟩
  rw [notices_tableContents, assemble_notices, List.filter_append, List.filter_append,
    filter_rejects_translationGaps, filter_rejects_grouping, List.nil_append,
    List.nil_append] at hfilter
  obtain ⟨named, hnamed, hn⟩ := List.mem_flatMap.mp (List.mem_filter.mp hfilter).1
  obtain ⟨other, -, hitem⟩ := List.mem_map.mp (mem_keptMembers hnamed).1
  rw [← hitem, TableContext.notices_member] at hn
  exact (Notice.rejects_unique (TableContext.rejects_of_mem_leaves hn) hr).2

theorem name_mem_keptMembers (options : Options) {held : LocalizedTable} {key : String}
    (h : Identifier.Alone held.keys key) :
    Identifier.name Member.name ((contextOf options held).member key) ∈
      keptMembers (keyMembers options held) := by
  rw [← name_keyMembers options held] at h
  have hd : ((keyMembers options held).map Member.name).Nodup := by
    rw [name_keyMembers]
    exact (increasing_distinct _).nodup
  have hkey : key ∈ held.keys := name_keyMembers options held ▸ h.mem
  exact h.mem_uniques hd (List.mem_map_of_mem hkey)

theorem leaves_tableContents (options : Options) {held : LocalizedTable} {key : String}
    (h : Identifier.Alone held.keys key) :
    (tableContents options held).value.leaves.filter (·.name == Identifier.ofName key) =
        ((contextOf options held).leaves key).value ∧
      ((contextOf options held).leaves key).value <:+:
        (tableContents options held).value.leaves := by
  have hkept := name_mem_keptMembers options h
  have hfilter := leavesNamed_assemble "strings" s!"table '{held.name}'"
    (keyMembers_under options held) hkept
  have htogether := infix_leaves_assemble "strings" s!"table '{held.name}'" hkept
  rw [TableContext.leaves_member] at hfilter htogether
  rw [value_tableContents]
  exact ⟨hfilter, htogether⟩

theorem rejections_tableContents (options : Options) {held : LocalizedTable} {key : String}
    (h : Identifier.Alone held.keys key) :
    (tableContents options held).notices.filter (·.rejects key held.name) =
      ((contextOf options held).leaves key).notices := by
  rw [notices_tableContents, List.filter_append, filter_rejects_translationGaps, List.nil_append,
    filter_rejects_assemble _ _ (name_mem_keptMembers options h), TableContext.notices_member]
  · apply List.filter_eq_self.mpr
    intro notice hn
    exact decide_eq_true (TableContext.rejects_of_mem_leaves hn)
  · intro other ho notice hn hr
    obtain ⟨otherKey, -, rfl⟩ := List.mem_map.mp ho
    rw [TableContext.notices_member] at hn
    obtain ⟨rfl, -⟩ := Notice.rejects_unique (TableContext.rejects_of_mem_leaves hn) hr
    rfl

theorem name_mem_keptTables (options : Options) {records : List StringTable}
    {held : LocalizedTable} (hheld : held ∈ (collectTables records).value)
    (h : Identifier.Alone (records.map StringTable.table) held.name) :
    Identifier.name Member.name (.child held.name (tableContents options held)) ∈
      keptMembers (tableMembers options records) := by
  have hrepresents := collectTables_represents records
  refine Identifier.Alone.mem_uniques ?_ (List.mem_map_of_mem hheld) ?_ <;> rw [name_tableMembers]
  · exact hrepresents.names
  · exact h.congr fun other => hrepresents.mem_names_iff.symm

theorem strings_table (options : Options) {records : List StringTable} {held : LocalizedTable}
    (hheld : held ∈ (collectTables records).value)
    (h : Identifier.Alone (records.map StringTable.table) held.name) (key : String) :
    ((strings options records).value.node "string").child? (Identifier.ofName held.name) =
        some ((tableContents options held).value.node (Identifier.ofName held.name)) ∧
      (strings options records).notices.filter (·.rejects key held.name) =
        (tableContents options held).notices.filter (·.rejects key held.name) := by
  have hkept := name_mem_keptTables options hheld h
  constructor
  · have horderly := ((strings_orderly options records).node "string") [] _ rfl
    rw [Node.child?_eq_some_iff horderly.plain.distinct, Contents.children_node, value_strings]
    exact ⟨mem_children_assemble.mpr ⟨_, hkept, List.mem_singleton_self _⟩,
      Contents.name_node _ _⟩
  · rw [notices_strings, List.filter_append, filter_rejects_collectTables, List.nil_append,
      filter_rejects_assemble _ _ hkept]
    · rw [notices_child]
    · intro other ho notice hn hr
      obtain ⟨table, -, rfl⟩ := List.mem_map.mp ho
      rw [notices_child] at hn
      exact congrArg Identifier.ofName (table_of_rejects hn hr).symm

/-- A key that is alone with its identifier, in a table that is, has exactly the accessors that its
texts in all locales ask for, and one notice if they ask for none. -/
theorem strings_exact (options : Options) (records : List StringTable) {table key : String}
    (htable : Identifier.Alone (records.map StringTable.table) table)
    (hkey : Identifier.Alone (keysOf records table) key) :
    let entries : StringEntry → Prop := fun entry =>
      ∃ locale, localized? records table locale key = some entry
    let rejections := (strings options records).notices.filter (·.rejects key table)
    (∃ node, ((strings options records).value.node "string").child? (Identifier.ofName table) =
        some node ∧ Emits entries (Identifier.ofName key) node.leaves) ∧
      (Sound entries → rejections = []) ∧
      (¬ Sound entries → ∃ notice, rejections = [notice]) := by
  intro entries rejections
  have hrepresents := collectTables_represents records
  obtain ⟨held, hheld, rfl⟩ := List.mem_map.mp (hrepresents.mem_names_iff.mpr htable.mem)
  obtain ⟨hchild, hnotices⟩ := strings_table options hheld htable key
  have hkeys : Identifier.Alone held.keys key := hkey.congr fun other =>
    mem_keysOf_iff.trans (hrepresents.mem_keys_iff hheld).symm
  obtain ⟨hfilter, htogether⟩ := leaves_tableContents options hkeys
  have hrejections := rejections_tableContents options hkeys
  have hamong : Among ((contextOf options held).entriesOf key) = entries := by
    funext entry
    refine propext (TableContext.among_entriesOf_iff.trans ⟨?_, ?_⟩)
    · rintro ⟨variant, hv, hget⟩
      exact ⟨variant.locale, (hrepresents.exists_variant_iff hheld).mp ⟨variant, hv, rfl, hget⟩⟩
    · rintro ⟨locale, hsome⟩
      obtain ⟨variant, hv, -, hget⟩ := (hrepresents.exists_variant_iff hheld).mpr hsome
      exact ⟨variant, hv, hget⟩
  obtain ⟨locale, entry, hsome⟩ := mem_keysOf_iff.mp hkey.mem
  have hentry : Among ((contextOf options held).entriesOf key) entry := by
    rw [hamong]
    exact ⟨locale, hsome⟩
  have hemits := TableContext.emits_of_filter hentry hfilter htogether
  have hquiet := TableContext.notices_leaves hentry
  rw [hamong] at hemits hquiet
  refine ⟨⟨_, hchild, ?_⟩, ?_⟩
  · rwa [Contents.leaves_node]
  · rw [← hnotices.trans hrejections] at hquiet
    exact hquiet

def sampleTables : List StringTable := [
  ⟨"Main", .language "en", .ofList [("greeting", ⟨"%@ has %d", none, none⟩)]⟩,
  ⟨"Main", .language "de", .ofList [("greeting", ⟨"%2$d hat %1$@", none, none⟩)]⟩]

theorem strings_exact_sample :
    Identifier.Alone (sampleTables.map StringTable.table) "Main" ∧
      Identifier.Alone (keysOf sampleTables "Main") "greeting" ∧
      localized? sampleTables "Main" (.language "de") "greeting" =
        some ⟨"%2$d hat %1$@", none, none⟩ ∧
      ∃ node, ((strings .default sampleTables).value.node "string").child? "main" = some node ∧
        Emits (fun entry => ∃ locale, localized? sampleTables "Main" locale "greeting" = some entry)
          "greeting" node.leaves := by
  have hmain : Identifier.ofName "Main" = "main" := by decide +kernel
  have hgreeting : Identifier.ofName "greeting" = "greeting" := by decide +kernel
  have htable : Identifier.Alone (sampleTables.map StringTable.table) "Main" :=
    ⟨by decide, by decide +kernel, by decide +kernel⟩
  have hkey : Identifier.Alone (keysOf sampleTables "Main") "greeting" :=
    ⟨by decide +kernel, by decide +kernel, by decide +kernel⟩
  obtain ⟨node, hchild, hemits⟩ := (strings_exact .default sampleTables htable hkey).1
  rw [hmain] at hchild
  rw [hgreeting] at hemits
  exact ⟨htable, hkey, by decide +kernel, node, hchild, hemits⟩

end Accessors.Namespace

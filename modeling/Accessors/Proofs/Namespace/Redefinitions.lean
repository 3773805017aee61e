import Accessors.Proofs.Namespace.Merging

/-!
# Keys that are defined more than once

A definition that differs from the one that is held is dropped, or the held one is. One notice says
so if both are plain. None does if one or both have plural rules; where both have, the later one is
dropped in silence. All notices of a key come from its definitions like that, one after the other.
-/

namespace Accessors.Namespace

open Record (PluralRule StringEntry StringTable)

variable {records : List StringTable} {table : String} {locale : Locale} {key : String}

/-- What becomes of a definition and of the one that is held: which one is held afterwards, and how
many notices say that the key is redefined. -/
inductive Settles : Option StringEntry → StringEntry → StringEntry → Nat → Prop
  | first (definition : StringEntry) : Settles none definition definition 0
  | again (definition : StringEntry) : Settles (some definition) definition definition 0
  | redefined {held definition : StringEntry} (differ : held ≠ definition)
      (plain : held.pluralRules = none) (plainNew : definition.pluralRules = none) :
      Settles (some held) definition held 1
  | replaced {held definition : StringEntry} (plain : held.pluralRules = none)
      (plural : definition.pluralRules.isSome) : Settles (some held) definition definition 0
  | outranked {held definition : StringEntry} (plural : held.pluralRules.isSome)
      (plain : definition.pluralRules = none) : Settles (some held) definition held 0
  | repeated {held definition : StringEntry} (differ : held ≠ definition)
      (plural : held.pluralRules.isSome) (pluralNew : definition.pluralRules.isSome) :
      Settles (some held) definition held 0

theorem settles_settle (held : Option StringEntry) (definition : StringEntry) :
    Settles held definition (settle held definition)
      (if contradicts held definition then 1 else 0) := by
  cases held with
  | none => exact .first definition
  | some held =>
    by_cases he : held = definition
    · subst he
      have hsettle : settle (some held) held = held := ite_self held
      have hcontradicts : contradicts (some held) held = false := by simp [contradicts]
      rw [hsettle, hcontradicts]
      exact .again held
    · cases hheld : held.pluralRules with
      | none =>
        cases hnew : definition.pluralRules with
        | none =>
          simp only [settle, contradicts, hheld, hnew]
          simpa [he] using Settles.redefined he hheld hnew
        | some rules =>
          simp only [settle, contradicts, hheld, hnew]
          simpa using Settles.replaced hheld (hnew ▸ rfl)
      | some rules =>
        have hplural : held.pluralRules.isSome := hheld ▸ rfl
        simp only [settle, contradicts, hheld, Option.isNone_some, Bool.and_false, Bool.false_and,
          Bool.false_eq_true, false_and, if_false]
        cases hnew : definition.pluralRules with
        | none => exact .outranked hplural hnew
        | some others => exact .repeated he hplural (hnew ▸ rfl)

def definition? (record : StringTable) (table : String) (locale : Locale) (key : String) :
    Option StringEntry :=
  if record.table = table ∧ record.locale = locale then record.entries.get? key else none

theorem definitions_append (records : List StringTable) (record : StringTable) (table : String)
    (locale : Locale) (key : String) :
    definitions (records ++ [record]) table locale key =
      definitions records table locale key ++ (definition? record table locale key).toList := by
  rw [definitions_append_singleton, definition?]
  split <;> rfl

def redefinitions (records : List StringTable) (table : String) (locale : Locale) (key : String) :
    Nat :=
  (collectTables records).notices.count (.keyRedefined key table locale)

theorem count_redefined (entries : List (String × StringEntry)) (met : String → Option StringEntry)
    (hd : (entries.map Prod.fst).Nodup) (key table : String) (locale : Locale) :
    (entries.flatMap fun definition => if contradicts (met definition.1) definition.2 then
        [Notice.keyRedefined definition.1 table locale] else []).count
      (.keyRedefined key table locale) =
        ((entries.lookup key).toList.countP (contradicts (met key))) := by
  induction entries with
  | nil => rfl
  | cons definition rest ih =>
    obtain ⟨hfirst, hrest⟩ := List.nodup_cons.mp hd
    rw [List.flatMap_cons, List.count_append, ih hrest, lookup_cons_ite]
    by_cases hk : key = definition.1
    · subst hk
      have hnone : rest.lookup definition.1 = none := by
        refine List.lookup_eq_none_iff.mpr fun other ho => bne_iff_ne.mpr fun he => hfirst ?_
        exact he ▸ List.mem_map_of_mem ho
      rw [hnone, if_pos rfl]
      by_cases hc : contradicts (met definition.1) definition.2 <;> simp [hc]
    · have hne : definition.1 ≠ key := Ne.symm hk
      rw [if_neg hk]
      by_cases hc : contradicts (met definition.1) definition.2 <;> simp [hc, hne]

theorem redefinitions_append (records : List StringTable) (record : StringTable) (table : String)
    (locale : Locale) (key : String) :
    redefinitions (records ++ [record]) table locale key =
      redefinitions records table locale key +
        (definition? record table locale key).toList.countP
          (contradicts (localized? records table locale key)) := by
  rw [redefinitions, notices_collectTables_record, List.count_append, redefinitions, definition?]
  congr 1
  split
  · next hsame =>
    obtain ⟨rfl, rfl⟩ := hsame
    exact count_redefined _ _ record.entries.increasing.nodup key _ _
  · next hother =>
    rw [Option.toList_none, List.countP_nil]
    apply List.count_eq_zero.mpr
    intro hm
    obtain ⟨definition, -, hn⟩ := List.mem_flatMap.mp hm
    split at hn
    · obtain ⟨-, rfl, rfl⟩ := Notice.keyRedefined.inj (List.mem_singleton.mp hn)
      exact hother ⟨rfl, rfl⟩
    · cases hn

theorem zip_inits_append_singleton {α : Type} (items : List α) (item : α) :
    (items ++ [item]).inits.zip (items ++ [item]) = items.inits.zip items ++ [(items, item)] := by
  induction items with
  | nil => rfl
  | cons first rest ih =>
    simp only [List.cons_append, List.inits_cons, List.zip_cons_cons, List.zip_map_left, ih,
      List.map_append, List.map_singleton, Prod.map, id]

theorem redefinitions_eq (records : List StringTable) (table : String) (locale : Locale)
    (key : String) :
    redefinitions records table locale key =
      ((definitions records table locale key).inits.zip
        (definitions records table locale key)).countP fun trial =>
          contradicts (settled? trial.1) trial.2 := by
  induction records using List.reverseRecOn with
  | nil => rfl
  | append_singleton records record ih =>
    rw [redefinitions_append, ih, definitions_append]
    cases definition? record table locale key with
    | none => simp
    | some definition =>
      rw [Option.toList_some, zip_inits_append_singleton, List.countP_append]
      rfl

theorem count_redefined_strings (options : Options) (records : List StringTable) (table : String)
    (locale : Locale) (key : String) :
    (strings options records).notices.count (.keyRedefined key table locale) =
      redefinitions records table locale key := by
  rw [notices_strings, List.count_append, redefinitions, Nat.add_eq_left, List.count_eq_zero]
  intro hm
  obtain ⟨member, hmember, hm⟩ := exists_member_of_mem_notices hm nofun nofun
  obtain ⟨held, -, rfl⟩ := List.mem_map.mp hmember
  rw [notices_child, notices_tableContents] at hm
  rcases List.mem_append.mp hm with hm | hm
  · obtain ⟨variant, -, hm⟩ := List.mem_flatMap.mp hm
    rcases cases_of_mem_gapsOf hm with ⟨keys, he⟩ | ⟨keys, he⟩ <;> cases he
  · obtain ⟨member, hmember, hm⟩ := exists_member_of_mem_notices hm nofun nofun
    obtain ⟨other, -, rfl⟩ := List.mem_map.mp hmember
    rw [TableContext.notices_member] at hm
    exact TableContext.rejects_of_mem_leaves hm

/-- The definition of a further record is settled against the one that is held, with the notices
that `Settles` gives for it. All in all, a key has one notice for each definition that contradicts
the one held before it. -/
theorem redefinitions_settled (options : Options) (records : List StringTable) (table : String)
    (locale : Locale) (key : String) :
    let found := definitions records table locale key
    (strings options records).notices.count (.keyRedefined key table locale) =
        redefinitions records table locale key ∧
      redefinitions records table locale key =
        (found.inits.zip found).countP (fun trial => contradicts (settled? trial.1) trial.2) ∧
      ∀ record,
        let held := held? (collectTables records).value table locale key
        let next := held? (collectTables (records ++ [record])).value table locale key
        let count := redefinitions records table locale key
        let nextCount := redefinitions (records ++ [record]) table locale key
        (definition? record table locale key = none → next = held ∧ nextCount = count) ∧
          ∀ definition, definition? record table locale key = some definition →
            ∃ kept notices, Settles held definition kept notices ∧ next = some kept ∧
              nextCount = count + notices := by
  refine ⟨count_redefined_strings .., redefinitions_eq .., fun record => ?_⟩
  dsimp only
  rw [held?_collectTables, held?_collectTables, redefinitions_append, localized?, localized?,
    definitions_append]
  constructor
  · intro hnone
    rw [hnone, Option.toList_none, List.append_nil]
    exact ⟨rfl, rfl⟩
  · intro definition hsome
    rw [hsome, Option.toList_some, settled?_append_singleton, List.countP_singleton]
    exact ⟨_, _, settles_settle _ definition, rfl, rfl⟩

def titleTable (value : String) : StringTable :=
  ⟨"Main", .language "en", .ofList [("title", ⟨value, none, none⟩)]⟩

theorem redefinitions_settled_title :
    definition? (titleTable "B") "Main" (.language "en") "title" = some ⟨"B", none, none⟩ ∧
      definition? (titleTable "B") "Main" .base "title" = none ∧
      (strings .default [titleTable "A", titleTable "B", titleTable "B"]).notices.count
        (.keyRedefined "title" "Main" (.language "en")) = 2 ∧
      (∃ kept notices, Settles (some ⟨"A", none, none⟩) ⟨"B", none, none⟩ kept notices ∧
        kept.value = "A" ∧ notices = 1) ∧
      redefinitions [titleTable "A", titleTable "B"] "Main" .base "title" = 0 := by
  have hsome : definition? (titleTable "B") "Main" (.language "en") "title" =
      some ⟨"B", none, none⟩ := by decide +kernel
  have hnone : definition? (titleTable "B") "Main" .base "title" = none := by decide +kernel
  obtain ⟨htotal, hcount, -⟩ := redefinitions_settled .default
    [titleTable "A", titleTable "B", titleTable "B"] "Main" (.language "en") "title"
  obtain ⟨-, -, hstep⟩ := redefinitions_settled .default [titleTable "A"] "Main" (.language "en")
    "title"
  obtain ⟨-, -, hother⟩ := redefinitions_settled .default [titleTable "A"] "Main" .base "title"
  obtain ⟨kept, notices, hsettles, hkept, hnotices⟩ := (hstep (titleTable "B")).2 _ hsome
  have hheld : held? (collectTables [titleTable "A"]).value "Main" (.language "en") "title" =
      some ⟨"A", none, none⟩ := by decide +kernel
  have hnext : held? (collectTables ([titleTable "A"] ++ [titleTable "B"])).value "Main"
      (.language "en") "title" = some ⟨"A", none, none⟩ := by decide +kernel
  have hzero : redefinitions [titleTable "A"] "Main" (.language "en") "title" = 0 := by
    decide +kernel
  have hone : redefinitions ([titleTable "A"] ++ [titleTable "B"]) "Main" (.language "en")
      "title" = 1 := by decide +kernel
  have hbase : redefinitions [titleTable "A"] "Main" .base "title" = 0 := by decide +kernel
  rw [hheld] at hsettles
  rw [hnext, Option.some.injEq] at hkept
  rw [hzero, hone, Nat.zero_add] at hnotices
  refine ⟨hsome, hnone, htotal.trans (hcount.trans (by decide +kernel)), ?_, ?_⟩
  · exact ⟨kept, notices, hsettles, hkept ▸ rfl, hnotices.symm⟩
  · exact ((hother (titleTable "B")).1 hnone).2.trans hbase

def filesTable (text : String) : StringTable :=
  ⟨"Main", .language "en", .ofList [("files", ⟨"%#@n@", none, some (.ofList [
    ("n", ⟨PluralRule.countType, "d", .ofList [("other", text)]⟩)])⟩)]⟩

/-- Other plural rules for the same key are dropped without a notice. -/
theorem exists_unreported_rules :
    ¬ ∀ (records : List StringTable) (record : StringTable) (table : String) (locale : Locale)
        (key : String) (held definition : StringEntry),
      held? (collectTables records).value table locale key = some held →
      definition? record table locale key = some definition → held ≠ definition →
      held.pluralRules.isSome = definition.pluralRules.isSome →
      held? (collectTables (records ++ [record])).value table locale key = some held →
        redefinitions (records ++ [record]) table locale key =
          redefinitions records table locale key + 1 := by
  intro h
  have hfiles := h [filesTable "%d files"] (filesTable "%d documents") "Main" (.language "en")
    "files" _ _ rfl rfl (by decide +kernel) rfl (by decide +kernel)
  exact absurd hfiles (by decide +kernel)

end Accessors.Namespace

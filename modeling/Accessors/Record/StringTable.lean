import Accessors.Dictionary
import Accessors.Locale

/-!
# String tables

A string table maps keys to texts in one locale. A text may refer to plural rules, which stand in
its entry; a rule has the texts of its plural cases and the letter that converts the count.
-/

namespace Accessors.Record

structure PluralRule where
  specType : String
  valueType : String
  cases : Dictionary String
  deriving DecidableEq, Repr

/-- The one kind of plural rule that is understood. -/
def PluralRule.countType : String := "NSStringPluralRuleType"

structure StringEntry where
  value : String
  comment : Option String
  pluralRules : Option (Dictionary PluralRule)
  deriving DecidableEq, Repr

structure StringTable where
  table : String
  locale : Locale
  entries : Dictionary StringEntry
  deriving DecidableEq, Repr

open Json

def PluralRule.ofJson : Decoder PluralRule := fun room j => do
  let fields ← fields? ["specType", "valueType", "cases"] room j
  let specType ← fields.withDefault "specType" countType string?
  let valueType ← fields.required "valueType" string?
  let cases ← fields.withDefault "cases" .empty (dictionary? string?)
  return ⟨specType, valueType, cases⟩

def PluralRule.toJson (rule : PluralRule) : Json := record [
  ("specType", text rule.specType),
  ("valueType", text rule.valueType),
  ("cases", ofDictionary text rule.cases)]

def StringEntry.ofJson : Decoder StringEntry := fun room j => do
  let fields ← fields? ["value", "comment", "pluralRules"] room j
  let value ← fields.required "value" string?
  let comment ← fields.orNone "comment" string?
  let pluralRules ← fields.orNone "pluralRules" (dictionary? PluralRule.ofJson)
  return ⟨value, comment, pluralRules⟩

def StringEntry.toJson (entry : StringEntry) : Json := record [
  ("value", text entry.value),
  ("comment", optional text entry.comment),
  ("pluralRules", optional (ofDictionary PluralRule.toJson) entry.pluralRules)]

def StringTable.ofJson : Decoder StringTable := fun room j => do
  let fields ← fields? ["table", "locale", "entries"] room j
  let table ← fields.required "table" string?
  let locale ← fields.withDefault "locale" .unspecified Locale.ofJson
  let entries ← fields.withDefault "entries" .empty (dictionary? StringEntry.ofJson)
  return ⟨table, locale, entries⟩

def StringTable.toJson (table : StringTable) : Json := record [
  ("table", text table.table),
  ("locale", table.locale.toJson),
  ("entries", ofDictionary StringEntry.toJson table.entries)]

end Accessors.Record

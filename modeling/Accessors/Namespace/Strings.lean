import Accessors.Format.Resolution
import Accessors.Namespace.Contents
import Accessors.Options
import Accessors.Text.Quoted

/-!
# Strings

String tables of one name are put together, one variant per locale. Each key becomes a constant; if
its text takes arguments it becomes a function as well. The texts of all locales have to take the
same arguments, or the key is left out. The primary variant has the development value of a key.
-/

namespace Accessors.Namespace

open Format (Argument)
open Record (StringEntry StringTable)
open Accessors.Symbol (Leaf Parameter)
open Text (quote quoteList)

structure Variant where
  locale : Locale
  entries : Dictionary StringEntry
  deriving DecidableEq, Repr

structure LocalizedTable where
  name : String
  first : Variant
  others : List Variant
  deriving DecidableEq, Repr

/-- The first definition of a key is kept, but one with plural rules goes before one without. -/
def addEntry (table : String) (locale : Locale) (entries : Dictionary StringEntry)
    (definition : String × StringEntry) : Noted (Dictionary StringEntry) :=
  match entries.get? definition.1 with
  | none => pure (entries.insert definition.1 definition.2)
  | some held =>
    if held = definition.2 ∨ held.pluralRules.isSome then pure entries
    else if definition.2.pluralRules.isSome then pure (entries.insert definition.1 definition.2)
    else ⟨entries, [.keyRedefined definition.1 table locale]⟩

def addEntries (record : StringTable) (entries : Dictionary StringEntry) :
    Noted (Dictionary StringEntry) :=
  record.entries.entries.foldlM (addEntry record.table record.locale) entries

def Variant.ofRecord (record : StringTable) : Noted Variant := do
  let entries ← addEntries record .empty
  return ⟨record.locale, entries⟩

def Variant.add (record : StringTable) (variant : Variant) : Noted Variant := do
  let entries ← addEntries record variant.entries
  return { variant with entries }

def addToVariants (record : StringTable) : List Variant → Noted (List Variant) :=
  Noted.upsert Variant.locale record.locale (Variant.add record) (Variant.ofRecord record)

namespace LocalizedTable

def ofRecord (record : StringTable) : Noted LocalizedTable := do
  let first ← Variant.ofRecord record
  return ⟨record.table, first, []⟩

def add (record : StringTable) (table : LocalizedTable) : Noted LocalizedTable :=
  if table.first.locale = record.locale then do
    let first ← table.first.add record
    return { table with first }
  else do
    let others ← addToVariants record table.others
    return { table with others }

def variants (table : LocalizedTable) : List Variant := table.first :: table.others

/-- The base variant, or else that of the development language, or else the first. -/
def primary (development : Option String) (table : LocalizedTable) : Variant :=
  let base := table.variants.find? (·.locale == .base)
  let developed := development.bind fun name =>
    table.variants.find? (·.locale == .language name)
  (base.or developed).getD table.first

def sortVariants (variants : List Variant) : List Variant :=
  variants.mergeSort fun a b => a.locale.le b.locale

def keys (table : LocalizedTable) : List String :=
  distinct (table.variants.flatMap (·.entries.keys))

end LocalizedTable

def addRecord (record : StringTable) : List LocalizedTable → Noted (List LocalizedTable) :=
  Noted.upsert LocalizedTable.name record.table (LocalizedTable.add record)
    (LocalizedTable.ofRecord record)

def collectTables (records : List StringTable) : Noted (List LocalizedTable) :=
  records.foldlM (fun tables record => addRecord record tables) []

def gapsOf (table : String) (primary variant : Variant) : List Notice :=
  let missing := primary.entries.keys.filter (! variant.entries.keys.contains ·)
  let extra := variant.entries.keys.filter (! primary.entries.keys.contains ·)
  (if missing.isEmpty then [] else [.translationMissing table variant.locale missing]) ++
    (if extra.isEmpty then [] else
      [.translationExtra table variant.locale primary.locale extra])

def translationGaps (table : LocalizedTable) (primary : Variant) : List Notice :=
  (LocalizedTable.sortVariants (table.variants.filter (·.locale != primary.locale))).flatMap
    (gapsOf table.name primary)

/-- The arguments that unify those of all the locales, or why there are none. `agreeing` are the
locales that `unified` comes from. -/
def unifyLocales (key table : String) :
    List Locale → List Argument → List (Locale × StringEntry) → Except Notice (List Argument)
  | _, unified, [] => .ok unified
  | agreeing, unified, (locale, entry) :: rest =>
    match Format.arguments entry.value entry.pluralRules with
    | .error error => .error (.formatInvalid key table locale error)
    | .ok arguments =>
      match Argument.unifyAll unified arguments with
      | none => .error (.formatMismatch key table locale agreeing)
      | some next => unifyLocales key table (agreeing ++ [locale]) next rest

def argumentsOf (key table : String) (entries : List (Locale × StringEntry)) :
    Except Notice (List Argument) := do
  let arguments ← unifyLocales key table [] [] entries
  match arguments.findIdx? Argument.isUnresolved with
  | some index => .error (.formatIncomplete key table (index + 1))
  | none => .ok arguments

/-- The name of an argument, unless it has none or its identifier is taken, or else its place. -/
def parameterName (used : List String) (index : Nat) (argument : Argument) : String :=
  let place := s!"value{index + 1}"
  match argument.name with
  | none => place
  | some name =>
    let identifier := Identifier.ofName name
    if identifier = "" ∨ used.contains identifier then place else identifier

def parametersFrom (used : List String) (index : Nat) : List Argument → List Parameter
  | [] => []
  | argument :: rest =>
    let name := parameterName used index argument
    .unlabeled name argument.specifier.typeName :: parametersFrom (name :: used) (index + 1) rest

def parameters (arguments : List Argument) : List Parameter := parametersFrom [] 0 arguments

structure TableContext where
  table : LocalizedTable
  primary : Variant
  bundle : String

namespace TableContext

def localeNames (context : TableContext) : List String :=
  ((LocalizedTable.sortVariants context.table.variants).filter
    (·.locale != .unspecified)).map (·.locale.label)

def fallback? (context : TableContext) (key : String) : Option StringEntry :=
  (context.primary.entries.get? key).or
    (context.table.variants.findSome? (·.entries.get? key))

def constant (context : TableContext) (key : String) (fallback : StringEntry) : Leaf :=
  let names := context.localeNames
  .constant (Identifier.ofName key) "StringResource"
    (s!"StringResource(key: {quote key}, tableName: {quote context.table.name}, "
      ++ s!"bundle: {context.bundle}, locales: {quoteList names}, "
      ++ s!"developmentValue: {quote fallback.value})")
    (["Value: " ++ fallback.value]
      ++ (if names.isEmpty then [] else ["Locales: " ++ listed names])
      ++ fallback.comment.toList.map ("Comment: " ++ ·))

def function (context : TableContext) (key : String) (fallback : StringEntry)
    (arguments : List Argument) : Leaf :=
  .function (Identifier.ofName key) (parameters arguments) "String"
    (s!"String(format: NSLocalizedString({quote key}, tableName: {quote context.table.name}, "
      ++ s!"bundle: {context.bundle}, value: {quote fallback.value}, comment: \"\"), "
      ++ s!"{listed ((parameters arguments).map Parameter.name)})")
    ["Value: " ++ fallback.value, "Primary locale: " ++ context.primary.locale.label]

def entriesOf (context : TableContext) (key : String) : List (Locale × StringEntry) :=
  (LocalizedTable.sortVariants context.table.variants).filterMap fun variant =>
    (variant.entries.get? key).map fun entry => (variant.locale, entry)

def leaves (context : TableContext) (key : String) : Noted (List Leaf) :=
  match argumentsOf key context.table.name (context.entriesOf key), context.fallback? key with
  | .error notice, _ => ⟨[], [notice]⟩
  | .ok _, none => pure []
  | .ok [], some fallback => pure [context.constant key fallback]
  | .ok arguments, some fallback =>
    pure [context.constant key fallback, context.function key fallback arguments]

def member (context : TableContext) (key : String) : Member where
  name := key
  contents := do
    let leaves ← context.leaves key
    return .ofLeaves leaves

end TableContext

def tableContents (options : Options) (table : LocalizedTable) : Noted Contents := do
  let primary := table.primary options.developmentLocale
  let context : TableContext := ⟨table, primary, options.bundleExpression⟩
  Noted.give (translationGaps table primary)
  assemble "strings" s!"table '{table.name}'" (table.keys.map context.member)

def strings (options : Options) (records : List StringTable) : Noted Contents := do
  let tables ← collectTables records
  assemble "string tables" "string" (tables.map fun table =>
    .child table.name (tableContents options table))

end Accessors.Namespace

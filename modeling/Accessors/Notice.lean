import Accessors.Format.FormatError
import Accessors.Locale
import Accessors.Record.Template
import Accessors.Text.Listed

/-!
# Notices

A notice says what a compilation leaves out, or has to choose, and why. It has a code and a message.
-/

namespace Accessors

open Record (TemplateKind)

inductive Disagreement where
  | missing
  | different
  deriving DecidableEq, Repr

inductive Notice where
  | identifierCollision (what scope identifier : String) (rawKeys : List String)
  | identifierEmpty (what scope rawKey : String)
  | keyRedefined (key table : String) (locale : Locale)
  | formatInvalid (key table : String) (locale : Locale) (error : Format.FormatError)
  | formatMismatch (key table : String) (locale : Locale) (agreeing : List Locale)
  | formatIncomplete (key table : String) (argument : Nat)
  | translationMissing (table : String) (locale : Locale) (keys : List String)
  | translationExtra (table : String) (locale primary : Locale) (keys : List String)
  | rootDivergent (kind : TemplateKind) (template : String)
  | elementDivergent (kind : TemplateKind) (template identifier : String)
  | reuseDivergent (kind : TemplateKind) (template identifier : String)
  | deploymentDivergent (kind : TemplateKind) (template : String) (chosen : Locale)
  | memberReserved (element storyboard member : String)
  | reuseConflict (identifier : String) (types : List String)
  | imageUnsupported (fileName : String)
  | primaryKeyMissing (index : Nat) (key scope primaryKey : String)
  | configurationMismatch (list : String) (path : List String) (problem : Disagreement)
      (configurations : List String)
  deriving DecidableEq, Repr

structure Diagnostic where
  code : String
  message : String
  deriving DecidableEq, Repr

def Disagreement.label : Disagreement → String
  | .missing => "is missing in some"
  | .different => "differs between"

namespace Notice

def code : Notice → String
  | identifierCollision .. => "IDENTIFIER_COLLISION"
  | identifierEmpty .. => "IDENTIFIER_EMPTY"
  | keyRedefined .. => "STRINGS_KEY_REDEFINED"
  | formatInvalid _ _ _ error => error.code
  | formatMismatch .. => "STRINGS_FORMAT_MISMATCH"
  | formatIncomplete .. => "STRINGS_FORMAT_INCOMPLETE"
  | translationMissing .. => "STRINGS_MISSING_TRANSLATION"
  | translationExtra .. => "STRINGS_EXTRA_TRANSLATION"
  | rootDivergent .. => "TEMPLATE_ROOT_DIVERGENT"
  | elementDivergent .. => "TEMPLATE_ELEMENT_DIVERGENT"
  | reuseDivergent .. => "TEMPLATE_REUSE_DIVERGENT"
  | deploymentDivergent .. => "TEMPLATE_DEPLOYMENT_DIVERGENT"
  | memberReserved .. => "STORYBOARD_IDENTIFIER_RESERVED"
  | reuseConflict .. => "REUSE_IDENTIFIER_CONFLICT"
  | imageUnsupported .. => "IMAGE_FILE_UNSUPPORTED"
  | primaryKeyMissing .. => "PLIST_PRIMARY_KEY_MISSING"
  | configurationMismatch .. => "PLIST_CONFIGURATION_MISMATCH"

def message : Notice → String
  | identifierCollision what scope identifier rawKeys =>
    s!"Skipping {rawKeys.length} {what} in {scope} because symbol '{identifier}' would be "
      ++ "generated for all of these: " ++ listed (rawKeys.map fun key => s!"'{key}'")
  | identifierEmpty what scope rawKey =>
    s!"Skipping {what} '{rawKey}' in {scope} because no valid identifier can be derived from it"
  | keyRedefined key table locale =>
    s!"String '{key}' is defined more than once in table '{table}' ({locale.label}), "
      ++ "keeping the first definition"
  | formatInvalid key table locale error =>
    s!"Skipping string '{key}' in table '{table}' ({locale.label}): {error.message}"
  | formatMismatch key table locale agreeing =>
    s!"Skipping string '{key}' in table '{table}': format specifiers of {locale.label} "
      ++ s!"don't match those of {listed (agreeing.map Locale.label)}"
  | formatIncomplete key table argument =>
    s!"Skipping string '{key}' in table '{table}': argument {argument} is never used by any locale"
  | translationMissing table locale keys =>
    s!"Table '{table}' in locale '{locale.label}' is missing translations for keys: {listed keys}"
  | translationExtra table locale primary keys =>
    s!"Table '{table}' in locale '{locale.label}' has translations for keys not present in "
      ++ s!"primary locale '{primary.label}': {listed keys}"
  | rootDivergent kind template =>
    s!"Skipping root accessors of {kind.label} '{template}' because its root types differ "
      ++ "between locales"
  | elementDivergent kind template identifier =>
    s!"Skipping {kind.elementLabel} '{identifier}' of {kind.label} '{template}' because its "
      ++ "identifier or type differs between locales"
  | reuseDivergent kind template identifier =>
    s!"Skipping reuse identifier '{identifier}' of {kind.label} '{template}' because it is not "
      ++ "present in every locale"
  | deploymentDivergent kind template chosen =>
    s!"{kind.label} '{template}' declares different deployment targets per locale, using the one "
      ++ s!"of locale '{chosen.label}'"
  | memberReserved element storyboard member =>
    s!"Skipping view controller '{element}' in storyboard '{storyboard}' because '{member}' is "
      ++ "already a generated member"
  | reuseConflict identifier types =>
    s!"Skipping reuse identifier '{identifier}' because it is used with different types: "
      ++ listed types
  | imageUnsupported fileName => s!"Skipping image file '{fileName}', unsupported extension"
  | primaryKeyMissing index key scope primaryKey =>
    s!"Skipping element {index} of '{key}' in {scope} because it has no string '{primaryKey}'"
  | configurationMismatch list path problem configurations =>
    s!"Skipping '{dotted path}' in property list '{list}' because its value "
      ++ s!"{problem.label} configurations: {listed configurations}"

def diagnostic (notice : Notice) : Diagnostic := ⟨notice.code, notice.message⟩

end Notice

end Accessors

import Accessors.Json.Decoder

/-!
# Locales

A resource belongs to no locale in particular, to the base locale, or to a language. Locales are
ordered like that, and languages among each other by name.
-/

namespace Accessors

inductive Locale where
  | unspecified
  | base
  | language (name : String)
  deriving DecidableEq, Repr, Inhabited

namespace Locale

def ofTag : Option String → Locale
  | none => .unspecified
  | some tag => if tag = "Base" then .base else .language tag

def tag : Locale → Option String
  | .unspecified => none
  | .base => some "Base"
  | .language name => some name

def name? : Locale → Option String
  | .language name => some name
  | _ => none

def label (locale : Locale) : String := locale.tag.getD "unspecified"

def le : Locale → Locale → Bool
  | .unspecified, _ => true
  | .base, .unspecified => false
  | .base, _ => true
  | .language a, .language b => a ≤ b
  | .language _, _ => false

def toJson (locale : Locale) : Json := Json.optional Json.text locale.tag

def ofJson : Json.Decoder Locale := fun room j => (Json.nullable Json.string? room j).map ofTag

theorem ofTag_tag {locale : Locale} (h : locale ≠ .language "Base") :
    ofTag locale.tag = locale := by
  cases locale with
  | unspecified => rfl
  | base => rfl
  | language name =>
    have : name ≠ "Base" := fun e => h (e ▸ rfl)
    simp [tag, ofTag, this]

theorem le_total (a b : Locale) : (a.le b || b.le a) = true := by
  cases a <;> cases b <;> simp [le, String.le_total]

theorem le_trans (a b c : Locale) : a.le b = true → b.le c = true → a.le c = true := by
  cases a <;> cases b <;> cases c <;> simp [le]
  exact String.le_trans

end Locale

end Accessors

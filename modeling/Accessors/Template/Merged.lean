import Accessors.Keys
import Accessors.Record.Template

/-!
# Merged templates

The locale variants of a template are merged into one. Usages are gathered from all variants, reuse
tokens kept only where all variants have them; root types, nested elements and deployment target are
those of the first variant. What differs between the variants is recorded.
-/

namespace Accessors.Template

open Record (Template TemplateKind TypedIdentifier)

structure Merged where
  template : Template
  locales : List Locale
  rootTypesDiffer : Bool
  /-- The identifiers of tokens that some variant lacks, in order. -/
  divergentReuseTokens : List String
  /-- The identifiers of elements that the first or some other variant lacks, in order. -/
  divergentNestedElements : List String
  deploymentDiffers : Bool
  deriving DecidableEq, Repr

def unshared (xs ys : List TypedIdentifier) : List TypedIdentifier :=
  xs.filter (! ys.contains ·) ++ ys.filter (! xs.contains ·)

def identifiers (elements : List TypedIdentifier) : List String :=
  elements.map TypedIdentifier.identifier

namespace Merged

def ofFirst (first : Template) : Merged where
  template := { first with
    locale := .unspecified
    usedImages := distinct first.usedImages
    usedColors := distinct first.usedColors }
  locales := [first.locale]
  rootTypesDiffer := false
  divergentReuseTokens := []
  divergentNestedElements := []
  deploymentDiffers := false

def absorb (merged : Merged) (other : Template) : Merged where
  template := { merged.template with
    usedImages := distinct (merged.template.usedImages ++ other.usedImages)
    usedColors := distinct (merged.template.usedColors ++ other.usedColors)
    reuseTokens := merged.template.reuseTokens.filter (other.reuseTokens.contains ·) }
  locales := merged.locales ++ [other.locale]
  rootTypesDiffer := merged.rootTypesDiffer || merged.template.rootTypes != other.rootTypes
  divergentReuseTokens := distinct (merged.divergentReuseTokens ++
    identifiers (unshared merged.template.reuseTokens other.reuseTokens))
  divergentNestedElements := distinct (merged.divergentNestedElements ++
    identifiers (unshared merged.template.nestedElements other.nestedElements))
  deploymentDiffers := merged.deploymentDiffers ||
    merged.template.deploymentTarget != other.deploymentTarget

def isDivergent (merged : Merged) : Bool :=
  merged.rootTypesDiffer || merged.deploymentDiffers ||
    !merged.divergentReuseTokens.isEmpty || !merged.divergentNestedElements.isEmpty

def stableElements (merged : Merged) : List TypedIdentifier :=
  merged.template.nestedElements.filter fun element =>
    !merged.divergentNestedElements.contains element.identifier

end Merged

def mergeVariants : List Template → Option Merged
  | [] => none
  | first :: rest => some (rest.foldl Merged.absorb (.ofFirst first))

def sortByLocale (variants : List Template) : List Template :=
  variants.mergeSort fun a b => a.locale.le b.locale

/-- Nibs before storyboards, each by name. -/
def mergeAll (templates : List Template) : List Merged :=
  [TemplateKind.nib, TemplateKind.storyboard].flatMap fun kind =>
    (buckets Template.name (templates.filter (·.kind == kind))).filterMap fun bucket =>
      mergeVariants (sortByLocale bucket.2)

end Accessors.Template

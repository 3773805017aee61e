import Accessors.Namespace.Contents
import Accessors.Options
import Accessors.Template.Merged
import Accessors.Text.Quoted

/-!
# Nibs and storyboards

A nib has accessors for its root views and, if it has a reuse token, for the identifier of the first
one. A storyboard has an accessor for its initial view controller and one for each view controller
with an identifier. Both check the images and colours that they use.
-/

namespace Accessors.Namespace

open Record (Template TemplateKind TypedIdentifier)
open Accessors.Symbol (Leaf Parameter)
open Template (Merged)
open Text (quote)

def divergences (merged : Merged) : List Notice :=
  let kind := merged.template.kind
  let name := merged.template.name
  (if merged.rootTypesDiffer then [.rootDivergent kind name] else []) ++
    merged.divergentNestedElements.map (.elementDivergent kind name) ++
    merged.divergentReuseTokens.map (.reuseDivergent kind name) ++
    (if merged.deploymentDiffers then
      merged.locales.head?.toList.map (.deploymentDivergent kind name)
    else [])

def checkNotNil (expression description : String) : String :=
  s!"if {expression} == nil \x7b " ++
    s!"throw ResourceValidationError(description: {quote description}) \x7d"

def usageCheck (bundle what loader : String) (template : Template) (name : String) : String :=
  checkNotNil s!"{loader}(named: {quote name}, in: {bundle}, compatibleWith: nil)"
    (s!"{what} named '{name}' is used in {template.kind.label} '{template.name}', "
      ++ "but couldn't be loaded.")

def usageChecks (bundle : String) (template : Template) : List String :=
  template.usedImages.map (usageCheck bundle "Image" "UIImage" template) ++
    template.usedColors.map (usageCheck bundle "Color" "UIColor" template)

def nameLeaf (template : Template) : Leaf := .constant "name" "String" (quote template.name) []

def ordinals : List String := [
  "first", "second", "third", "fourth", "fifth", "sixth", "seventh", "eighth", "ninth", "tenth"]

def rootAccessorName (index : Nat) : String :=
  match ordinals[index]? with
  | some ordinal => ordinal ++ "View"
  | none => s!"view{index + 1}"

def instantiation (bundle : String) (template : Template) : String :=
  s!"UINib(nibName: {quote template.name}, bundle: {bundle}).instantiate(withOwner: owner, "
    ++ "options: nil)"

def ownerParameter : Parameter := .labeled "owner" "Any?"

def rootAccessor (bundle : String) (template : Template) (root : String × Nat) : Leaf :=
  .function (rootAccessorName root.2) [ownerParameter] (root.1 ++ "?")
    (instantiation bundle template ++ s!"[{root.2}] as? {root.1}") []

def reuseType (token : TypedIdentifier) : String := s!"ReuseIdentifier<{token.typeName}>"

def reuseLeaf (name : String) (token : TypedIdentifier) : Leaf :=
  .constant name (reuseType token) s!"{reuseType token}(identifier: {quote token.identifier})" []

def nibContents (bundle : String) (merged : Merged) : Contents where
  leaves :=
    [nameLeaf merged.template,
      .function "instantiate" [ownerParameter] "[Any]" (instantiation bundle merged.template) []] ++
    (if merged.rootTypesDiffer then []
      else merged.template.rootTypes.zipIdx.map (rootAccessor bundle merged.template)) ++
    merged.template.reuseTokens.head?.toList.map (reuseLeaf "identifier")
  children := []
  checks := usageChecks bundle merged.template

def nib (bundle : String) (merged : Merged) : Noted Contents :=
  ⟨nibContents bundle merged, divergences merged⟩

def storyboardMembers : List String := ["name", "initialViewController"]

def storyboardInstance (bundle : String) (template : Template) : String :=
  s!"UIStoryboard(name: {quote template.name}, bundle: {bundle})"

def initialAccessor (bundle : String) (template : Template) (root : String) : Leaf :=
  .function "initialViewController" [] (root ++ "?")
    (storyboardInstance bundle template ++ s!".instantiateInitialViewController() as? {root}") []

def elementBinding (bundle : String) (template : Template) (element : TypedIdentifier) : String :=
  storyboardInstance bundle template ++
    (s!".instantiateViewController(withIdentifier: {quote element.identifier}) as? "
      ++ element.typeName)

def elementContents (bundle : String) (template : Template) (element : TypedIdentifier) :
    Contents where
  leaves := [.function (Identifier.ofName element.identifier) [] (element.typeName ++ "?")
    (elementBinding bundle template element) []]
  children := []
  checks := [checkNotNil (elementBinding bundle template element)
    (s!"View controller with identifier '{element.identifier}' could not be loaded from "
      ++ s!"storyboard '{template.name}' as '{element.typeName}'.")]

def elementMember (bundle : String) (template : Template) (element : TypedIdentifier) : Member where
  name := element.identifier
  contents :=
    let identifier := Identifier.ofName element.identifier
    if storyboardMembers.contains identifier then
      ⟨.empty, [.memberReserved element.identifier template.name identifier]⟩
    else pure (elementContents bundle template element)

def storyboardFixed (bundle : String) (merged : Merged) : Contents where
  leaves := nameLeaf merged.template ::
    (if merged.rootTypesDiffer then []
      else merged.template.rootTypes.head?.toList.map (initialAccessor bundle merged.template))
  children := []
  checks := usageChecks bundle merged.template

def storyboard (bundle : String) (merged : Merged) : Noted Contents := do
  Noted.give (divergences merged)
  let elements ← assemble "view controllers" s!"storyboard '{merged.template.name}'"
    (merged.stableElements.map (elementMember bundle merged.template))
  return storyboardFixed bundle merged ++ elements

def ofKind (kind : TemplateKind) (templates : List Merged) : List Merged :=
  templates.filter (·.template.kind == kind)

def nibs (options : Options) (templates : List Merged) : Noted Contents :=
  assemble "nibs" "nib" ((ofKind .nib templates).map fun merged =>
    .child merged.template.name (nib options.bundleExpression merged))

def storyboards (options : Options) (templates : List Merged) : Noted Contents :=
  assemble "storyboards" "storyboard" ((ofKind .storyboard templates).map fun merged =>
    .child merged.template.name (storyboard options.bundleExpression merged))

end Accessors.Namespace

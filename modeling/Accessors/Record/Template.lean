import Accessors.Locale

/-!
# Templates

A template is a nib or a storyboard in one locale: the types of its root elements, the nested
elements that have an identifier, its reuse tokens, and the images and colours that it uses.
-/

namespace Accessors.Record

inductive TemplateKind where
  | nib
  | storyboard
  deriving DecidableEq, Repr

namespace TemplateKind

def label : TemplateKind → String
  | .nib => "nib"
  | .storyboard => "storyboard"

def elementLabel : TemplateKind → String
  | .nib => "element"
  | .storyboard => "view controller"

end TemplateKind

structure TypedIdentifier where
  identifier : String
  typeName : String
  deriving DecidableEq, Repr

structure DeploymentTarget where
  platform : String
  version : String
  deriving DecidableEq, Repr

structure Template where
  kind : TemplateKind
  name : String
  locale : Locale
  rootTypes : List String
  nestedElements : List TypedIdentifier
  reuseTokens : List TypedIdentifier
  usedImages : List String
  usedColors : List String
  deploymentTarget : Option DeploymentTarget
  deriving DecidableEq, Repr

open Json

def TemplateKind.ofJson : Decoder TemplateKind :=
  word? [("nib", .nib), ("storyboard", .storyboard)]

def TypedIdentifier.ofJson : Decoder TypedIdentifier := fun room j => do
  let fields ← fields? ["identifier", "typeName"] room j
  let identifier ← fields.required "identifier" string?
  let typeName ← fields.required "typeName" string?
  return ⟨identifier, typeName⟩

def TypedIdentifier.toJson (element : TypedIdentifier) : Json := record [
  ("identifier", text element.identifier),
  ("typeName", text element.typeName)]

def DeploymentTarget.ofJson : Decoder DeploymentTarget := fun room j => do
  let fields ← fields? ["platform", "version"] room j
  let platform ← fields.required "platform" string?
  let version ← fields.required "version" string?
  return ⟨platform, version⟩

def DeploymentTarget.toJson (target : DeploymentTarget) : Json := record [
  ("platform", text target.platform),
  ("version", text target.version)]

def Template.fieldNames : List String := [
  "kind", "name", "locale", "rootTypes", "nestedElements", "reuseTokens", "usedImages",
  "usedColors", "deploymentTarget"]

def Template.ofJson : Decoder Template := fun room j => do
  let fields ← fields? fieldNames room j
  let kind ← fields.required "kind" TemplateKind.ofJson
  let name ← fields.required "name" string?
  let locale ← fields.withDefault "locale" .unspecified Locale.ofJson
  let rootTypes ← fields.orEmpty "rootTypes" string?
  let nestedElements ← fields.orEmpty "nestedElements" TypedIdentifier.ofJson
  let reuseTokens ← fields.orEmpty "reuseTokens" TypedIdentifier.ofJson
  let usedImages ← fields.orEmpty "usedImages" string?
  let usedColors ← fields.orEmpty "usedColors" string?
  let deploymentTarget ← fields.orNone "deploymentTarget" DeploymentTarget.ofJson
  return ⟨kind, name, locale, rootTypes, nestedElements, reuseTokens, usedImages, usedColors,
    deploymentTarget⟩

def Template.toJson (template : Template) : Json := record [
  ("kind", text template.kind.label),
  ("name", text template.name),
  ("locale", template.locale.toJson),
  ("rootTypes", texts template.rootTypes),
  ("nestedElements", .array (template.nestedElements.map TypedIdentifier.toJson)),
  ("reuseTokens", .array (template.reuseTokens.map TypedIdentifier.toJson)),
  ("usedImages", texts template.usedImages),
  ("usedColors", texts template.usedColors),
  ("deploymentTarget", optional DeploymentTarget.toJson template.deploymentTarget)]

end Accessors.Record

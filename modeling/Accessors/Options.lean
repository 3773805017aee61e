import Accessors.Json.Decoder

/-!
# Options

What a compilation is told besides its resources: the name of the root, the development locale, the
expression for the bundle that holds the resources, and the kinds of resource that are left out.
-/

namespace Accessors

open Json

inductive ResourceKind where
  | strings
  | nibs
  | storyboards
  | images
  | colors
  | data
  | fonts
  | files
  | reuseIdentifiers
  | propertyLists
  deriving DecidableEq, Repr

namespace ResourceKind

def all : List ResourceKind := [
  .strings, .nibs, .storyboards, .images, .colors, .data, .fonts, .files, .reuseIdentifiers,
  .propertyLists]

def label : ResourceKind → String
  | .strings => "strings"
  | .nibs => "nibs"
  | .storyboards => "storyboards"
  | .images => "images"
  | .colors => "colors"
  | .data => "data"
  | .fonts => "fonts"
  | .files => "files"
  | .reuseIdentifiers => "reuseIdentifiers"
  | .propertyLists => "propertyLists"

def ofJson : Decoder ResourceKind := word? (all.map fun kind => (kind.label, kind))

end ResourceKind

structure Options where
  rootName : String
  developmentLocale : Option String
  bundleExpression : String
  excludedKinds : List ResourceKind
  deriving DecidableEq, Repr

namespace Options

def default : Options := ⟨"R", none, "R.hostingBundle", []⟩

def isEnabled (options : Options) (kind : ResourceKind) : Bool :=
  !options.excludedKinds.contains kind

def disable (options : Options) (kind : ResourceKind) : Options :=
  { options with excludedKinds := kind :: options.excludedKinds }

def enable (options : Options) (kind : ResourceKind) : Options :=
  { options with excludedKinds := options.excludedKinds.filter (· != kind) }

def ofJson : Decoder Options := fun room j => do
  let fields ← fields? ["rootName", "developmentLocale", "bundleExpression", "excludedKinds"] room j
  let rootName ← fields.withDefault "rootName" default.rootName string?
  let developmentLocale ← fields.orNone "developmentLocale" string?
  let bundleExpression ← fields.withDefault "bundleExpression" default.bundleExpression string?
  let excludedKinds ← fields.orEmpty "excludedKinds" ResourceKind.ofJson
  return ⟨rootName, developmentLocale, bundleExpression, excludedKinds⟩

def toJson (options : Options) : Json := record [
  ("rootName", text options.rootName),
  ("developmentLocale", optional text options.developmentLocale),
  ("bundleExpression", text options.bundleExpression),
  ("excludedKinds", texts ((ResourceKind.all.filter (! options.isEnabled ·)).map
    ResourceKind.label))]

def ofText? (s : String) : Option Options := decodeText ofJson s

end Options

end Accessors

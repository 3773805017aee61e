import Accessors.Json.Decoder
import Accessors.FileName

/-!
# Assets and files

An asset stands in folders of a catalogue; its full name joins them to its own with slashes. Loose
images, fonts and other files are known by their file.
-/

namespace Accessors.Record

open Json

inductive AssetKind where
  | image
  | color
  | data
  deriving DecidableEq, Repr

structure Asset where
  kind : AssetKind
  catalog : String
  folders : List String
  name : String
  deriving DecidableEq, Repr

structure ImageFile where
  fileName : String
  deriving DecidableEq, Repr

structure Font where
  fileName : String
  postscriptName : String
  deriving DecidableEq, Repr

structure BundledFile where
  path : String
  deriving DecidableEq, Repr

def fullName (folders : List String) (name : String) : String := "/".intercalate (folders ++ [name])

def Asset.fullName (asset : Asset) : String := Record.fullName asset.folders asset.name

def BundledFile.fileName (file : BundledFile) : String := FileName.ofPath file.path

def AssetKind.label : AssetKind → String
  | .image => "image"
  | .color => "color"
  | .data => "data"

def AssetKind.ofJson : Decoder AssetKind :=
  word? [("image", .image), ("color", .color), ("data", .data)]

def Asset.ofJson : Decoder Asset := fun room j => do
  let fields ← fields? ["kind", "catalog", "namespace", "name"] room j
  let kind ← fields.required "kind" AssetKind.ofJson
  let catalog ← fields.withDefault "catalog" "" string?
  let folders ← fields.orEmpty "namespace" string?
  let name ← fields.required "name" string?
  return ⟨kind, catalog, folders, name⟩

def Asset.toJson (asset : Asset) : Json := record [
  ("kind", text asset.kind.label),
  ("catalog", text asset.catalog),
  ("namespace", texts asset.folders),
  ("name", text asset.name)]

def ImageFile.ofJson : Decoder ImageFile := fun room j => do
  let fields ← fields? ["fileName"] room j
  let fileName ← fields.required "fileName" string?
  return ⟨fileName⟩

def ImageFile.toJson (file : ImageFile) : Json := record [("fileName", text file.fileName)]

def Font.ofJson : Decoder Font := fun room j => do
  let fields ← fields? ["fileName", "postscriptName"] room j
  let fileName ← fields.required "fileName" string?
  let postscriptName ← fields.required "postscriptName" string?
  return ⟨fileName, postscriptName⟩

def Font.toJson (font : Font) : Json := record [
  ("fileName", text font.fileName),
  ("postscriptName", text font.postscriptName)]

def BundledFile.ofJson : Decoder BundledFile := fun room j => do
  let fields ← fields? ["path"] room j
  let path ← fields.required "path" string?
  return ⟨path⟩

def BundledFile.toJson (file : BundledFile) : Json := record [("path", text file.path)]

end Accessors.Record

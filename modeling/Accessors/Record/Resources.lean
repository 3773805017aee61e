import Accessors.Record.Asset
import Accessors.Record.PropertyList
import Accessors.Record.StringTable
import Accessors.Record.Template

/-!
# Resources

All the records that a compilation starts from. Bundles of resources are put together list by list.
-/

namespace Accessors.Record

structure Resources where
  strings : List StringTable
  templates : List Template
  assets : List Asset
  imageFiles : List ImageFile
  fonts : List Font
  files : List BundledFile
  propertyLists : List PropertyList
  deriving DecidableEq

namespace Resources

def empty : Resources := ⟨[], [], [], [], [], [], []⟩

def append (a b : Resources) : Resources where
  strings := a.strings ++ b.strings
  templates := a.templates ++ b.templates
  assets := a.assets ++ b.assets
  imageFiles := a.imageFiles ++ b.imageFiles
  fonts := a.fonts ++ b.fonts
  files := a.files ++ b.files
  propertyLists := a.propertyLists ++ b.propertyLists

instance : Append Resources := ⟨append⟩

open Json

def fieldNames : List String :=
  ["strings", "templates", "assets", "imageFiles", "fonts", "files", "propertyLists"]

def ofJson : Decoder Resources := fun room j => do
  let fields ← fields? fieldNames room j
  let strings ← fields.orEmpty "strings" StringTable.ofJson
  let templates ← fields.orEmpty "templates" Template.ofJson
  let assets ← fields.orEmpty "assets" Asset.ofJson
  let imageFiles ← fields.orEmpty "imageFiles" ImageFile.ofJson
  let fonts ← fields.orEmpty "fonts" Font.ofJson
  let files ← fields.orEmpty "files" BundledFile.ofJson
  let propertyLists ← fields.orEmpty "propertyLists" PropertyList.ofJson
  return ⟨strings, templates, assets, imageFiles, fonts, files, propertyLists⟩

def toJson (resources : Resources) : Json := record [
  ("strings", .array (resources.strings.map StringTable.toJson)),
  ("templates", .array (resources.templates.map Template.toJson)),
  ("assets", .array (resources.assets.map Asset.toJson)),
  ("imageFiles", .array (resources.imageFiles.map ImageFile.toJson)),
  ("fonts", .array (resources.fonts.map Font.toJson)),
  ("files", .array (resources.files.map BundledFile.toJson)),
  ("propertyLists", .array (resources.propertyLists.map PropertyList.toJson))]

def ofText? (s : String) : Option Resources := decodeText ofJson s

end Resources

end Accessors.Record

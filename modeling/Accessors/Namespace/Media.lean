import Accessors.ImageName
import Accessors.Namespace.Contents
import Accessors.Options
import Accessors.Record.Asset
import Accessors.Text.Quoted

/-!
# Images, colours and data

Assets stand in nested folders. The folders are gathered into a tree, in which a folder becomes a
child node and an asset a constant. Loose image files count as assets outside all folders, those
with one base name as one.
-/

namespace Accessors.Namespace

open Record (Asset AssetKind ImageFile)
open Accessors.Symbol (Leaf)
open Text (quote)

structure MediaEntry where
  name : String
  fullName : String
  deriving DecidableEq, Repr

structure Folder where
  assets : List MediaEntry
  folders : List (String × Folder)

namespace Folder

def empty : Folder := ⟨[], []⟩

/-- Puts an asset into the folder at the end of a path, which is made where it is missing. -/
def insert (entry : MediaEntry) : List String → Folder → Folder
  | [], folder => { folder with assets := folder.assets ++ [entry] }
  | step :: path, folder =>
    let inner := (folder.folders.lookup step).getD empty
    { folder with folders := insertEntry step (insert entry path inner) folder.folders }

def ofEntries (entries : List (List String × MediaEntry)) : Folder :=
  entries.foldl (fun folder entry => folder.insert entry.2 entry.1) empty

end Folder

def resourceType : AssetKind → String
  | .image => "ImageResource"
  | .color => "ColorResource"
  | .data => "DataResource"

def assetsLabel : AssetKind → String
  | .image => "images"
  | .color => "colors"
  | .data => "data assets"

def assetLeaf (kind : AssetKind) (bundle : String) (entry : MediaEntry) : Leaf :=
  .constant (Identifier.ofName entry.name) (resourceType kind)
    s!"{resourceType kind}(name: {quote entry.fullName}, bundle: {bundle})" []

def assetMember (kind : AssetKind) (bundle : String) (entry : MediaEntry) : Member :=
  .plain entry.name (.ofLeaves [assetLeaf kind bundle entry])

mutual

def folderContents (kind : AssetKind) (bundle scope : String) : Folder → Noted Contents
  | ⟨assets, folders⟩ =>
    assemble (assetsLabel kind) scope
      (assets.map (assetMember kind bundle) ++ folderMembers kind bundle scope folders)

def folderMembers (kind : AssetKind) (bundle scope : String) :
    List (String × Folder) → List Member
  | [] => []
  | (name, folder) :: rest =>
    .child name (folderContents kind bundle (scope ++ "/" ++ name) folder) ::
      folderMembers kind bundle scope rest

end

def assetEntries (kind : AssetKind) (assets : List Asset) : List (List String × MediaEntry) :=
  (assets.filter (·.kind == kind)).map fun asset => (asset.folders, ⟨asset.name, asset.fullName⟩)

def looseNames (files : List ImageFile) : List String :=
  (files.filterMap fun file => ImageName.base? file.fileName).eraseDups

def unsupportedImages (files : List ImageFile) : List Notice :=
  (files.filter fun file => (ImageName.base? file.fileName).isNone).map fun file =>
    .imageUnsupported file.fileName

def looseEntries (files : List ImageFile) : List (List String × MediaEntry) :=
  (looseNames files).map fun name => ([], ⟨name, name⟩)

def media (options : Options) (kind : AssetKind) (entries : List (List String × MediaEntry)) :
    Noted Contents :=
  folderContents kind options.bundleExpression kind.label (.ofEntries entries)

def images (options : Options) (assets : List Asset) (files : List ImageFile) : Noted Contents := do
  Noted.give (unsupportedImages files)
  media options .image (assetEntries .image assets ++ looseEntries files)

def colors (options : Options) (assets : List Asset) : Noted Contents :=
  media options .color (assetEntries .color assets)

def data (options : Options) (assets : List Asset) : Noted Contents :=
  media options .data (assetEntries .data assets)

end Accessors.Namespace

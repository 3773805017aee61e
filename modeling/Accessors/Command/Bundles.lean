import Accessors.Disk.Entry
import Accessors.FileName
import Accessors.Record.Resources

/-!
# Bundles below a directory

The bundles of a directory are its files with the extension `json`, at any depth. A directory is
gone through in the order of the names, and a directory in it at its place. Links below it are not
followed.
-/

namespace Accessors.Command

open Disk (Entry)
open Record (Resources)

inductive Found where
  | bundle (path : List String) (text : Option String)
  | sealed (path : List String)

def isBundleName (name : String) : Bool := (FileName.split name).2 == "json"

def inOrder (found : List (String × List Found)) : List Found :=
  (found.mergeSort fun a b => a.1 ≤ b.1).flatMap Prod.snd

mutual

def findAt (path : List String) : Entry → List Found
  | .file text => if path.getLast?.any isBundleName then [.bundle path text] else []
  | .directory entries => inOrder (findBelow path entries)
  | .sealed => [.sealed path]
  | .link _ => []
  | .device => []

def findBelow (path : List String) : List (String × Entry) → List (String × List Found)
  | [] => []
  | (name, entry) :: rest => (name, findAt (path ++ [name]) entry) :: findBelow path rest

end

def showPath (path : List String) : String :=
  ("/".intercalate path).map fun c => if c = '\\' then '/' else c

end Accessors.Command

import Accessors.Command.Generate

/-!
# The program

Reads what a run needs from the real disk, lets `produce` do the work, and writes what comes out.
-/

namespace Accessors.Command

open Disk (Tree)

def readText (path : String) : IO (Option String) := do
  try
    let bytes ← IO.FS.readBinFile path
    return String.fromUTF8? bytes
  catch _ => return none

partial def readTree (path : String) : IO Tree := do
  let place := (← IO.currentDir) / path
  match (← place.symlinkMetadata).type with
  | .file => return .file (← readText path)
  | .symlink => return .leaf (.link path)
  | .other => return .leaf .device
  | .dir =>
    try
      let entries ← (← place.readDir).toList.mapM fun entry => do
        return (entry.fileName, ← readTree (path ++ "/" ++ entry.fileName))
      return .directory entries
    catch _ => return .leaf .sealed

def readDirectory (path : String) : IO (Option Tree) := do
  try
    let place ← IO.FS.realPath path
    let tree ← readTree place.toString
    return if tree.entry.isDirectory then some tree else none
  catch _ => return none

def writeText (path text : String) : IO Bool := do
  try
    let parent := Disk.parentPath path
    if parent != "" then IO.FS.createDirAll parent
    IO.FS.writeFile path text
    return true
  catch _ => return false

def finish (outcome : Outcome) : IO UInt32 := do
  IO.eprint outcome.stderr
  IO.print outcome.stdout
  return outcome.exit.toUInt32

def run (request : Request) : IO UInt32 := do
  let config ← request.config.mapM fun path => return (path, ← readText path)
  let shown := Disk.shown (← IO.currentDir).toString request.resources
  let directory ← readDirectory shown
  match produce request.format config shown directory with
  | .error failure => finish (.failed [] failure)
  | .ok product =>
    match request.out with
    | none => finish (.printed product)
    | some path =>
      if ← writeText path product.text then finish (.saved product)
      else finish (.failed product.warnings (.outputUnwritable path))

def usage : String :=
  "usage: generate --resources DIR [--config FILE] [--out FILE] [--format json|outline]\n"

end Accessors.Command

def main (arguments : List String) : IO UInt32 :=
  match Accessors.Command.Request.ofArguments? arguments with
  | some request => Accessors.Command.run request
  | none => do
    IO.eprint Accessors.Command.usage
    return 2

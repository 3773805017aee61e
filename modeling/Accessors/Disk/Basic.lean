import Accessors.Disk.Tree

/-!
# Disks

A disk has a tree of entries and a working directory, the way to which is known and from which
relative paths start. Paths go through links, at most forty of them, and through the parent that two
dots name. Reading, listing and writing follow the links at the end of a path as well. Where a
directory cannot be made, some at the start of its way may have been.
-/

namespace Accessors

structure Disk where
  root : Disk.Tree
  working : List String
  workingPath : String

namespace Disk

def linkLimit : Nat := 40

def nameLimit : Nat := 255

def steps (path : String) : List String := (path.toList.splitOn '/').map String.ofList

def isAbsolute (path : String) : Bool := path.toList.head? == some '/'

inductive Place where
  | taken (path : List String)
  | free (path : List String)
  deriving DecidableEq, Repr

/-- Follows the steps from a directory. A step that is not the last one has to lead to a
directory. -/
def follow (root : Entry) (links : Nat) (here : List String) : List String → Option Place
  | [] => some (.taken here)
  | step :: rest =>
    match root.at? here with
    | some (.directory entries) =>
      if step = "" ∨ step = "." then follow root links here rest
      else if step = ".." then follow root links here.dropLast rest
      else if nameLimit < step.utf8ByteSize then none
      else
        match entries.lookup step with
        | some (.directory _) => follow root links (here ++ [step]) rest
        | some (.link target) =>
          if _h : links = 0 then none
          else follow root (links - 1) (if isAbsolute target then [] else here)
            (Disk.steps target ++ rest)
        | some _ => if rest.isEmpty then some (.taken (here ++ [step])) else none
        | none => if rest.isEmpty then some (.free (here ++ [step])) else none
    | _ => none
termination_by steps => (links, steps.length)
decreasing_by
  · exact Prod.Lex.right _ (Nat.lt_succ_self _)
  · exact Prod.Lex.right _ (Nat.lt_succ_self _)
  · exact Prod.Lex.right _ (Nat.lt_succ_self _)
  · exact Prod.Lex.left _ _ (by omega)

def start (disk : Disk) (path : String) : List String :=
  if isAbsolute path then [] else disk.working

def isPath (path : String) : Bool := path != "" && !path.toList.contains '\x00'

def locate (disk : Disk) (path : String) : Option Place :=
  if isPath path then follow disk.root.entry linkLimit (disk.start path) (steps path) else none

def tree? (disk : Disk) (path : String) : Option Tree :=
  match disk.locate path with
  | some (.taken place) => disk.root.below? place
  | _ => none

def read? (disk : Disk) (path : String) : Option String :=
  match (disk.tree? path).map Tree.entry with
  | some (.file text) => text
  | _ => none

def directory? (disk : Disk) (path : String) : Option Tree :=
  (disk.tree? path).filter fun tree => tree.entry.isDirectory

/-- Makes the directories on a way that are missing. The flag says whether all of them are there
afterwards. -/
def makeDirectories (root : Tree) (here : List String) : List String → Tree × Bool
  | [] => (root, true)
  | step :: rest =>
    match root.at? here with
    | some (.directory entries) =>
      if step = ".." then makeDirectories root here.dropLast rest
      else if nameLimit < step.utf8ByteSize then (root, false)
      else
        match entries.lookup step with
        | none =>
          match Entry.put (.directory []) (here ++ [step]) root with
          | some root => makeDirectories root (here ++ [step]) rest
          | none => (root, false)
        | some _ =>
          match follow root.entry linkLimit here [step] with
          | some (.taken place) => makeDirectories root place rest
          | _ => (root, false)
    | _ => (root, false)

def parentSteps (path : String) : List String :=
  ((steps path).filter fun step => step != "" && step != ".").dropLast

def parentPath (path : String) : String :=
  (if isAbsolute path then "/" else "") ++ "/".intercalate (parentSteps path)

def writablePlace? (disk : Disk) (path : String) : Option (List String) :=
  match disk.locate path with
  | some (.taken place) =>
    match disk.root.at? place with
    | some (.file _) => some place
    | _ => none
  | some (.free place) => some place
  | none => none

/-- Makes the directory of a path if it is missing, then puts a text there. The flag says whether
that could be done. -/
def write (disk : Disk) (path text : String) : Disk × Bool :=
  if isPath path then
    match makeDirectories disk.root (disk.start path) (parentSteps path) with
    | (root, false) => ({ disk with root }, false)
    | (root, true) =>
      let disk := { disk with root }
      match (disk.writablePlace? path).bind fun place =>
        Entry.put (.file (some text)) place root with
      | some root => ({ disk with root }, true)
      | none => (disk, false)
  else (disk, false)

def fromWorking (path : String) : String := if isAbsolute path then path else "./" ++ path

def shown (workingPath path : String) : String :=
  if isAbsolute path then path else workingPath ++ "/" ++ path

end Disk

end Accessors

import Accessors.Command.Arguments
import Accessors.Command.Bundles
import Accessors.Compile
import Accessors.Disk.Basic
import Accessors.Json.Writer
import Accessors.Symbol.Outline
import Accessors.Symbol.Schema
import Accessors.Text.Blank

/-!
# Generating accessors from a directory

The options are read first, then the bundles; then everything is compiled and the tree is written to
a file or printed. The first step that fails ends the run, with one error and nothing printed. The
notices of the compilation go to the error output as warnings.
-/

namespace Accessors.Command

open Disk (Tree)
open Record (Resources)
open Accessors.Symbol (Node)

inductive Failure where
  | configUnreadable (path : String)
  | configInvalid (path : String)
  | resourcesMissing (shown : String)
  | bundlesMissing (shown : String)
  | resourcesUnreadable (path : String)
  | bundleInvalid (path : String)
  | outputUnwritable (path : String)
  deriving DecidableEq, Repr

namespace Failure

def code : Failure → String
  | .configUnreadable _ => "CLI_CONFIG_READ"
  | .configInvalid _ => "CLI_CONFIG_INVALID"
  | .resourcesMissing _ => "CLI_RESOURCES_NOT_FOUND"
  | .bundlesMissing _ => "CLI_RESOURCES_NOT_FOUND"
  | .resourcesUnreadable _ => "CLI_RESOURCES_READ"
  | .bundleInvalid _ => "CLI_RESOURCES_INVALID"
  | .outputUnwritable _ => "CLI_OUTPUT_WRITE"

/-- What went wrong. Fixed texts stand in for the words of the operating system and of the reader of
JSON. -/
def message : Failure → String
  | .configUnreadable path => s!"{path} cannot be read as text"
  | .configInvalid path => s!"{path} does not hold options"
  | .resourcesMissing shown => s!"resources directory does not exist: {shown}"
  | .bundlesMissing shown => s!"No .json resource bundles under {shown}"
  | .resourcesUnreadable path => s!"{path} cannot be read as text"
  | .bundleInvalid path => s!"{path}: does not hold resources"
  | .outputUnwritable path => s!"{path} cannot be written"

def report (failure : Failure) : String := s!"error[{failure.code}]: {failure.message}\n"

end Failure

/-- The options of a run. `config` is the path of a configuration, with its text if it can be
read. -/
def loadOptions : Option (String × Option String) → Except Failure Options
  | none => .ok .default
  | some (path, none) => .error (.configUnreadable path)
  | some (path, some text) =>
    match Options.ofText? text with
    | some options => .ok options
    | none => .error (.configInvalid path)

def addFound (resources : Resources) : Found → Except Failure Resources
  | .sealed path => .error (.resourcesUnreadable (showPath path))
  | .bundle path none => .error (.resourcesUnreadable (showPath path))
  | .bundle path (some text) =>
    match Resources.ofText? text with
    | some bundle => .ok (resources ++ bundle)
    | none => .error (.bundleInvalid (showPath path))

def loadResources (shown : String) : Option Tree → Except Failure Resources
  | none => .error (.resourcesMissing shown)
  | some directory =>
    match findAt [] directory.entry with
    | [] => .error (.bundlesMissing shown)
    | found => found.foldlM addFound .empty

def render : OutputFormat → Node → String
  | .json, root => Json.pretty root.toJson
  | .outline, root => root.outline

def payload (format : OutputFormat) (root : Node) : String :=
  Text.trimEnd (render format root) ++ "\n"

structure Product where
  text : String
  warnings : List Notice

def produce (format : OutputFormat) (config : Option (String × Option String)) (shown : String)
    (directory : Option Tree) : Except Failure Product := do
  let options ← loadOptions config
  let resources ← loadResources shown directory
  let compiled := compile options resources
  return ⟨payload format compiled.value, compiled.notices⟩

structure Outcome where
  exit : Nat
  stdout : String
  warnings : List Notice
  failure : Option Failure

namespace Outcome

def failed (warnings : List Notice) (failure : Failure) : Outcome :=
  ⟨1, "", warnings, some failure⟩

def printed (product : Product) : Outcome := ⟨0, product.text, product.warnings, none⟩

def saved (product : Product) : Outcome := ⟨0, "", product.warnings, none⟩

def warning (notice : Notice) : String := s!"warning: {notice.message}\n"

def stderr (outcome : Outcome) : String :=
  String.join (outcome.warnings.map warning) ++ String.join (outcome.failure.toList.map
    Failure.report)

end Outcome

def generate (request : Request) (disk : Disk) : Outcome × Disk :=
  let config := request.config.map fun path => (path, disk.read? path)
  let shown := Disk.shown disk.workingPath request.resources
  let directory := disk.directory? (Disk.fromWorking request.resources)
  match produce request.format config shown directory with
  | .error failure => (.failed [] failure, disk)
  | .ok product =>
    match request.out with
    | none => (.printed product, disk)
    | some path =>
      match disk.write path product.text with
      | (disk, true) => (.saved product, disk)
      | (disk, false) => (.failed product.warnings (.outputUnwritable path), disk)

end Accessors.Command

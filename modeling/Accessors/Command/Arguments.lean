/-!
# Arguments of the command line

The one command is `generate`. Its options have a value each, behind an equals sign or as the next
argument, and are given at most once; the directory of the resources has to be given. A value that
stands as an argument of its own does not start with a dash, unless it is nothing but the dash. Two
dashes may end the arguments.
-/

namespace Accessors.Command

inductive OutputFormat where
  | json
  | outline
  deriving DecidableEq, Repr

structure Request where
  resources : String
  config : Option String
  out : Option String
  format : OutputFormat
  deriving DecidableEq, Repr

structure Given where
  resources : Option String
  config : Option String
  out : Option String
  format : Option OutputFormat

def OutputFormat.ofWord? : String → Option OutputFormat
  | "json" => some .json
  | "outline" => some .outline
  | _ => none

def once {α : Type} (held : Option α) (value : α) : Option (Option α) :=
  match held with
  | none => some (some value)
  | some _ => none

def Given.set (given : Given) (name value : String) : Option Given :=
  match name with
  | "--resources" => do
    let resources ← once given.resources value
    return { given with resources }
  | "--config" => do
    let config ← once given.config value
    return { given with config }
  | "--out" => do
    let out ← once given.out value
    return { given with out }
  | "--format" => do
    let format ← OutputFormat.ofWord? value
    let format ← once given.format format
    return { given with format }
  | _ => none

def assignment? (argument : String) : Option (String × String) :=
  let cs := argument.toList
  match cs.dropWhile (· != '=') with
  | _ :: value => some (String.ofList (cs.takeWhile (· != '=')), String.ofList value)
  | [] => none

def isValue (argument : String) : Bool :=
  argument == "-" || argument.toList.head? != some '-'

def readOptions (given : Given) : List String → Option Given
  | [] => some given
  | ["--"] => some given
  | argument :: rest =>
    match assignment? argument, rest with
    | some (name, value), rest => (given.set name value).bind (readOptions · rest)
    | none, value :: rest =>
      if isValue value then (given.set argument value).bind (readOptions · rest) else none
    | none, [] => none

def Given.request? (given : Given) : Option Request := do
  let resources ← given.resources
  return ⟨resources, given.config, given.out, given.format.getD .json⟩

def Request.ofArguments? : List String → Option Request
  | "generate" :: options => (readOptions ⟨none, none, none, none⟩ options).bind Given.request?
  | _ => none

end Accessors.Command

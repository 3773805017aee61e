/-!
# File names

The name of a file is what follows the last slash of its path. It splits at its last dot into a stem
and an extension; a name without a dot, or with one only at its start, is all stem.
-/

namespace Accessors.FileName

/-- What follows the last character of the list that satisfies `p`, and what stands before it;
`none` if there is no such character. -/
def splitLast? (p : Char → Bool) : List Char → Option (List Char × List Char)
  | [] => none
  | c :: rest =>
    match splitLast? p rest with
    | some (before, after) => some (c :: before, after)
    | none => if p c then some ([], rest) else none

def ofPath (path : String) : String :=
  match splitLast? (· == '/') path.toList with
  | some (_, after) => String.ofList after
  | none => path

def split (name : String) : String × String :=
  match splitLast? (· == '.') name.toList with
  | some (c :: before, after) => (String.ofList (c :: before), String.ofList after)
  | _ => (name, "")

example : ofPath "Resources/seed.json" = "seed.json" ∧
    split "archive.tar.gz" = ("archive.tar", "gz") ∧ split ".env" = (".env", "") := by decide

end Accessors.FileName

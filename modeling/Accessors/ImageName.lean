/-!
# Names of image files

The file of an image may have a scale, `@2x`, and a device, `~ipad`, before its extension. The base
name is the shortest beginning of the file name, on one line and not empty, whose remainder is such
an ending.
-/

namespace Accessors.ImageName

def devices : List (List Char) :=
  [['i', 'p', 'h', 'o', 'n', 'e'], ['i', 'p', 'a', 'd'], ['m', 'a', 'c'], ['t', 'v'],
    ['w', 'a', 't', 'c', 'h']]

def extensions : List (List Char) :=
  [['p', 'n', 'g'], ['j', 'p', 'g'], ['j', 'p', 'e', 'g'], ['g', 'i', 'f'], ['b', 'm', 'p'],
    ['t', 'i', 'f'], ['t', 'i', 'f', 'f'], ['h', 'e', 'i', 'c'], ['p', 'd', 'f'], ['i', 'c', 'o'],
    ['c', 'u', 'r'], ['x', 'b', 'm']]

/-- Letters are compared without case; no letter beyond ASCII equals one of these. -/
def lowercase (cs : List Char) : List Char := cs.map Char.toLower

def dropScale : List Char → List Char
  | '@' :: d :: rest =>
    match d.isDigit, rest.dropWhile Char.isDigit with
    | true, x :: behind => if x == 'x' || x == 'X' then behind else '@' :: d :: rest
    | _, _ => '@' :: d :: rest
  | cs => cs

def dropDevice : List Char → List Char
  | '~' :: rest =>
    match devices.find? fun device => device.isPrefixOf (lowercase rest) with
    | some device => rest.drop device.length
    | none => '~' :: rest
  | cs => cs

def isEnding (cs : List Char) : Bool :=
  match dropDevice (dropScale cs) with
  | '.' :: rest => extensions.contains (lowercase rest)
  | _ => false

def beforeEnding? : List Char → Option (List Char)
  | [] => none
  | c :: rest =>
    if isEnding (c :: rest) then some []
    else if c = '\n' then none
    else (beforeEnding? rest).map (c :: ·)

def baseChars? : List Char → Option (List Char)
  | [] => none
  | c :: rest => if c = '\n' then none else (beforeEnding? rest).map (c :: ·)

def base? (fileName : String) : Option String := (baseChars? fileName.toList).map String.ofList

example : base? "icon@3x~ipad.PNG" = some "icon" ∧ base? "@2x.png" = some "@2x" ∧
    base? "notes.txt" = none := by decide

end Accessors.ImageName

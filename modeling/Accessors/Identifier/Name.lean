import Accessors.Text.LetterCase
import Accessors.Text.Letters

/-!
# Identifiers from names

A name of a resource becomes an identifier. Only letters, numerals and underscores are kept, and the
first character after a gap is put in upper case. A leading run of upper case letters is put in
lower case, but for its last letter if a lower case letter follows. An identifier that would start
with a numeral gets an underscore in front, one that would be a keyword gets an underscore behind.
A name without any letter, numeral or underscore has no identifier.
-/

namespace Accessors.Identifier

def keywords : List String := [
  "Any", "Protocol", "Self", "Type", "as", "associatedtype", "break", "case", "catch", "class",
  "continue", "default", "defer", "deinit", "do", "else", "enum", "extension", "fallthrough",
  "false", "fileprivate", "for", "func", "guard", "if", "import", "in", "init", "inout", "internal",
  "is", "let", "nil", "open", "operator", "private", "precedencegroup", "protocol", "public",
  "repeat", "rethrows", "return", "self", "some", "static", "struct", "subscript", "super",
  "switch", "throw", "throws", "true", "try", "typealias", "var", "where", "while"]

def isKept (c : Char) : Bool := Text.isAlphanumeric c || c == '_'

/-- The kept characters. `gap` says that the last character was dropped. -/
def joinFrom (gap : Bool) : List Char → List Char
  | [] => []
  | c :: rest =>
    if isKept c then (if gap then Text.toUpper c else [c]) ++ joinFrom false rest
    else joinFrom true rest

def join (cs : List Char) : List Char := joinFrom false (cs.dropWhile (! isKept ·))

/-- How many characters of the leading run of upper case letters go to lower case. -/
def lowered (cs : List Char) : Nat :=
  let run := (cs.takeWhile Text.isUpper).length
  if run ≤ 1 then run
  else
    match cs[run]? with
    | none => run
    | some next => if Text.isLower next then run - 1 else run

def lowerLeading (cs : List Char) : List Char :=
  (cs.take (lowered cs)).flatMap Text.toLower ++ cs.drop (lowered cs)

def guardNumeral : List Char → List Char
  | [] => []
  | c :: rest => if Text.isNumeral c then '_' :: c :: rest else c :: rest

def guardKeyword (cs : List Char) : List Char :=
  if keywords.contains (String.ofList cs) then cs ++ ['_'] else cs

def ofChars (cs : List Char) : List Char := guardKeyword (guardNumeral (lowerLeading (join cs)))

def ofName (name : String) : String := String.ofList (ofChars name.toList)

example : ofName "my-image" = "myImage" ∧ ofName "URLString" = "urlString" ∧
    ofName "2x" = "_2x" ∧ ofName "Self" = "self_" ∧ ofName "-.-" = "" := by decide +kernel

end Accessors.Identifier

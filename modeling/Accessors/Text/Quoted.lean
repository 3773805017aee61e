import Accessors.Text.Listed

/-!
# Quoted text

A quoted text stands between double quotes. Inside, the quote and the backslash are escaped by a
backslash, and so are line feed, carriage return and tab; every other character stands for itself.
-/

namespace Accessors.Text

def escape : Char → List Char
  | '"' => ['\\', '"']
  | '\\' => ['\\', '\\']
  | '\n' => ['\\', 'n']
  | '\r' => ['\\', 'r']
  | '\t' => ['\\', 't']
  | c => [c]

def quoteChars (cs : List Char) : List Char := '"' :: (cs.flatMap escape ++ ['"'])

def quote (s : String) : String := String.ofList (quoteChars s.toList)

def quoteList (values : List String) : String := "[" ++ listed (values.map quote) ++ "]"

theorem toList_quote (s : String) : (quote s).toList = quoteChars s.toList := by
  simp [quote]

example : quote "Hi \"you\"\n" = "\"Hi \\\"you\\\"\\n\"" := by decide

end Accessors.Text

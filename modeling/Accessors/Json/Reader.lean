import Accessors.Json.Token

/-!
# Reading JSON

The reader takes one token at a time and keeps the containers that are open on a stack, so values
may nest to any depth.
-/

namespace Accessors.Json

/-- A container that waits for the value under way, with what it holds so far, last first. -/
inductive Frame where
  | array (reversed : List Json)
  | member (reversed : List (Option String × Json)) (name : Option String)

inductive Reading where
  | value (stack : List Frame)
  | firstItem (stack : List Frame)
  | firstKey (stack : List Frame)
  | nextKey (stack : List Frame) (reversed : List (Option String × Json))
  | colon (stack : List Frame) (reversed : List (Option String × Json))
      (name : Option String)
  | afterItem (stack : List Frame) (reversed : List Json)
  | afterMember (stack : List Frame) (reversed : List (Option String × Json))
  | whole (value : Json)

def Reading.deliver (value : Json) : List Frame → Reading
  | [] => .whole value
  | .array items :: stack => .afterItem stack (value :: items)
  | .member members name :: stack => .afterMember stack ((name, value) :: members)

def Reading.stepValue (stack : List Frame) : Token → Option Reading
  | .openArray => some (.firstItem stack)
  | .openObject => some (.firstKey stack)
  | .null => some (deliver .null stack)
  | .bool b => some (deliver (.bool b) stack)
  | .number literal => some (deliver (.number literal) stack)
  | .text content => some (deliver (.string content) stack)
  | _ => none

def Reading.step : Reading → Token → Option Reading
  | .value stack, token => stepValue stack token
  | .firstItem stack, .closeArray => some (deliver (.array []) stack)
  | .firstItem stack, token => stepValue (.array [] :: stack) token
  | .firstKey stack, .closeObject => some (deliver (.object []) stack)
  | .firstKey stack, .text name => some (.colon stack [] name)
  | .nextKey stack members, .text name => some (.colon stack members name)
  | .colon stack members name, .colon => some (.value (.member members name :: stack))
  | .afterItem stack items, .comma => some (.value (.array items :: stack))
  | .afterItem stack items, .closeArray => some (deliver (.array items.reverse) stack)
  | .afterMember stack members, .comma => some (.nextKey stack members)
  | .afterMember stack members, .closeObject => some (deliver (.object members.reverse) stack)
  | _, _ => none

def ofTokens (tokens : List Token) : Option Json :=
  match tokens.foldlM Reading.step (.value []) with
  | some (.whole value) => some value
  | _ => none

def read (s : String) : Option Json := (lex s.toList).bind ofTokens

end Accessors.Json

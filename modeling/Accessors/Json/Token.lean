import Accessors.Json.Basic

/-!
# Tokens of a JSON text

The lexer takes one character at a time. Between tokens it skips blanks; a word runs up to the next
character that belongs to no word and is then read as a literal or a number; a text collects its
characters, with escapes resolved, up to the closing quote. It refuses control characters and
unknown escapes inside a text, and words that are neither literal nor number.
-/

namespace Accessors.Json

inductive Token where
  | openArray
  | closeArray
  | openObject
  | closeObject
  | comma
  | colon
  | null
  | bool (value : Bool)
  | number (literal : String)
  | text (content : Option String)
  deriving DecidableEq

def isWordChar (c : Char) : Bool :=
  c.isDigit || ('a' ≤ c && c ≤ 'z') || ('A' ≤ c && c ≤ 'Z') || c == '-' || c == '+' || c == '.'

def isExponent : List Char → Bool
  | [] => true
  | e :: rest =>
    (e == 'e' || e == 'E') &&
      match rest with
      | '+' :: digits | '-' :: digits => !digits.isEmpty && digits.all Char.isDigit
      | digits => !digits.isEmpty && digits.all Char.isDigit

def isFraction : List Char → Bool
  | '.' :: d :: rest => d.isDigit && isExponent (rest.dropWhile Char.isDigit)
  | rest => isExponent rest

def isUnsignedNumber : List Char → Bool
  | '0' :: rest => isFraction rest
  | d :: rest => d.isDigit && isFraction (rest.dropWhile Char.isDigit)
  | [] => false

def isNumber : List Char → Bool
  | '-' :: rest => isUnsignedNumber rest
  | cs => isUnsignedNumber cs

def Token.ofWord? (word : List Char) : Option Token :=
  if word = ['n', 'u', 'l', 'l'] then some .null
  else if word = ['t', 'r', 'u', 'e'] then some (.bool true)
  else if word = ['f', 'a', 'l', 's', 'e'] then some (.bool false)
  else if isNumber word then some (.number (String.ofList word))
  else none

def isHighSurrogate (n : Nat) : Bool := 0xD800 ≤ n && n < 0xDC00

def isLowSurrogate (n : Nat) : Bool := 0xDC00 ≤ n && n < 0xE000

def joinSurrogates (high low : Nat) : Nat := 0x10000 + (high - 0xD800) * 0x400 + (low - 0xDC00)

inductive Draft where
  | sound (reversed : List Char)
  | half (reversed : List Char) (high : Nat)
  | broken

def Draft.add (n : Nat) : Draft → Draft
  | .sound cs =>
    if isHighSurrogate n then .half cs n
    else if isLowSurrogate n then .broken
    else .sound (Char.ofNat n :: cs)
  | .half cs high =>
    if isLowSurrogate n then .sound (Char.ofNat (joinSurrogates high n) :: cs) else .broken
  | .broken => .broken

def Draft.content : Draft → Option String
  | .sound cs => some (String.ofList cs.reverse)
  | .half _ _ => none
  | .broken => none

def hexDigit? (c : Char) : Option Nat :=
  if '0' ≤ c ∧ c ≤ '9' then some (c.toNat - '0'.toNat)
  else if 'a' ≤ c ∧ c ≤ 'f' then some (c.toNat - 'a'.toNat + 10)
  else if 'A' ≤ c ∧ c ≤ 'F' then some (c.toNat - 'A'.toNat + 10)
  else none

def shortEscape? : Char → Option Nat
  | '"' => some 0x22
  | '\\' => some 0x5C
  | '/' => some 0x2F
  | 'b' => some 0x08
  | 'f' => some 0x0C
  | 'n' => some 0x0A
  | 'r' => some 0x0D
  | 't' => some 0x09
  | _ => none

/-- Where the lexer stands. `code` has read some digits of a numeric escape and waits for as many
more as `left` says. -/
inductive Mode where
  | between
  | word (reversed : List Char)
  | text (draft : Draft)
  | escape (draft : Draft)
  | code (draft : Draft) (left value : Nat)

def isBlank (c : Char) : Bool := c == ' ' || c == '\t' || c == '\n' || c == '\r'

def Token.ofPunctuation? : Char → Option Token
  | '[' => some .openArray
  | ']' => some .closeArray
  | '{' => some .openObject
  | '}' => some .closeObject
  | ',' => some .comma
  | ':' => some .colon
  | _ => none

def enter (c : Char) : Option (Mode × List Token) :=
  if isBlank c then some (.between, [])
  else if c = '"' then some (.text (.sound []), [])
  else if isWordChar c then some (.word [c], [])
  else (Token.ofPunctuation? c).map fun token => (.between, [token])

def Mode.step : Mode → Char → Option (Mode × List Token)
  | .between, c => enter c
  | .word w, c =>
    if isWordChar c then some (.word (c :: w), [])
    else do
      let token ← Token.ofWord? w.reverse
      let (mode, tokens) ← enter c
      return (mode, token :: tokens)
  | .text draft, c =>
    if c = '"' then some (.between, [.text draft.content])
    else if c = '\\' then some (.escape draft, [])
    else if c.toNat < 0x20 then none
    else some (.text (draft.add c.toNat), [])
  | .escape draft, c =>
    if c = 'u' then some (.code draft 3 0, [])
    else (shortEscape? c).map fun n => (.text (draft.add n), [])
  | .code draft left value, c => do
    let digit ← hexDigit? c
    match left with
    | 0 => return (.text (draft.add (16 * value + digit)), [])
    | left + 1 => return (.code draft left (16 * value + digit), [])

def Mode.finish : Mode → Option (List Token)
  | .between => some []
  | .word w => (Token.ofWord? w.reverse).map ([·])
  | _ => none

structure Lexing where
  mode : Mode
  reversed : List Token

def Lexing.step (s : Lexing) (c : Char) : Option Lexing := do
  let (mode, tokens) ← s.mode.step c
  return ⟨mode, tokens.reverse ++ s.reversed⟩

def Lexing.finish (s : Lexing) : Option (List Token) := do
  let tokens ← s.mode.finish
  return (tokens.reverse ++ s.reversed).reverse

def lex (cs : List Char) : Option (List Token) := do
  let s ← cs.foldlM Lexing.step ⟨.between, []⟩
  s.finish

end Accessors.Json

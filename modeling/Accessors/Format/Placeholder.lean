import Accessors.Format.Specifier

/-!
# Placeholders

A placeholder starts with a percent sign. It is a second percent sign, which stands for the sign
itself; a reference to a plural rule, `#@name@`; or a conversion: flags, a width, a precision and a
length, each optional, and the letter that says what is converted. A reference and a conversion may
name the position of their argument first, `N$`. A percent sign that starts none of these is
literal text. Text is scanned from the left; what follows a placeholder is scanned anew.
-/

namespace Accessors.Format

inductive Placeholder where
  | percent
  | reference (position : Option Nat) (name : String)
  | conversion (position : Option Nat) (letter : Char)
  deriving DecidableEq, Repr

namespace Placeholder

def positionLimit : Nat := 0xFFFFFFFFFFFFFFFF

def decimal (digits : List Char) : Nat :=
  digits.foldl (fun n d => 10 * n + (d.toNat - '0'.toNat)) 0

def isPositiveDigit (c : Char) : Bool := c.isDigit && c != '0'

/-- A position has no leading zero and ends with a dollar sign. -/
def splitPosition (cs : List Char) : Option Nat × List Char :=
  match cs.head?.any isPositiveDigit, cs.dropWhile Char.isDigit with
  | true, '$' :: rest => (some (min (decimal (cs.takeWhile Char.isDigit)) positionLimit), rest)
  | _, _ => (none, cs)

def splitReference? : List Char → Option (String × List Char)
  | '#' :: '@' :: rest =>
    match rest.takeWhile (· != '@'), rest.dropWhile (· != '@') with
    | c :: name, '@' :: rest => some (String.ofList (c :: name), rest)
    | _, _ => none
  | _ => none

def isFlag (c : Char) : Bool := ['-', '+', ' ', '#', '0', '\x27'].contains c

def dropWidth : List Char → List Char
  | '*' :: rest => rest
  | cs => cs.dropWhile Char.isDigit

def dropPrecision : List Char → List Char
  | '.' :: '*' :: rest => rest
  | '.' :: d :: rest => if d.isDigit then rest.dropWhile Char.isDigit else '.' :: d :: rest
  | cs => cs

def dropLength : List Char → List Char
  | 'h' :: 'h' :: rest => rest
  | 'l' :: 'l' :: rest => rest
  | c :: rest => if ['h', 'l', 'q', 'z', 't', 'j', 'L'].contains c then rest else c :: rest
  | [] => []

def letters : List Char :=
  ['@', 'a', 'A', 'e', 'E', 'f', 'F', 'g', 'G', 'd', 'D', 'i', 'I', 'o', 'O', 'u', 'U', 'x', 'X',
    'c', 'C', 's', 'S', 'p']

def splitConversion? (cs : List Char) : Option (Char × List Char) :=
  match dropLength (dropPrecision (dropWidth (cs.dropWhile isFlag))) with
  | c :: rest => if letters.contains c then some (c, rest) else none
  | [] => none

def split? (cs : List Char) : Option (Placeholder × List Char) :=
  match cs with
  | '%' :: rest => some (.percent, rest)
  | _ =>
    match splitReference? (splitPosition cs).2 with
    | some (name, rest) => some (.reference (splitPosition cs).1 name, rest)
    | none => (splitConversion? (splitPosition cs).2).map fun found =>
      (.conversion (splitPosition cs).1 found.1, found.2)

theorem length_splitPosition_le (cs : List Char) : (splitPosition cs).2.length ≤ cs.length := by
  unfold splitPosition
  split
  · next h =>
    have := (List.dropWhile_suffix (l := cs) Char.isDigit).length_le
    rw [h, List.length_cons] at this
    exact Nat.le_of_succ_le this
  · exact Nat.le_refl _

theorem length_splitReference?_le {cs rest : List Char} {name : String}
    (h : splitReference? cs = some (name, rest)) : rest.length ≤ cs.length := by
  unfold splitReference? at h
  split at h
  · next cs =>
    split at h
    · next hd =>
      have := (List.dropWhile_suffix (l := cs) (· != '@')).length_le
      simp only [Option.some.injEq, Prod.mk.injEq] at h
      rw [hd, h.2, List.length_cons] at this
      simp only [List.length_cons]
      omega
    · cases h
  · cases h

theorem length_dropWidth_le (cs : List Char) : (dropWidth cs).length ≤ cs.length := by
  unfold dropWidth
  split
  · simp
  · exact (List.dropWhile_suffix _).length_le

theorem length_dropPrecision_le (cs : List Char) : (dropPrecision cs).length ≤ cs.length := by
  unfold dropPrecision
  split
  · simp only [List.length_cons]; omega
  · split
    · next rest _ _ =>
      have := (List.dropWhile_suffix (l := rest) Char.isDigit).length_le
      simp only [List.length_cons]
      omega
    · exact Nat.le_refl _
  · exact Nat.le_refl _

theorem length_dropLength_le (cs : List Char) : (dropLength cs).length ≤ cs.length := by
  unfold dropLength
  split
  · simp only [List.length_cons]; omega
  · simp only [List.length_cons]; omega
  · split
    · simp
    · exact Nat.le_refl _
  · exact Nat.le_refl _

theorem length_splitConversion?_le {cs rest : List Char} {letter : Char}
    (h : splitConversion? cs = some (letter, rest)) : rest.length ≤ cs.length := by
  unfold splitConversion? at h
  split at h
  · next hd =>
    have h₁ := length_dropLength_le (dropPrecision (dropWidth (cs.dropWhile isFlag)))
    have h₂ := length_dropPrecision_le (dropWidth (cs.dropWhile isFlag))
    have h₃ := length_dropWidth_le (cs.dropWhile isFlag)
    have h₄ := (List.dropWhile_suffix (l := cs) isFlag).length_le
    split at h
    · simp only [Option.some.injEq, Prod.mk.injEq] at h
      rw [hd, h.2, List.length_cons] at h₁
      omega
    · cases h
  · cases h

theorem length_split?_le {cs rest : List Char} {placeholder : Placeholder}
    (h : split? cs = some (placeholder, rest)) : rest.length ≤ cs.length := by
  unfold split? at h
  split at h
  · simp only [Option.some.injEq, Prod.mk.injEq] at h
    simp [← h.2]
  · have hp := length_splitPosition_le cs
    split at h
    · next hr =>
      simp only [Option.some.injEq, Prod.mk.injEq] at h
      have := length_splitReference?_le hr
      rw [h.2] at this
      omega
    · obtain ⟨⟨letter, behind⟩, hc, he⟩ := Option.map_eq_some_iff.mp h
      simp only [Prod.mk.injEq] at he
      have := length_splitConversion?_le hc
      rw [he.2] at this
      omega

def scan (cs : List Char) : List Placeholder :=
  match cs with
  | [] => []
  | c :: rest =>
    if c = '%' then
      match _h : split? rest with
      | some (placeholder, behind) => placeholder :: scan behind
      | none => scan rest
    else scan rest
termination_by cs.length
decreasing_by
  · exact Nat.lt_succ_of_le (length_split?_le _h)
  · exact Nat.lt_succ_self _
  · exact Nat.lt_succ_self _

end Placeholder

inductive Part where
  | specifier (position : Option Nat) (specifier : Specifier)
  | reference (position : Option Nat) (name : String)
  deriving DecidableEq, Repr

def Placeholder.part? : Placeholder → Option Part
  | .percent => none
  | .reference position name => some (.reference position name)
  | .conversion position letter => (Specifier.ofConversion? letter).map (.specifier position)

def parts (s : String) : List Part := (Placeholder.scan s.toList).filterMap Placeholder.part?

end Accessors.Format

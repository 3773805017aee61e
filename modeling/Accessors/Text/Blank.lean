import Accessors.Text.CharSet

/-!
# Blank characters

The code points with the property White_Space in Unicode 17.0, and texts cut off after their last
character that is not blank.
-/

namespace Accessors.Text

/-- Code points with the property White_Space. -/
def blankRanges : List (Nat × Nat) := [
  (0x9, 0xD), (0x20, 0x20), (0x85, 0x85), (0xA0, 0xA0), (0x1680, 0x1680), (0x2000, 0x200A),
  (0x2028, 0x2029), (0x202F, 0x202F), (0x205F, 0x205F), (0x3000, 0x3000)]

def isBlank (c : Char) : Bool := within blankRanges c.toNat

def trimEnd (s : String) : String := String.ofList (s.toList.reverse.dropWhile isBlank).reverse

example : isBlank '\u0085' ∧ isBlank '\u3000' ∧ ¬ isBlank '\u200b' := by decide

end Accessors.Text

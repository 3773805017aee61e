/-!
# Sets of code points

A set is written as its stretches in increasing order. A stretch of a grid names a step as well,
for the alphabets in which every other code point belongs.
-/

namespace Accessors.Text

def within : List (Nat × Nat) → Nat → Bool
  | [], _ => false
  | (first, last) :: rest, n =>
    if n < first then false else if n ≤ last then true else within rest n

def onGrid : List (Nat × Nat × Nat) → Nat → Bool
  | [], _ => false
  | (first, last, step) :: rest, n =>
    if n < first then false
    else if n ≤ last then (n - first) % step == 0
    else onGrid rest n

end Accessors.Text

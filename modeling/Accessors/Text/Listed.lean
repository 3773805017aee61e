/-!
# Lists in a text

Items are listed with a comma and a blank between them; the names on a path with a dot.
-/

namespace Accessors

def listed (items : List String) : String := ", ".intercalate items

def dotted (path : List String) : String := ".".intercalate path

end Accessors

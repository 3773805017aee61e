import Accessors.Identifier.Name
import Accessors.Keys
import Accessors.Noted

/-!
# Grouping by identifier

Items whose names share an identifier would be generated under one symbol. Grouping keeps the items
that have an identifier to themselves, in the order of the identifiers, and sets aside the names
that clash and those without an identifier.
-/

namespace Accessors.Identifier

variable {α : Type}

structure Named (α : Type) where
  identifier : String
  rawKey : String
  item : α
  deriving Repr

/-- The items that have their identifier to themselves, in the order of the identifiers; the names
that share one, in order; and the names without one, in the order of the items. -/
structure Grouping (α : Type) where
  uniques : List (Named α)
  duplicates : List (String × List String)
  empties : List String

def name (key : α → String) (item : α) : Named α := ⟨ofName (key item), key item, item⟩

def unique? : String × List (Named α) → Option (Named α)
  | (_, [named]) => some named
  | _ => none

def duplicate? : String × List (Named α) → Option (String × List String)
  | (_, [_]) => none
  | (identifier, bucket) => some (identifier, (bucket.map Named.rawKey).mergeSort)

def group (key : α → String) (items : List α) : Grouping α :=
  let named := items.map (name key)
  let sorted := buckets Named.identifier (named.filter (·.identifier != ""))
  { uniques := sorted.filterMap unique?
    duplicates := sorted.filterMap duplicate?
    empties := (named.filter (·.identifier == "")).map Named.rawKey }

def Grouping.notices (what scope : String) (grouping : Grouping α) : List Notice :=
  grouping.duplicates.map (fun (identifier, rawKeys) =>
    .identifierCollision what scope identifier rawKeys) ++
  grouping.empties.map (.identifierEmpty what scope)

def uniques (what scope : String) (key : α → String) (items : List α) : Noted (List (Named α)) :=
  let grouping := group key items
  ⟨grouping.uniques, grouping.notices what scope⟩

end Accessors.Identifier

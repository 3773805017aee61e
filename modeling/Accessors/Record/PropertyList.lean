import Accessors.Json.Decoder

/-!
# Property lists

A property list value is a flag, a text, an array or a dictionary. Dictionaries inside values list
their entries in increasing order of the keys; `PlistValue.Ordered` says so at every depth, and the
root of a property list carries the proof. A property list belongs to a build configuration.
-/

namespace Accessors.Record

inductive PlistValue where
  | bool (flag : Bool)
  | string (text : String)
  | array (items : List PlistValue)
  | dictionary (entries : List (String × PlistValue))
  deriving Repr

abbrev PlistEntries := List (String × PlistValue)

namespace PlistValue

mutual

def decEq : (a b : PlistValue) → Decidable (a = b)
  | .bool a, .bool b => decidable_of_iff (a = b) (by simp)
  | .string a, .string b => decidable_of_iff (a = b) (by simp)
  | .array as, .array bs =>
    match decEqItems as bs with
    | isTrue h => isTrue (h ▸ rfl)
    | isFalse h => isFalse fun e => h (PlistValue.array.inj e)
  | .dictionary as, .dictionary bs =>
    match decEqEntries as bs with
    | isTrue h => isTrue (h ▸ rfl)
    | isFalse h => isFalse fun e => h (PlistValue.dictionary.inj e)
  | .bool _, .string _ => isFalse nofun
  | .bool _, .array _ => isFalse nofun
  | .bool _, .dictionary _ => isFalse nofun
  | .string _, .bool _ => isFalse nofun
  | .string _, .array _ => isFalse nofun
  | .string _, .dictionary _ => isFalse nofun
  | .array _, .bool _ => isFalse nofun
  | .array _, .string _ => isFalse nofun
  | .array _, .dictionary _ => isFalse nofun
  | .dictionary _, .bool _ => isFalse nofun
  | .dictionary _, .string _ => isFalse nofun
  | .dictionary _, .array _ => isFalse nofun

def decEqItems : (as bs : List PlistValue) → Decidable (as = bs)
  | [], [] => isTrue rfl
  | [], _ :: _ => isFalse nofun
  | _ :: _, [] => isFalse nofun
  | a :: as, b :: bs =>
    match decEq a b, decEqItems as bs with
    | isTrue ha, isTrue hs => isTrue (ha ▸ hs ▸ rfl)
    | isFalse ha, _ => isFalse fun e => ha (List.cons.inj e).1
    | _, isFalse hs => isFalse fun e => hs (List.cons.inj e).2

def decEqEntries : (as bs : PlistEntries) → Decidable (as = bs)
  | [], [] => isTrue rfl
  | [], _ :: _ => isFalse nofun
  | _ :: _, [] => isFalse nofun
  | (j, a) :: as, (k, b) :: bs =>
    match decEq a b, decEqEntries as bs, String.decEq j k with
    | isTrue ha, isTrue hs, isTrue hk => isTrue (ha ▸ hs ▸ hk ▸ rfl)
    | isFalse ha, _, _ => isFalse fun e => ha (Prod.mk.inj (List.cons.inj e).1).2
    | _, isFalse hs, _ => isFalse fun e => hs (List.cons.inj e).2
    | _, _, isFalse hk => isFalse fun e => hk (Prod.mk.inj (List.cons.inj e).1).1

end

instance : DecidableEq PlistValue := decEq

def string? : PlistValue → Option String
  | .string text => some text
  | _ => none

def entries? : PlistValue → Option PlistEntries
  | .dictionary entries => some entries
  | _ => none

def typeLabel : PlistValue → String
  | .bool _ => "boolean"
  | .string _ => "string"
  | .array _ => "array"
  | .dictionary _ => "dictionary"

mutual

def Ordered : PlistValue → Prop
  | .bool _ => True
  | .string _ => True
  | .array items => OrderedItems items
  | .dictionary entries => Increasing (entries.map Prod.fst) ∧ OrderedEntries entries

def OrderedItems : List PlistValue → Prop
  | [] => True
  | item :: rest => item.Ordered ∧ OrderedItems rest

def OrderedEntries : PlistEntries → Prop
  | [] => True
  | (_, value) :: rest => value.Ordered ∧ OrderedEntries rest

end

theorem orderedItems_iff {items : List PlistValue} :
    OrderedItems items ↔ ∀ item ∈ items, item.Ordered := by
  induction items with
  | nil => simp [OrderedItems]
  | cons item rest ih => simp [OrderedItems, ih]

theorem orderedEntries_iff {entries : PlistEntries} :
    OrderedEntries entries ↔ ∀ entry ∈ entries, entry.2.Ordered := by
  induction entries with
  | nil => simp [OrderedEntries]
  | cons entry rest ih => simp [OrderedEntries, ih]

end PlistValue

abbrev OrderedPlist := { value : PlistValue // value.Ordered }

structure PlistRoot where
  entries : PlistEntries
  ordered : (PlistValue.dictionary entries).Ordered

instance : DecidableEq PlistRoot := fun a b =>
  decidable_of_iff (a.entries = b.entries)
    ⟨fun h => by cases a; cases b; cases h; rfl, fun h => h ▸ rfl⟩

def PlistRoot.empty : PlistRoot := ⟨[], List.Pairwise.nil, trivial⟩

structure PropertyList where
  name : String
  configuration : String
  root : PlistRoot
  deriving DecidableEq

open Json

namespace PlistValue

def ofJson : Nat → Json → Option OrderedPlist
  | _, .bool flag => some ⟨.bool flag, trivial⟩
  | _, .string (some text) => some ⟨.string text, trivial⟩
  | room + 1, .array items =>
    (items.mapM (ofJson room)).map fun values => ⟨.array (values.map Subtype.val),
      orderedItems_iff.mpr fun _ h => by
        obtain ⟨value, _, rfl⟩ := List.mem_map.mp h
        exact value.property⟩
  | room + 1, .object members =>
    (members.mapM (member? (ofJson room))).map fun pairs =>
      ⟨.dictionary (collectEntries (pairs.map fun pair => (pair.1, pair.2.val))),
        increasing_keys_collectEntries _,
        orderedEntries_iff.mpr fun _ h => by
          obtain ⟨pair, _, rfl⟩ := List.mem_map.mp (mem_collectEntries h)
          exact pair.2.property⟩
  | _, _ => none

mutual

def toJson : PlistValue → Json
  | .bool flag => .bool flag
  | .string s => text s
  | .array items => .array (toJsonItems items)
  | .dictionary entries => .object (toJsonEntries entries)

def toJsonItems : List PlistValue → List Json
  | [] => []
  | item :: rest => item.toJson :: toJsonItems rest

def toJsonEntries : PlistEntries → List (Option String × Json)
  | [] => []
  | (key, value) :: rest => (some key, value.toJson) :: toJsonEntries rest

end

end PlistValue

def PlistRoot.ofJson : Decoder PlistRoot := fun room j =>
  match PlistValue.ofJson room j with
  | some ⟨.dictionary entries, ordered⟩ => some ⟨entries, ordered⟩
  | _ => none

def PropertyList.ofJson : Decoder PropertyList := fun room j => do
  let fields ← fields? ["name", "configuration", "root"] room j
  let name ← fields.required "name" string?
  let configuration ← fields.withDefault "configuration" "" string?
  let root ← fields.withDefault "root" .empty PlistRoot.ofJson
  return ⟨name, configuration, root⟩

def PropertyList.toJson (list : PropertyList) : Json := record [
  ("name", text list.name),
  ("configuration", text list.configuration),
  ("root", .object (PlistValue.toJsonEntries list.root.entries))]

end Accessors.Record

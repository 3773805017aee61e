import Accessors.Namespace.Contents
import Accessors.Options
import Accessors.Record.PropertyList
import Accessors.Text.Quoted

/-!
# Property lists

The configurations of a property list are first brought to a consensus: what all of them hold. Of
the consensus, flags, texts and arrays of texts become constants and dictionaries child nodes. An
array of dictionaries is a child node too, if it is known which of their keys names each; any other
array is passed over.
-/

namespace Accessors.Namespace

open Record (PlistEntries PlistValue PropertyList)
open Accessors.Symbol (Leaf)
open Text (quote quoteList)

/-- What is kept of a value, if anything, and the notices about it. -/
abbrev Agreement := Noted (Option PlistValue)

def missingKeys (entries : PlistEntries) (others : List PlistEntries) : List String :=
  (distinct (others.flatMap fun other => other.map Prod.fst)).filter fun key =>
    (entries.lookup key).isNone

structure ConsensusContext where
  list : String
  configurations : List String

def ConsensusContext.mismatch (context : ConsensusContext) (path : List String)
    (problem : Disagreement) : Agreement :=
  ⟨none, [.configurationMismatch context.list path problem context.configurations]⟩

def keptEntries (agreements : List (String × Agreement)) : PlistEntries :=
  agreements.filterMap fun agreement => agreement.2.value.map fun value => (agreement.1, value)

/-- The agreements on all keys, in order. `shared` are those on the keys of the first
configuration. -/
def ConsensusContext.gather (context : ConsensusContext) (path : List String)
    (entries : PlistEntries) (others : List PlistEntries) (shared : List (String × Agreement)) :
    Noted PlistEntries :=
  let missing := (missingKeys entries others).map fun key =>
    (key, context.mismatch (path ++ [key]) .missing)
  let agreements := collectEntries (shared ++ missing)
  ⟨keptEntries agreements, agreements.flatMap (·.2.notices)⟩

mutual

def agreeValue (context : ConsensusContext) (path : List String) :
    PlistValue → List PlistValue → Agreement
  | value, others =>
    if others.all (· == value) then pure (some value)
    else
      match value, others.mapM PlistValue.entries? with
      | .dictionary entries, some dictionaries => do
        let kept ← context.gather path entries dictionaries
          (agreeEntries context path dictionaries entries)
        return some (.dictionary kept)
      | _, _ => context.mismatch path .different

def agreeEntries (context : ConsensusContext) (path : List String)
    (others : List PlistEntries) : PlistEntries → List (String × Agreement)
  | [] => []
  | (key, value) :: rest =>
    (key, match others.mapM (List.lookup key ·) with
      | some values => agreeValue context (path ++ [key]) value values
      | none => context.mismatch (path ++ [key]) .missing) ::
      agreeEntries context path others rest

end

def sortByConfiguration (lists : List PropertyList) : List PropertyList :=
  lists.mergeSort fun a b => a.configuration ≤ b.configuration

def consensus (name : String) (lists : List PropertyList) : Noted PlistEntries :=
  let sorted := sortByConfiguration lists
  match sorted.map (·.root.entries) with
  | [] => pure []
  | [entries] => pure entries
  | entries :: others =>
    let context : ConsensusContext := ⟨name, sorted.map (·.configuration)⟩
    context.gather [] entries others (agreeEntries context [] others entries)

def primaryKeys : List (String × String) := [
  ("UIApplicationShortcutItems", "UIApplicationShortcutItemType"),
  ("UIWindowSceneSessionRoleApplication", "UISceneConfigurationName"),
  ("UIWindowSceneSessionRoleExternalDisplay", "UISceneConfigurationName"),
  ("CFBundleDocumentTypes", "CFBundleTypeName"),
  ("CFBundleURLTypes", "CFBundleURLName")]

def primaryKey? (key : String) : Option String := primaryKeys.lookup key

def textItems? (items : List PlistValue) : Option (List String) := items.mapM PlistValue.string?

def elementName? (primaryKey : String) (entries : PlistEntries) : Option String :=
  (entries.lookup primaryKey).bind PlistValue.string?

structure PlistContext where
  list : String
  bundle : String

namespace PlistContext

def scope (context : PlistContext) (path : List String) : String :=
  if path.isEmpty then s!"property list '{context.list}'"
  else s!"property list '{context.list}' at {dotted path}"

def leaf (context : PlistContext) (path : List String) (key reader typeName fallback : String) :
    Leaf :=
  .constant (Identifier.ofName key) typeName
    (s!"{context.bundle}.{reader}(list: {quote context.list}, path: {quoteList path}, "
      ++ s!"key: {quote key}) ?? {fallback}") []

def leafMember (context : PlistContext) (path : List String)
    (key reader typeName fallback : String) : Member :=
  .plain key (.ofLeaves [context.leaf path key reader typeName fallback])

/-- A dictionary among the elements of an array that has no text at the primary key. -/
def missingName? (context : PlistContext) (path : List String) (key primaryKey : String) :
    PlistValue × Nat → Option Notice
  | (.dictionary entries, index) =>
    if (elementName? primaryKey entries).isNone then
      some (.primaryKeyMissing index key (context.scope path) primaryKey)
    else none
  | _ => none

end PlistContext

mutual

def valueMember (context : PlistContext) (path : List String) (key : String) :
    PlistValue → Option Member
  | .bool flag => some (context.leafMember path key "propertyListBool" "Bool" (toString flag))
  | .string text => some (context.leafMember path key "propertyListString" "String" (quote text))
  | .array items =>
    match textItems? items, primaryKey? key with
    | some texts, _ =>
      some (context.leafMember path key "propertyListStringArray" "[String]" (quoteList texts))
    | none, none => none
    | none, some primaryKey => some (.child key do
      let path := path ++ [key]
      Noted.give (items.zipIdx.filterMap (context.missingName? path key primaryKey))
      assemble "array elements" (context.scope path)
        (elementMembers context path primaryKey items))
  | .dictionary entries => some (.child key
    (assemble "property list keys" (context.scope (path ++ [key]))
      (entryMembers context (path ++ [key]) entries)))

def entryMembers (context : PlistContext) (path : List String) : PlistEntries → List Member
  | [] => []
  | (key, value) :: rest =>
    (valueMember context path key value).toList ++ entryMembers context path rest

def elementMembers (context : PlistContext) (path : List String) (primaryKey : String) :
    List PlistValue → List Member
  | [] => []
  | .dictionary entries :: rest =>
    match elementName? primaryKey entries with
    | some name =>
      .child name (assemble "property list keys" (context.scope (path ++ [name]))
        (entryMembers context (path ++ [name]) entries)) ::
        elementMembers context path primaryKey rest
    | none => elementMembers context path primaryKey rest
  | _ :: rest => elementMembers context path primaryKey rest

end

def propertyList (options : Options) (name : String) (lists : List PropertyList) :
    Noted Contents := do
  let entries ← consensus name lists
  let context : PlistContext := ⟨name, options.bundleExpression⟩
  assemble "property list keys" (context.scope []) (entryMembers context [] entries)

end Accessors.Namespace

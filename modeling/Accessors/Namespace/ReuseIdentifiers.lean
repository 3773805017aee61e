import Accessors.Namespace.Templates

/-!
# Reuse identifiers

The reuse tokens of all templates, each identifier once. An identifier that is used with several
types is left out.
-/

namespace Accessors.Namespace

open Record (TypedIdentifier)
open Template (Merged)

def tokenTypes (templates : List Merged) : List (String × List String) :=
  (buckets TypedIdentifier.identifier (templates.flatMap (·.template.reuseTokens))).map
    fun bucket => (bucket.1, distinct (bucket.2.map TypedIdentifier.typeName))

def token? : String × List String → Option TypedIdentifier
  | (identifier, [typeName]) => some ⟨identifier, typeName⟩
  | _ => none

def tokenConflict? : String × List String → Option Notice
  | (_, []) => none
  | (_, [_]) => none
  | (identifier, types) => some (.reuseConflict identifier types)

def tokenMember (token : TypedIdentifier) : Member :=
  .plain token.identifier
    (.ofLeaves [reuseLeaf (Identifier.ofName token.identifier) token])

def reuseIdentifiers (templates : List Merged) : Noted Contents := do
  let types := tokenTypes templates
  Noted.give (types.filterMap tokenConflict?)
  assemble "reuse identifiers" "reuseIdentifier" ((types.filterMap token?).map tokenMember)

end Accessors.Namespace

import Accessors.Identifier.Grouping
import Accessors.Symbol.Node

/-!
# Contents of a namespace

A namespace is assembled from members. A member has a name, and contents for the case that no other
member shares its identifier: leaves, child nodes and checks. Members that share an identifier, or
have none, are left out with a notice; the contents of the others are put together in the order of
their identifiers.
-/

namespace Accessors.Namespace

open Accessors.Symbol (Leaf Node)

structure Contents where
  leaves : List Leaf
  children : List Node
  checks : List String

namespace Contents

def empty : Contents := ⟨[], [], []⟩

def ofLeaves (leaves : List Leaf) : Contents := ⟨leaves, [], []⟩

def ofChild (child : Node) : Contents := ⟨[], [child], []⟩

def append (a b : Contents) : Contents :=
  ⟨a.leaves ++ b.leaves, a.children ++ b.children, a.checks ++ b.checks⟩

instance : Append Contents := ⟨append⟩

def concat (parts : List Contents) : Contents :=
  ⟨parts.flatMap leaves, parts.flatMap children, parts.flatMap checks⟩

def node (name : String) (contents : Contents) : Node :=
  Node.setChecks { Node.new name with leaves := contents.leaves, children := contents.children }
    contents.checks

end Contents

structure Member where
  name : String
  contents : Noted Contents

def Member.plain (name : String) (contents : Contents) : Member := ⟨name, pure contents⟩

def Member.child (name : String) (contents : Noted Contents) : Member where
  name := name
  contents := do
    let contents ← contents
    return .ofChild (contents.node (Identifier.ofName name))

def assemble (what scope : String) (members : List Member) : Noted Contents := do
  let uniques ← Identifier.uniques what scope Member.name members
  let parts ← Noted.all (uniques.map (·.item.contents))
  return .concat parts

end Accessors.Namespace

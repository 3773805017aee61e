import Accessors.Namespace.Files
import Accessors.Namespace.Media
import Accessors.Namespace.PropertyLists
import Accessors.Namespace.ReuseIdentifiers
import Accessors.Namespace.Strings
import Accessors.Record.Resources
import Accessors.Symbol.Validation

/-!
# Compilation

The resources are compiled into one tree of symbols. Each kind of resource that is enabled has its
namespace, each property list one of its own. The namespaces become children of the root under their
identifiers, and validation is passed upwards.
-/

namespace Accessors

open Record (PropertyList Resources)
open Accessors.Symbol (Node)

structure Namespace where
  kind : ResourceKind
  name : String
  contents : Noted Namespace.Contents

namespace Namespace

def node (space : Namespace) : Noted Node := do
  let contents ← space.contents
  return contents.node space.name

end Namespace

def namespaces (options : Options) (resources : Resources) : List Namespace :=
  let templates := Template.mergeAll resources.templates
  [⟨.strings, "string", Namespace.strings options resources.strings⟩,
    ⟨.nibs, "nib", Namespace.nibs options templates⟩,
    ⟨.storyboards, "storyboard", Namespace.storyboards options templates⟩,
    ⟨.images, "image", Namespace.images options resources.assets resources.imageFiles⟩,
    ⟨.colors, "color", Namespace.colors options resources.assets⟩,
    ⟨.data, "data", Namespace.data options resources.assets⟩,
    ⟨.fonts, "font", Namespace.fonts resources.fonts⟩,
    ⟨.files, "file", Namespace.files options resources.files⟩,
    ⟨.reuseIdentifiers, "reuseIdentifier", Namespace.reuseIdentifiers templates⟩] ++
  (buckets PropertyList.name resources.propertyLists).map fun bucket =>
    ⟨.propertyLists, bucket.1, Namespace.propertyList options bucket.1 bucket.2⟩

def aggregate (rootName : String) (subtrees : List Node) : Noted Node := do
  let contents ← Namespace.assemble "namespaces" rootName (subtrees.map fun subtree =>
    .plain subtree.name (.ofChild { subtree with name := Identifier.ofName subtree.name }))
  return contents.node rootName

def gather (options : Options) (resources : Resources) : Noted Node := do
  let enabled := (namespaces options resources).filter (options.isEnabled ·.kind)
  let subtrees ← Noted.all (enabled.map Namespace.node)
  aggregate options.rootName subtrees

def compile (options : Options) (resources : Resources) : Noted Node := do
  let root ← gather options resources
  return root.propagate

end Accessors

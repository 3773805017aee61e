import Mathlib.Data.List.Perm.Subperm
import Accessors.Proofs.Tree

/-!
# Excluding kinds of resource

Excluding kinds of resource takes their namespaces away: the children that other namespaces have
given to the root stay as they are, and a child that is new had shared its identifier with a
namespace of an excluded kind.
-/

namespace Accessors

open Identifier (ofName)
open Record (PlistValue Resources)
open Accessors.Symbol (Node)

section

variable {options : Options} {resources : Resources} {kinds : List ResourceKind}

theorem enabledNamespaces_exclude (he : options.excludedKinds = []) :
    enabledNamespaces { options with excludedKinds := kinds } resources =
      (enabledNamespaces options resources).filter (·.kind ∉ kinds) := by
  rw [enabledNamespaces_eq he]
  apply List.filter_congr
  intro space _
  simp [Options.isEnabled]

theorem namespaceNotices_exclude (he : options.excludedKinds = []) :
    namespaceNotices { options with excludedKinds := kinds } resources =
      (namespaceNotices options resources).filter (·.1 ∉ kinds) := by
  rw [namespaceNotices, namespaceNotices, enabledNamespaces_exclude he]
  induction enabledNamespaces options resources with
  | nil => rfl
  | cons space rest ih =>
    rw [List.flatMap_cons, List.filter_append, ← ih, List.filter_map]
    by_cases hk : space.kind ∈ kinds
    · simp [hk, Function.comp_def]
    · simp [hk, Function.comp_def]

def sharing (options : Options) (resources : Resources) (space : Namespace) : List Namespace :=
  (enabledNamespaces options resources).filter fun other => ofName other.name == ofName space.name

variable {space : Namespace}

theorem mem_sharing_self (hs : space ∈ enabledNamespaces options resources) :
    space ∈ sharing options resources space := by
  simp [sharing, hs]

theorem mem_keptNamespaces_iff :
    space ∈ keptNamespaces options resources ↔
      ofName space.name ≠ "" ∧ sharing options resources space = [space] :=
  Identifier.mem_items_uniques_iff

theorem sharing_exclude (he : options.excludedKinds = []) :
    sharing { options with excludedKinds := kinds } resources space =
      (sharing options resources space).filter (·.kind ∉ kinds) := by
  rw [sharing, enabledNamespaces_exclude he, List.filter_comm]
  rfl

theorem kind_of_mem_keptNamespaces (he : options.excludedKinds = [])
    (hs : space ∈ keptNamespaces { options with excludedKinds := kinds } resources) :
    space.kind ∉ kinds := by
  have halone := (mem_keptNamespaces_iff.mp hs).2
  rw [sharing_exclude he] at halone
  have hmem : space ∈ (sharing options resources space).filter (·.kind ∉ kinds) := by
    rw [halone]
    exact List.mem_singleton_self space
  simpa using (List.mem_filter.mp hmem).2

theorem keptNamespaces_exclude (he : options.excludedKinds = [])
    (hs : space ∈ keptNamespaces options resources) (hk : space.kind ∉ kinds) :
    space ∈ keptNamespaces { options with excludedKinds := kinds } resources := by
  obtain ⟨hne, halone⟩ := mem_keptNamespaces_iff.mp hs
  refine mem_keptNamespaces_iff.mpr ⟨hne, ?_⟩
  rw [sharing_exclude he, halone, List.filter_singleton]
  simp [hk]

theorem exists_rival (he : options.excludedKinds = [])
    (hs : space ∈ keptNamespaces { options with excludedKinds := kinds } resources)
    (hn : space ∉ keptNamespaces options resources) :
    ∃ rival ∈ enabledNamespaces options resources, rival.kind ∈ kinds ∧
      [space, rival].Subperm (sharing options resources space) := by
  obtain ⟨hne, halone⟩ := mem_keptNamespaces_iff.mp hs
  rw [sharing_exclude he] at halone
  obtain ⟨rival, hr, hk⟩ : ∃ rival ∈ sharing options resources space, rival.kind ∈ kinds := by
    by_contra hnone
    refine hn (mem_keptNamespaces_iff.mpr ⟨hne, halone ▸ (List.filter_eq_self.mpr ?_).symm⟩)
    exact fun other ho => by simpa using fun hk => hnone ⟨other, ho, hk⟩
  refine ⟨rival, (List.mem_filter.mp hr).1, hk, ?_⟩
  -- The sharing namespaces are `[space]`, which the exclusion keeps, and those that it takes away.
  have hsplit := List.filter_append_perm (fun other : Namespace => decide (other.kind ∉ kinds))
    (sharing options resources space)
  rw [halone] at hsplit
  have htaken : [rival].Sublist ((sharing options resources space).filter fun other =>
      !decide (other.kind ∉ kinds)) :=
    List.singleton_sublist.mpr (List.mem_filter.mpr ⟨hr, by simpa using hk⟩)
  exact (List.Sublist.append (List.Sublist.refl [space]) htaken).subperm.trans hsplit.subperm

theorem collision_of_not_mem_keptNamespaces (hs : space ∈ enabledNamespaces options resources)
    (hne : ofName space.name ≠ "") (hn : space ∉ keptNamespaces options resources) :
    .identifierCollision "namespaces" options.rootName (ofName space.name)
      ((sharing options resources space).map Namespace.name).mergeSort ∈
        (compile options resources).notices := by
  have hshared : ∀ other, sharing options resources space ≠ [other] := by
    intro other halone
    have hself := mem_sharing_self hs
    rw [halone, List.mem_singleton] at hself
    subst hself
    exact hn (mem_keptNamespaces_iff.mpr ⟨hne, halone⟩)
  have hduplicate := Identifier.mem_duplicates_of_shared hs hne hshared
  rw [(gathered options resources).notices]
  exact List.mem_append_right _ (Identifier.mem_notices_of_mem_duplicates hduplicate)

end

/-- What a compilation that excludes kinds has of a full one. -/
structure Undisturbed (kinds : List ResourceKind) (full part : Options) (resources : Resources) :
    Prop where
  kept : ∀ space ∈ keptNamespaces full resources, space.kind ∉ kinds →
    space ∈ keptNamespaces part resources
  apart : ∀ space ∈ keptNamespaces part resources, space.kind ∉ kinds
  /-- A child that is new had its name set aside with that of an excluded namespace. -/
  revived : ∀ space ∈ keptNamespaces part resources,
    space.child ∉ (compile full resources).value.children →
      ∃ rival ∈ enabledNamespaces full resources, rival.kind ∈ kinds ∧ ∃ rawKeys,
        .identifierCollision "namespaces" full.rootName (ofName space.name) rawKeys ∈
          (compile full resources).notices ∧ [space.name, rival.name].Subperm rawKeys
  before : namespaceNotices part resources =
    (namespaceNotices full resources).filter (·.1 ∉ kinds)

/-- Excluding kinds of resource leaves everything else as it was. -/
theorem compile_undisturbed {options : Options} (he : options.excludedKinds = [])
    (kinds : List ResourceKind) (resources : Resources) :
    let part := { options with excludedKinds := kinds }
    Gathered options resources ∧ Gathered part resources ∧
      Undisturbed kinds options part resources := by
  refine ⟨gathered _ _, gathered _ _, ?_⟩
  constructor
  case kept => exact fun space hs hk => keptNamespaces_exclude he hs hk
  case apart => exact fun space hs => kind_of_mem_keptNamespaces he hs
  case before => exact namespaceNotices_exclude he
  case revived =>
    intro space hs hnew
    have hn : space ∉ keptNamespaces options resources := fun hold =>
      hnew ((gathered options resources).children ▸ List.mem_map_of_mem hold)
    obtain ⟨rival, hr, hk, hshared⟩ := exists_rival he hs hn
    have hmem := (List.mem_filter.mp (hshared.subset (List.mem_cons_self ..))).1
    refine ⟨rival, hr, hk, _, collision_of_not_mem_keptNamespaces hmem
      (mem_keptNamespaces_iff.mp hs).1 hn, ?_⟩
    obtain ⟨pair, hpair, hsub⟩ := hshared
    have hnames : [space.name, rival.name].Subperm
        ((sharing options resources space).map Namespace.name) :=
      ⟨pair.map Namespace.name, hpair.map Namespace.name, hsub.map Namespace.name⟩
    exact hnames.trans (List.mergeSort_perm ..).symm.subperm

def sharedResources : Resources :=
  { sampleResources with propertyLists := ⟨"Image", "Debug", ⟨[("beta", .bool true)],
      by simp [PlistValue.Ordered, PlistValue.OrderedEntries, Increasing]⟩⟩ ::
        sampleResources.propertyLists }

theorem compile_undisturbed_shared :
    Undisturbed [.images] .default { Options.default with excludedKinds := [.images] }
        sharedResources ∧
      "image" ∈ (compile { Options.default with excludedKinds := [.images] }
        sharedResources).value.children.map Node.name ∧
      "image" ∉ (compile .default sharedResources).value.children.map Node.name :=
  ⟨(compile_undisturbed rfl [.images] sharedResources).2.2, by decide +kernel, by decide +kernel⟩

end Accessors

import Accessors.Proofs.Namespace.Bindings
import Accessors.Proofs.Namespace.Complete
import Accessors.Proofs.Template.OrderFree

/-!
# Accessors of storyboards

A storyboard is merged from its locale variants. It has an accessor for a view controller just if
this can be loaded in every locale: all variants declare it, none of them with another type, and its
identifier is not taken. It has one for the initial view controller just if all variants have the
same root types. The images and colours of all variants are checked, then each view controller that
has an accessor, with the expression that the accessor is bound to.
-/

namespace Accessors

namespace Template

open Record (Template TemplateKind TypedIdentifier)

variable {templates variants : List Template} {first : Template} {merged : Merged}

def variantsOf (templates : List Template) (kind : TemplateKind) (name : String) : List Template :=
  sortByLocale ((templates.filter (·.kind == kind)).filter (·.name == name))

theorem mem_variantsOf_iff {kind : TemplateKind} {name : String} {variant : Template} :
    variant ∈ variantsOf templates kind name ↔
      variant ∈ templates ∧ variant.kind = kind ∧ variant.name = name := by
  simp only [variantsOf, sortByLocale, List.mem_mergeSort, List.mem_filter, beq_iff_eq, and_assoc]

theorem kind_name_of_mem_buckets {kind : TemplateKind} {bucket : String × List Template}
    (hbucket : bucket ∈ buckets Template.name (templates.filter (·.kind == kind)))
    (hmerged : mergeVariants (sortByLocale bucket.2) = some merged) :
    mergeVariants (variantsOf templates kind bucket.1) = some merged ∧
      merged.template.kind = kind ∧ merged.template.name = bucket.1 := by
  have hvariants : sortByLocale bucket.2 = variantsOf templates kind bucket.1 :=
    congrArg sortByLocale (mem_buckets_iff.mp hbucket).2
  rw [hvariants] at hmerged
  exact ⟨hmerged, kind_name_of_mergeVariants hmerged fun variant hv =>
    (mem_variantsOf_iff.mp hv).2⟩

theorem exists_variants_of_mem_mergeAll (h : merged ∈ mergeAll templates) :
    ∃ first rest, variantsOf templates merged.template.kind merged.template.name = first :: rest ∧
      first.kind = merged.template.kind ∧ first.name = merged.template.name ∧
      Merged.Summary first (first :: rest) merged := by
  obtain ⟨kind, -, h⟩ := List.mem_flatMap.mp h
  obtain ⟨bucket, hbucket, hmerged⟩ := List.mem_filterMap.mp h
  obtain ⟨hmerged, hkind, hname⟩ := kind_name_of_mem_buckets hbucket hmerged
  rw [hkind, hname]
  cases hsorted : variantsOf templates kind bucket.1 with
  | nil =>
    rw [hsorted] at hmerged
    cases hmerged
  | cons first rest =>
    rw [hsorted] at hmerged
    obtain ⟨other, hother, hsummary⟩ := exists_summary first rest
    obtain rfl := Option.some.inj (hmerged.symm.trans hother)
    obtain ⟨-, hfirst⟩ := mem_variantsOf_iff.mp (hsorted ▸ List.mem_cons_self (a := first) ..)
    exact ⟨first, rest, rfl, hfirst.1, hfirst.2, hsummary⟩

theorem nodup_names_mergeAll (templates : List Template) (kind : TemplateKind) :
    (((mergeAll templates).filter (·.template.kind == kind)).map (·.template.name)).Nodup := by
  let mergedOf := fun kind => (buckets Template.name (templates.filter (·.kind == kind))).filterMap
    fun bucket => mergeVariants (sortByLocale bucket.2)
  have hkind : ∀ held, ∀ merged ∈ mergedOf held, merged.template.kind = held := by
    intro held merged hm
    obtain ⟨bucket, hbucket, hmerged⟩ := List.mem_filterMap.mp hm
    exact (kind_name_of_mem_buckets hbucket hmerged).2.1
  have hfilter : (mergeAll templates).filter (·.template.kind == kind) = mergedOf kind := by
    have hone : ((mergeAll templates).filter (·.template.kind == kind)) =
        (mergedOf kind).filter (·.template.kind == kind) := by
      refine Namespace.filter_flatMap_eq (by decide) (by cases kind <;> decide) ?_
      refine fun other _ hne => List.filter_eq_nil_iff.mpr fun merged hm he => hne ?_
      exact (hkind other merged hm).symm.trans (beq_iff_eq.mp he)
    rw [hone, List.filter_eq_self.mpr fun merged hm => beq_iff_eq.mpr (hkind kind merged hm)]
  have hnames : ((mergedOf kind).map (·.template.name)).Sublist
      ((buckets Template.name (templates.filter (·.kind == kind))).map Prod.fst) := by
    rw [List.map_filterMap]
    refine filterMap_sublist_map (g := Prod.fst) fun bucket hbucket name hname => ?_
    obtain ⟨merged, hmerged, rfl⟩ := Option.map_eq_some_iff.mp hname
    exact (kind_name_of_mem_buckets hbucket hmerged).2.2
  rw [hfilter]
  exact (increasing_keys_buckets Template.name _).nodup.sublist hnames

theorem mem_names_mergeAll_iff {kind : TemplateKind} {name : String} :
    name ∈ ((mergeAll templates).filter (·.template.kind == kind)).map (·.template.name) ↔
      name ∈ (templates.filter (·.kind == kind)).map Template.name := by
  simp only [List.mem_map, List.mem_filter, beq_iff_eq]
  constructor
  · rintro ⟨merged, ⟨hm, hkind⟩, rfl⟩
    obtain ⟨first, rest, hvariants, hfirst, hname, -⟩ := exists_variants_of_mem_mergeAll hm
    obtain ⟨hm, -, -⟩ := mem_variantsOf_iff.mp (hvariants ▸ List.mem_cons_self (a := first) ..)
    exact ⟨first, ⟨hm, hfirst.trans hkind⟩, hname⟩
  · rintro ⟨template, ⟨hm, hkind⟩, rfl⟩
    obtain ⟨merged, hmerged, hsame, hname, -⟩ := exists_merged hm
    exact ⟨merged, ⟨hmerged, hsame.trans hkind⟩, hname⟩

def BoundAlike (variants : List Template) (identifier : String) : Prop :=
  ∀ a ∈ variants, ∀ b ∈ variants, boundTypes identifier a = boundTypes identifier b

theorem Merged.Summary.not_mem_divergent_iff (h : Merged.Summary first variants merged)
    {identifier : String} :
    identifier ∉ merged.divergentNestedElements ↔ BoundAlike variants identifier := by
  rw [h.mem_divergentNestedElements]
  simp only [BoundAlike, not_exists, not_and, not_not]

end Template

namespace Namespace

open Identifier (Alone ofName)
open Record (Template TemplateKind TypedIdentifier)
open Accessors.Symbol (Leaf Node Step stepsOf)
open Template (BoundAlike Merged boundTypes mergeAll variantsOf)
open Text (quote)

variable {bundle : String} {first template : Template} {variants : List Template} {merged : Merged}
  {element : TypedIdentifier}

/-- All variants declare the element, its identifier has no other type in any of them, and no other
entry of the first variant on which they agree has the same name. -/
structure Accessible (first : Template) (variants : List Template) (element : TypedIdentifier) :
    Prop where
  declared : ∀ variant ∈ variants, element ∈ variant.nestedElements
  typed : ∀ variant ∈ variants, ∀ other ∈ variant.nestedElements,
    other.identifier = element.identifier → other.typeName = element.typeName
  named : ofName element.identifier ≠ ""
  free : ofName element.identifier ∉ storyboardMembers
  alone : ∀ before behind, first.nestedElements = before ++ element :: behind →
    ∀ other ∈ before ++ behind, BoundAlike variants other.identifier →
      ofName other.identifier ≠ ofName element.identifier

def isFree (element : TypedIdentifier) : Bool :=
  !storyboardMembers.contains (ofName element.identifier)

theorem isFree_iff : isFree element = true ↔ ofName element.identifier ∉ storyboardMembers := by
  rw [isFree, Bool.not_eq_true', List.contains_eq_mem, decide_eq_false_iff_not]

def accessible (merged : Merged) : List TypedIdentifier :=
  ((Identifier.group TypedIdentifier.identifier merged.stableElements).uniques.map
    Identifier.Named.item).filter isFree

theorem boundAlike_of_typed (hdeclared : ∀ variant ∈ variants, element ∈ variant.nestedElements)
    (htyped : ∀ variant ∈ variants, ∀ other ∈ variant.nestedElements,
      other.identifier = element.identifier → other.typeName = element.typeName) :
    BoundAlike variants element.identifier := by
  have hsingle : ∀ variant ∈ variants,
      boundTypes element.identifier variant = {element.typeName} := by
    intro variant hv
    ext typeName
    refine ⟨fun ht => htyped variant hv _ ht rfl, ?_⟩
    rintro rfl
    exact hdeclared variant hv
  intro a ha b hb
  rw [hsingle a ha, hsingle b hb]

theorem filter_stableElements_iff (h : Merged.Summary first variants merged)
    (halike : BoundAlike variants element.identifier) {before behind : List TypedIdentifier}
    (hsplit : first.nestedElements = before ++ element :: behind) :
    merged.stableElements.filter (fun other =>
        ofName other.identifier == ofName element.identifier) = [element] ↔
      ∀ other ∈ before ++ behind, BoundAlike variants other.identifier →
        ofName other.identifier ≠ ofName element.identifier := by
  let p := fun other : TypedIdentifier =>
    ofName other.identifier == ofName element.identifier &&
      !merged.divergentNestedElements.contains other.identifier
  have hp : ∀ other, p other = true ↔ ofName other.identifier = ofName element.identifier ∧
      BoundAlike variants other.identifier := by
    intro other
    simp only [p, Bool.and_eq_true, beq_iff_eq, Bool.not_eq_true', List.contains_eq_mem,
      decide_eq_false_iff_not, h.not_mem_divergent_iff]
  rw [Merged.stableElements, h.nestedElements, List.filter_filter, hsplit,
    filter_eq_singleton_iff (p := p) ((hp element).mpr ⟨rfl, halike⟩)]
  refine forall₂_congr fun other _ => ?_
  rw [hp, not_and, imp_not_comm]

theorem mem_accessible_iff (h : Merged.Summary first variants merged) :
    element ∈ accessible merged ↔ Accessible first variants element := by
  have hstable : ∀ other, other ∈ merged.stableElements ↔
      (∀ variant ∈ variants, other ∈ variant.nestedElements) ∧
        BoundAlike variants other.identifier := by
    intro other
    rw [h.mem_stableElements_iff, h.not_mem_divergent_iff]
  rw [accessible, List.mem_filter, Identifier.mem_items_uniques_iff, isFree_iff]
  constructor
  · rintro ⟨⟨hnamed, hfilter⟩, hfree⟩
    obtain ⟨hdeclared, halike⟩ := (hstable element).mp
      (List.mem_of_mem_filter (hfilter ▸ List.mem_singleton_self element))
    refine ⟨hdeclared, fun variant hv other ho hid => ?_, hnamed, hfree,
      fun before behind hsplit => (filter_stableElements_iff h halike hsplit).mp hfilter⟩
    -- All variants have the other type as well, so both elements would be stable.
    have hother : other ∈ merged.stableElements := by
      refine (hstable other).mpr ⟨fun held hheld => ?_, hid ▸ halike⟩
      exact (Set.ext_iff.mp ((hid ▸ halike) variant hv held hheld) other.typeName).mp ho
    have hmem : other ∈ merged.stableElements.filter fun other =>
        ofName other.identifier == ofName element.identifier :=
      List.mem_filter.mpr ⟨hother, beq_iff_eq.mpr (congrArg ofName hid)⟩
    rw [hfilter, List.mem_singleton] at hmem
    rw [hmem]
  · rintro ⟨hdeclared, htyped, hnamed, hfree, halone⟩
    have halike := boundAlike_of_typed hdeclared htyped
    obtain ⟨before, behind, hsplit⟩ := List.append_of_mem (hdeclared first h.mem_first)
    exact ⟨⟨hnamed, (filter_stableElements_iff h halike hsplit).mpr (halone before behind hsplit)⟩,
      hfree⟩

theorem increasing_accessible (merged : Merged) :
    Increasing ((accessible merged).map (ofName ·.identifier)) := by
  let kept := (Identifier.group TypedIdentifier.identifier merged.stableElements).uniques
  have hnames : (kept.map Identifier.Named.item).map (ofName ·.identifier) =
      kept.map Identifier.Named.identifier := by
    rw [List.map_map]
    refine List.map_congr_left fun named hnamed => ?_
    obtain ⟨other, -, rfl⟩ := Identifier.exists_of_mem_uniques hnamed
    rfl
  have hi : Increasing ((kept.map Identifier.Named.item).map (ofName ·.identifier)) :=
    hnames ▸ Identifier.increasing_uniques TypedIdentifier.identifier merged.stableElements
  exact hi.sublist (List.filter_sublist.map _)

def elementCheck (bundle : String) (template : Template) (element : TypedIdentifier) : String :=
  checkNotNil (elementLeaf bundle template element).binding
    (s!"View controller with identifier '{element.identifier}' could not be loaded from "
      ++ s!"storyboard '{template.name}' as '{element.typeName}'.")

theorem value_elementMember (bundle : String) (template : Template) (element : TypedIdentifier) :
    (elementMember bundle template element).contents.value =
      if isFree element then
        ⟨[elementLeaf bundle template element], [], [elementCheck bundle template element]⟩
      else .empty := by
  unfold isFree
  cases htaken : storyboardMembers.contains (ofName element.identifier) with
  | true =>
    simp only [elementMember, if_pos htaken]
    rfl
  | false =>
    simp only [elementMember, if_neg (Bool.eq_false_iff.mp htaken)]
    rfl

theorem assemble_elements (what scope bundle : String) (merged : Merged) :
    (assemble what scope
      (merged.stableElements.map (elementMember bundle merged.template))).value =
      ⟨(accessible merged).map (elementLeaf bundle merged.template), [],
        (accessible merged).map (elementCheck bundle merged.template)⟩ := by
  have hconcat : ∀ elements : List TypedIdentifier,
      Contents.concat (elements.map fun element =>
        (elementMember bundle merged.template element).contents.value) =
      ⟨(elements.filter isFree).map (elementLeaf bundle merged.template), [],
        (elements.filter isFree).map (elementCheck bundle merged.template)⟩ := by
    intro elements
    induction elements with
    | nil => rfl
    | cons element rest ih =>
      rw [List.map_cons, Contents.concat_cons, ih, value_elementMember, List.filter_cons]
      split <;> rfl
  rw [assemble_value, keptMembers, Identifier.group_map, List.map_map, accessible, ← hconcat,
    List.map_map]
  rfl

theorem elementLeaf_injective (bundle : String) (template : Template) :
    Function.Injective (elementLeaf bundle template) :=
  fun _ _ h => (elementBinding_iff.mp (congrArg Leaf.binding h)).2

theorem elementLeaf_ne_initialAccessor (bundle : String) (template : Template)
    (element : TypedIdentifier) (root : String) :
    elementLeaf bundle template element ≠ initialAccessor bundle template root := by
  intro h
  have hbinding : storyboardInstance bundle template ++
        (".instantiateViewController(withIdentifier: " ++ quote element.identifier ++ ") as? " ++
          element.typeName) =
      storyboardInstance bundle template ++ (".instantiateInitialViewController() as? " ++ root) :=
    congrArg Leaf.binding h
  have hchars := congrArg String.toList ((String.append_right_inj _).mp hbinding)
  simp [String.toList_append] at hchars

def initial? (merged : Merged) : Option String :=
  if merged.rootTypesDiffer then none else merged.template.rootTypes.head?

theorem initial?_eq_some_iff (h : Merged.Summary first variants merged) {root : String} :
    initial? merged = some root ↔
      ∃ others, ∀ variant ∈ variants, variant.rootTypes = root :: others := by
  have hsame : merged.rootTypesDiffer = false ↔
      ∀ variant ∈ variants, variant.rootTypes = first.rootTypes := by
    rw [← Bool.not_eq_true, h.rootTypesDiffer, ← Template.exists_ne_iff_of_mem h.mem_first]
    simp only [ne_eq, not_exists, not_and, not_not, eq_comm]
  constructor
  · intro hinitial
    unfold initial? at hinitial
    split at hinitial
    · cases hinitial
    · next hdiffer =>
      rw [h.rootTypes] at hinitial
      obtain ⟨others, hroots⟩ := List.head?_eq_some_iff.mp hinitial
      exact ⟨others, fun variant hv =>
        (hsame.mp (Bool.eq_false_iff.mpr hdiffer) variant hv).trans hroots⟩
  · rintro ⟨others, hroots⟩
    have hfirst := hroots first h.mem_first
    rw [initial?, hsame.mpr fun variant hv => (hroots variant hv).trans hfirst.symm, h.rootTypes,
      hfirst]
    rfl

theorem exists_initial?_iff (h : Merged.Summary first variants merged) :
    (∃ root, initial? merged = some root) ↔
      ∃ roots, roots ≠ [] ∧ ∀ variant ∈ variants, variant.rootTypes = roots := by
  simp only [initial?_eq_some_iff h]
  constructor
  · rintro ⟨root, others, hroots⟩
    exact ⟨root :: others, List.cons_ne_nil _ _, hroots⟩
  · rintro ⟨roots, hne, hroots⟩
    obtain ⟨root, others, rfl⟩ := List.exists_cons_of_ne_nil hne
    exact ⟨root, others, hroots⟩

def storyboardLeaves (bundle : String) (template : Template) (initial : Option String)
    (accessors : List TypedIdentifier) : List Leaf :=
  nameLeaf template :: (initial.map (initialAccessor bundle template)).toList ++
    accessors.map (elementLeaf bundle template)

theorem value_storyboard_eq (bundle : String) (merged : Merged) :
    (storyboard bundle merged).value =
      ⟨storyboardLeaves bundle merged.template (initial? merged) (accessible merged), [],
        usageChecks bundle merged.template ++
          (accessible merged).map (elementCheck bundle merged.template)⟩ := by
  have hinitial : (if merged.rootTypesDiffer then []
      else merged.template.rootTypes.head?.toList.map (initialAccessor bundle merged.template)) =
        ((initial? merged).map (initialAccessor bundle merged.template)).toList := by
    unfold initial?
    split
    · rfl
    · cases merged.template.rootTypes <;> rfl
  rw [value_storyboard, assemble_elements, storyboardFixed, hinitial]
  rfl

-- Expressions are made with the merged template, which has the kind and the name of its variants.
section Congruence

variable {other : Template} (hname : template.name = other.name)

include hname

theorem nameLeaf_congr : nameLeaf template = nameLeaf other := by
  unfold nameLeaf
  rw [hname]

theorem storyboardInstance_congr (bundle : String) :
    storyboardInstance bundle template = storyboardInstance bundle other := by
  unfold storyboardInstance
  rw [hname]

theorem initialAccessor_congr (bundle : String) :
    initialAccessor bundle template = initialAccessor bundle other := by
  funext root
  unfold initialAccessor
  rw [storyboardInstance_congr hname]

theorem elementLeaf_congr (bundle : String) :
    elementLeaf bundle template = elementLeaf bundle other := by
  funext element
  unfold elementLeaf elementBinding
  rw [storyboardInstance_congr hname]

theorem elementCheck_congr (bundle : String) :
    elementCheck bundle template = elementCheck bundle other := by
  funext element
  unfold elementCheck
  rw [elementLeaf_congr hname, hname]

theorem usageCheck_congr (hkind : template.kind = other.kind) (bundle what loader : String) :
    usageCheck bundle what loader template = usageCheck bundle what loader other := by
  funext name
  unfold usageCheck
  rw [hkind, hname]

theorem storyboardLeaves_congr (bundle : String) (initial : Option String)
    (accessors : List TypedIdentifier) :
    storyboardLeaves bundle template initial accessors =
      storyboardLeaves bundle other initial accessors := by
  unfold storyboardLeaves
  rw [nameLeaf_congr hname, initialAccessor_congr hname, elementLeaf_congr hname]

end Congruence

section Leaves

variable {initial : Option String} {accessors : List TypedIdentifier}

theorem elementLeaf_mem_storyboardLeaves_iff :
    elementLeaf bundle template element ∈ storyboardLeaves bundle template initial accessors ↔
      element ∈ accessors := by
  rw [storyboardLeaves, List.mem_append,
    List.mem_map_of_injective (elementLeaf_injective bundle template)]
  refine or_iff_right fun hfixed => ?_
  rcases List.mem_cons.mp hfixed with he | hinitial
  · cases congrArg Leaf.shape he
  · obtain ⟨root, -, he⟩ := Option.map_eq_some_iff.mp (Option.mem_toList.mp hinitial)
    exact elementLeaf_ne_initialAccessor bundle template element root he.symm

theorem exists_initial_storyboardLeaves_iff
    (hfree : ∀ element ∈ accessors, ofName element.identifier ∉ storyboardMembers) :
    (∃ leaf ∈ storyboardLeaves bundle template initial accessors,
        leaf.name = "initialViewController") ↔ ∃ root, initial = some root := by
  constructor
  · rintro ⟨leaf, hl, hleaf⟩
    rcases List.mem_append.mp hl with hl | hl
    · rcases List.mem_cons.mp hl with rfl | hl
      · exact absurd (show "name" = "initialViewController" from hleaf) (by decide)
      · obtain ⟨root, hroot, -⟩ := Option.map_eq_some_iff.mp (Option.mem_toList.mp hl)
        exact ⟨root, hroot⟩
    · obtain ⟨element, he, rfl⟩ := List.mem_map.mp hl
      have hname : ofName element.identifier = "initialViewController" := hleaf
      exact absurd (hname ▸ by decide) (hfree element he)
  · rintro ⟨root, rfl⟩
    exact ⟨initialAccessor bundle template root, List.mem_append_left _
      (List.mem_cons_of_mem _ (List.mem_singleton_self _)), rfl⟩

end Leaves

structure UsedBy (variants : List Template) (used : Template → List String)
    (names : List String) : Prop where
  increasing : Increasing names
  mem_iff : ∀ name, name ∈ names ↔ ∃ variant ∈ variants, name ∈ used variant

/-- A storyboard node offers what can be loaded in every locale. It checks the assets of all
variants and the elements that it has accessors for. -/
structure Serves (bundle : String) (first : Template) (variants : List Template)
    (initial : Option String) (accessors : List TypedIdentifier) (node : Node) : Prop where
  leaves : node.leaves = storyboardLeaves bundle first initial accessors
  ordered : Increasing (accessors.map (ofName ·.identifier))
  accessor_iff : ∀ element,
    elementLeaf bundle first element ∈ node.leaves ↔ Accessible first variants element
  initial_iff : ∀ root, initial = some root ↔
    ∃ others, ∀ variant ∈ variants, variant.rootTypes = root :: others
  hasInitial_iff : (∃ leaf ∈ node.leaves, leaf.name = "initialViewController") ↔
    ∃ roots, roots ≠ [] ∧ ∀ variant ∈ variants, variant.rootTypes = roots
  validation : ∃ images colors, UsedBy variants Template.usedImages images ∧
    UsedBy variants Template.usedColors colors ∧
    stepsOf node.validation = (images.map (usageCheck bundle "Image" "UIImage" first) ++
      colors.map (usageCheck bundle "Color" "UIColor" first) ++
      accessors.map (elementCheck bundle first)).map Step.check

theorem serves_storyboard (bundle name : String) (h : Merged.Summary first variants merged)
    (hkind : first.kind = merged.template.kind) (hname : first.name = merged.template.name) :
    Serves bundle first variants (initial? merged) (accessible merged)
      ((storyboard bundle merged).value.node name) := by
  have hvalue := value_storyboard_eq bundle merged
  have hleaves : ((storyboard bundle merged).value.node name).leaves =
      storyboardLeaves bundle first (initial? merged) (accessible merged) := by
    rw [Contents.leaves_node, hvalue, storyboardLeaves_congr hname]
  exact
    { leaves := hleaves
      ordered := increasing_accessible merged
      accessor_iff := fun element => by
        rw [hleaves, elementLeaf_mem_storyboardLeaves_iff, mem_accessible_iff h]
      initial_iff := fun root => initial?_eq_some_iff h
      hasInitial_iff := by
        rw [hleaves, exists_initial_storyboardLeaves_iff fun element he =>
          ((mem_accessible_iff h).mp he).free, exists_initial?_iff h]
      validation := by
        refine ⟨merged.template.usedImages, merged.template.usedColors,
          ⟨h.increasingImages, h.mem_usedImages⟩, ⟨h.increasingColors, h.mem_usedColors⟩, ?_⟩
        rw [Contents.stepsOf_node, hvalue, elementCheck_congr hname, usageCheck_congr hname hkind,
          usageCheck_congr hname hkind]
        rfl }

theorem mem_children_storyboards_iff (options : Options) (templates : List Template) {node : Node} :
    node ∈ (storyboards options (mergeAll templates)).value.children ↔
      ∃ merged ∈ mergeAll templates, merged.template.kind = .storyboard ∧
        Alone ((templates.filter (·.kind == .storyboard)).map Template.name) merged.template.name ∧
        node = (storyboard options.bundleExpression merged).value.node
          (ofName merged.template.name) := by
  let members := (ofKind .storyboard (mergeAll templates)).map fun merged =>
    Member.child merged.template.name (storyboard options.bundleExpression merged)
  have hnames : members.map Member.name =
      (ofKind .storyboard (mergeAll templates)).map (·.template.name) := by
    rw [List.map_map]
    rfl
  have hmem : ∀ name, name ∈ members.map Member.name ↔
      name ∈ (templates.filter (·.kind == .storyboard)).map Template.name := by
    rw [hnames]
    exact fun name => Template.mem_names_mergeAll_iff
  refine mem_children_assemble.trans ⟨?_, ?_⟩
  · rintro ⟨named, hnamed, hnode⟩
    have halone := (Identifier.alone_of_mem_uniques hnamed).congr hmem
    obtain ⟨merged, hmerged, hitem⟩ := List.mem_map.mp (mem_keptMembers hnamed).1
    rw [← hitem] at hnode halone
    obtain ⟨hm, hkind⟩ := List.mem_filter.mp hmerged
    exact ⟨merged, hm, beq_iff_eq.mp hkind, halone, List.mem_singleton.mp hnode⟩
  · rintro ⟨merged, hm, hkind, halone, rfl⟩
    refine ⟨_, Alone.mem_uniques ?_ (List.mem_map_of_mem (mem_ofKind hm hkind)) ?_,
      List.mem_singleton_self _⟩
    · exact hnames ▸ Template.nodup_names_mergeAll templates .storyboard
    · exact halone.congr fun name => (hmem name).symm

/-- A storyboard that has its identifier to itself has a node, and every node of the namespace
serves such a storyboard, with all its variants in the order of their locales. -/
theorem storyboards_serve (options : Options) (templates : List Template) :
    let names := (templates.filter (·.kind == .storyboard)).map Template.name
    let nodes := ((storyboards options (mergeAll templates)).value.node "storyboard").children
    (∀ name, Alone names name → ∃ node ∈ nodes, node.name = ofName name) ∧
      ∀ node ∈ nodes, ∃ first rest initial accessors,
        variantsOf templates .storyboard first.name = first :: rest ∧ Alone names first.name ∧
          node.name = ofName first.name ∧
          Serves options.bundleExpression first (first :: rest) initial accessors node := by
  intro names nodes
  have hnodes : nodes = (storyboards options (mergeAll templates)).value.children :=
    Contents.children_node _ _
  rw [hnodes]
  constructor
  · intro name halone
    obtain ⟨merged, hmerged, rfl⟩ := List.mem_map.mp
      (Template.mem_names_mergeAll_iff.mpr halone.mem)
    obtain ⟨hm, hkind⟩ := List.mem_filter.mp hmerged
    exact ⟨_, (mem_children_storyboards_iff options templates).mpr
      ⟨merged, hm, beq_iff_eq.mp hkind, halone, rfl⟩, Contents.name_node _ _⟩
  · intro node hnode
    obtain ⟨merged, hm, hkind, halone, rfl⟩ :=
      (mem_children_storyboards_iff options templates).mp hnode
    obtain ⟨first, rest, hvariants, hfirst, hname, hsummary⟩ :=
      Template.exists_variants_of_mem_mergeAll hm
    rw [hkind, ← hname] at hvariants
    refine ⟨first, rest, _, _, hvariants, hname ▸ halone, ?_,
      serves_storyboard _ _ hsummary hfirst hname⟩
    rw [Contents.name_node, hname]

theorem ofName_ne_of_nodup {before behind : List TypedIdentifier}
    (hd : ((before ++ element :: behind).map (ofName ·.identifier)).Nodup) :
    ∀ other ∈ before ++ behind, ofName other.identifier ≠ ofName element.identifier := by
  rw [List.map_append, List.map_cons, List.nodup_middle, List.nodup_cons, ← List.map_append] at hd
  intro other ho he
  exact hd.1 (he ▸ List.mem_map_of_mem ho)

def menuFirst : Template :=
  ⟨.storyboard, "Main", .base, ["Root"],
    [⟨"menu", "Menu"⟩, ⟨"list", "List"⟩, ⟨"name", "Name"⟩], [], ["star"], [], none⟩

def menuOther : Template :=
  ⟨.storyboard, "Main", .language "de", ["Root"],
    [⟨"list", "Grid"⟩, ⟨"name", "Name"⟩, ⟨"menu", "Menu"⟩], [], ["avatar"], ["tint"], none⟩

theorem storyboards_serve_menu :
    ∃ node ∈ ((storyboards .default
        (mergeAll [menuFirst, menuOther])).value.node "storyboard").children,
      (∃ leaf ∈ node.leaves, leaf.name = "initialViewController") ∧
      elementLeaf Options.default.bundleExpression menuFirst ⟨"menu", "Menu"⟩ ∈ node.leaves ∧
      elementLeaf Options.default.bundleExpression menuFirst ⟨"list", "List"⟩ ∉ node.leaves ∧
      elementLeaf Options.default.bundleExpression menuFirst ⟨"name", "Name"⟩ ∉ node.leaves := by
  have hsorted : [menuFirst, menuOther].Pairwise fun a b => a.locale.le b.locale := by decide
  obtain ⟨hnodes, hall⟩ := storyboards_serve .default [menuFirst, menuOther]
  obtain ⟨node, hnode, -⟩ := hnodes "Main" ⟨by decide, by decide +kernel, by decide +kernel⟩
  obtain ⟨first, rest, initial, accessors, hvariants, -, -, hserves⟩ := hall node hnode
  have hfirst := (Template.mem_variantsOf_iff.mp (hvariants ▸ List.mem_cons_self ..)).1
  have hname : first.name = "Main" := by
    rcases List.mem_pair.mp hfirst with rfl | rfl <;> rfl
  have hmerged : variantsOf [menuFirst, menuOther] .storyboard "Main" = [menuFirst, menuOther] :=
    List.mergeSort_of_pairwise hsorted
  rw [hname, hmerged] at hvariants
  obtain ⟨rfl, rfl⟩ := List.cons.inj hvariants
  refine ⟨node, hnode, hserves.hasInitial_iff.mpr ⟨["Root"], by decide, by decide⟩, ?_, ?_, ?_⟩
  · refine (hserves.accessor_iff _).mpr ⟨by decide, by decide, by decide +kernel, by decide +kernel,
      fun before behind hsplit other ho _ => ?_⟩
    exact ofName_ne_of_nodup (hsplit ▸ by decide +kernel) other ho
  · intro h
    have htyped := ((hserves.accessor_iff _).mp h).typed menuOther (by decide) ⟨"list", "Grid"⟩
    exact absurd (htyped (by decide) rfl) (by decide)
  · intro h
    exact ((hserves.accessor_iff _).mp h).free (by decide +kernel)

end Namespace

end Accessors

import Mathlib.Data.Set.Basic
import Mathlib.Tactic.Tauto
import Accessors.Proofs.Permutation
import Accessors.Proofs.Template.Merged

/-!
# Merging without an order

The merge reads its variants one after the other: tokens are compared with those kept so far, but
elements, root types and deployment targets with the first variant only. Both amount to comparing
every variant with every other. `Summary` says what the merge is without an order of the variants,
and each variant that is absorbed keeps it true. So a permutation of the variants changes no usage,
no divergence and no flag, and keeps the same tokens and the same stable elements.
-/

namespace Accessors.Template

open Record (Template TemplateKind TypedIdentifier)

theorem exists_ne_iff_of_mem {α β : Type} {f : α → β} {items : List α} {first : α}
    (h : first ∈ items) :
    (∃ item ∈ items, f first ≠ f item) ↔ ∃ a ∈ items, ∃ b ∈ items, f a ≠ f b := by
  constructor
  · rintro ⟨item, hi, hne⟩
    exact ⟨first, h, item, hi, hne⟩
  · rintro ⟨a, ha, b, hb, hne⟩
    by_cases hfirst : f first = f a
    · exact ⟨b, hb, hfirst ▸ hne⟩
    · exact ⟨a, ha, hfirst⟩

def boundTypes (identifier : String) (template : Template) : Set String :=
  {typeName | ⟨identifier, typeName⟩ ∈ template.nestedElements}

theorem mem_identifiers_unshared_iff {xs ys : List TypedIdentifier} {identifier : String} :
    identifier ∈ identifiers (unshared xs ys) ↔
      ∃ typeName,
        ¬ ((⟨identifier, typeName⟩ : TypedIdentifier) ∈ xs ↔ ⟨identifier, typeName⟩ ∈ ys) := by
  simp only [identifiers, unshared, List.mem_map, List.mem_append, List.mem_filter,
    Bool.not_eq_true', Bool.eq_false_iff, ne_eq, List.contains_iff_mem]
  constructor
  · rintro ⟨⟨_, typeName⟩, ⟨hx, hy⟩ | ⟨hy, hx⟩, rfl⟩
    · exact ⟨typeName, fun h => hy (h.mp hx)⟩
    · exact ⟨typeName, fun h => hx (h.mpr hy)⟩
  · rintro ⟨typeName, hne⟩
    refine ⟨⟨identifier, typeName⟩, ?_, rfl⟩
    by_cases hx : (⟨identifier, typeName⟩ : TypedIdentifier) ∈ xs
    · exact .inl ⟨hx, fun hy => hne ⟨fun _ => hy, fun _ => hx⟩⟩
    · exact .inr ⟨Classical.byContradiction fun hy =>
        hne ⟨fun h => absurd h hx, fun h => absurd h hy⟩, hx⟩

theorem mem_unshared_elements_iff {a b : Template} {identifier : String} :
    identifier ∈ identifiers (unshared a.nestedElements b.nestedElements) ↔
      boundTypes identifier a ≠ boundTypes identifier b := by
  rw [mem_identifiers_unshared_iff, ne_eq, Set.ext_iff, not_forall]
  rfl

namespace Merged

/-- The merge of all the variants, of which one comes first. -/
structure Summary (first : Template) (variants : List Template) (merged : Merged) : Prop where
  mem_first : first ∈ variants
  increasingImages : Increasing merged.template.usedImages
  mem_usedImages : ∀ image, image ∈ merged.template.usedImages ↔
    ∃ variant ∈ variants, image ∈ variant.usedImages
  increasingColors : Increasing merged.template.usedColors
  mem_usedColors : ∀ color, color ∈ merged.template.usedColors ↔
    ∃ variant ∈ variants, color ∈ variant.usedColors
  reuseTokens : merged.template.reuseTokens =
    first.reuseTokens.filter fun token => decide (∀ variant ∈ variants, token ∈ variant.reuseTokens)
  increasingTokens : Increasing merged.divergentReuseTokens
  mem_divergentReuseTokens : ∀ identifier, identifier ∈ merged.divergentReuseTokens ↔
    ∃ token : TypedIdentifier, token.identifier = identifier ∧
      (∃ variant ∈ variants, token ∈ variant.reuseTokens) ∧
      ∃ variant ∈ variants, token ∉ variant.reuseTokens
  increasingElements : Increasing merged.divergentNestedElements
  mem_divergentNestedElements : ∀ identifier, identifier ∈ merged.divergentNestedElements ↔
    ∃ a ∈ variants, ∃ b ∈ variants, boundTypes identifier a ≠ boundTypes identifier b
  rootTypesDiffer : merged.rootTypesDiffer = true ↔
    ∃ a ∈ variants, ∃ b ∈ variants, a.rootTypes ≠ b.rootTypes
  deploymentDiffers : merged.deploymentDiffers = true ↔
    ∃ a ∈ variants, ∃ b ∈ variants, a.deploymentTarget ≠ b.deploymentTarget
  rootTypes : merged.template.rootTypes = first.rootTypes
  nestedElements : merged.template.nestedElements = first.nestedElements
  deploymentTarget : merged.template.deploymentTarget = first.deploymentTarget

namespace Summary

variable {first other : Template} {variants : List Template} {merged : Merged}

theorem mem_reuseTokens (h : Summary first variants merged) {token : TypedIdentifier} :
    token ∈ merged.template.reuseTokens ↔ ∀ variant ∈ variants, token ∈ variant.reuseTokens := by
  rw [h.reuseTokens, List.mem_filter, decide_eq_true_eq]
  exact and_iff_right_of_imp fun hall => hall first h.mem_first

theorem ofFirst (first : Template) : Summary first [first] (.ofFirst first) where
  mem_first := List.mem_singleton_self first
  increasingImages := increasing_distinct _
  mem_usedImages := by simp [Merged.ofFirst]
  increasingColors := increasing_distinct _
  mem_usedColors := by simp [Merged.ofFirst]
  reuseTokens := (List.filter_eq_self.mpr fun _ ht => decide_eq_true fun _ hv =>
    List.mem_singleton.mp hv ▸ ht).symm
  increasingTokens := List.Pairwise.nil
  mem_divergentReuseTokens := by simp [Merged.ofFirst]
  increasingElements := List.Pairwise.nil
  mem_divergentNestedElements := by simp [Merged.ofFirst]
  rootTypesDiffer := by simp [Merged.ofFirst]
  deploymentDiffers := by simp [Merged.ofFirst]
  rootTypes := rfl
  nestedElements := rfl
  deploymentTarget := rfl

theorem exists_ne_append_iff {β : Type} (h : Summary first variants merged) (f : Template → β) :
    ((∃ a ∈ variants, ∃ b ∈ variants, f a ≠ f b) ∨ f first ≠ f other) ↔
      ∃ a ∈ variants ++ [other], ∃ b ∈ variants ++ [other], f a ≠ f b := by
  rw [← exists_ne_iff_of_mem h.mem_first,
    ← exists_ne_iff_of_mem (List.mem_append_left [other] h.mem_first)]
  simp [or_and_right, exists_or]

theorem divergent_append_iff (h : Summary first variants merged) (token : TypedIdentifier) :
    ((∃ variant ∈ variants, token ∈ variant.reuseTokens) ∧
          (∃ variant ∈ variants, token ∉ variant.reuseTokens) ∨
        ¬ (token ∈ merged.template.reuseTokens ↔ token ∈ other.reuseTokens)) ↔
      (∃ variant ∈ variants ++ [other], token ∈ variant.reuseTokens) ∧
        ∃ variant ∈ variants ++ [other], token ∉ variant.reuseTokens := by
  have hsome : (∀ variant ∈ variants, token ∈ variant.reuseTokens) →
      ∃ variant ∈ variants, token ∈ variant.reuseTokens :=
    fun hall => ⟨first, h.mem_first, hall first h.mem_first⟩
  have hlacking : (∃ variant ∈ variants, token ∉ variant.reuseTokens) ↔
      ¬ ∀ variant ∈ variants, token ∈ variant.reuseTokens := by simp
  rw [h.mem_reuseTokens]
  simp only [List.mem_append, List.mem_singleton, or_and_right, exists_or, exists_eq_left, hlacking]
  generalize (∀ variant ∈ variants, token ∈ variant.reuseTokens) = all at hsome ⊢
  generalize (∃ variant ∈ variants, token ∈ variant.reuseTokens) = some at hsome ⊢
  tauto

theorem absorb (h : Summary first variants merged) (other : Template) :
    Summary first (variants ++ [other]) (merged.absorb other) where
  mem_first := List.mem_append_left _ h.mem_first
  increasingImages := increasing_distinct _
  mem_usedImages := by simp [Merged.absorb, h.mem_usedImages, or_and_right, exists_or]
  increasingColors := increasing_distinct _
  mem_usedColors := by simp [Merged.absorb, h.mem_usedColors, or_and_right, exists_or]
  reuseTokens := by
    simp only [Merged.absorb, h.reuseTokens, List.filter_filter]
    apply List.filter_congr
    intro token _
    simp [or_imp, forall_and, and_comm]
  increasingTokens := increasing_distinct _
  mem_divergentReuseTokens := by
    intro identifier
    rw [Merged.absorb, mem_distinct, List.mem_append, h.mem_divergentReuseTokens,
      mem_identifiers_unshared_iff]
    simp only [← h.divergent_append_iff]
    constructor
    · rintro (⟨token, hi, hdivergent⟩ | ⟨typeName, hne⟩)
      · exact ⟨token, hi, .inl hdivergent⟩
      · exact ⟨⟨identifier, typeName⟩, rfl, .inr hne⟩
    · rintro ⟨token, rfl, hdivergent | hne⟩
      · exact .inl ⟨token, rfl, hdivergent⟩
      · exact .inr ⟨token.typeName, hne⟩
  increasingElements := increasing_distinct _
  mem_divergentNestedElements := by
    intro identifier
    rw [Merged.absorb, mem_distinct, List.mem_append, h.mem_divergentNestedElements,
      h.nestedElements, mem_unshared_elements_iff, h.exists_ne_append_iff]
  rootTypesDiffer := by
    simp only [Merged.absorb, Bool.or_eq_true, h.rootTypesDiffer, h.rootTypes, bne_iff_ne]
    exact h.exists_ne_append_iff Template.rootTypes
  deploymentDiffers := by
    simp only [Merged.absorb, Bool.or_eq_true, h.deploymentDiffers, h.deploymentTarget, bne_iff_ne]
    exact h.exists_ne_append_iff Template.deploymentTarget
  rootTypes := h.rootTypes
  nestedElements := h.nestedElements
  deploymentTarget := h.deploymentTarget

theorem foldl_absorb (h : Summary first variants merged) (rest : List Template) :
    Summary first (variants ++ rest) (rest.foldl Merged.absorb merged) := by
  induction rest generalizing variants merged with
  | nil => rwa [List.append_nil]
  | cons other rest ih => simpa using ih (h.absorb other)

theorem mem_stableElements_iff (h : Summary first variants merged) {element : TypedIdentifier} :
    element ∈ merged.stableElements ↔
      (∀ variant ∈ variants, element ∈ variant.nestedElements) ∧
        element.identifier ∉ merged.divergentNestedElements := by
  simp only [stableElements, List.mem_filter, h.nestedElements, Bool.not_eq_true',
    Bool.eq_false_iff, ne_eq, List.contains_iff_mem]
  refine and_congr_left fun hstable => ⟨fun hfirst variant hv => ?_, fun hall =>
    hall first h.mem_first⟩
  rw [h.mem_divergentNestedElements] at hstable
  have hsame : boundTypes element.identifier first = boundTypes element.identifier variant :=
    Classical.byContradiction fun hne => hstable ⟨first, h.mem_first, variant, hv, hne⟩
  exact (Set.ext_iff.mp hsame element.typeName).mp hfirst

end Summary

/-- Whatever the merged template lists is listed by some variant. -/
structure Drawn (variants : List Template) (merged : Merged) : Prop where
  usedImages : ∀ image ∈ merged.template.usedImages,
    ∃ variant ∈ variants, image ∈ variant.usedImages
  usedColors : ∀ color ∈ merged.template.usedColors,
    ∃ variant ∈ variants, color ∈ variant.usedColors
  rootTypes : ∀ typeName ∈ merged.template.rootTypes,
    ∃ variant ∈ variants, typeName ∈ variant.rootTypes
  nestedElements : ∀ element ∈ merged.template.nestedElements,
    ∃ variant ∈ variants, element ∈ variant.nestedElements
  reuseTokens : ∀ token ∈ merged.template.reuseTokens,
    ∃ variant ∈ variants, token ∈ variant.reuseTokens

/-- The merges differ in what is taken from the first variant only. -/
structure Alike (a b : Merged) : Prop where
  usedImages : a.template.usedImages = b.template.usedImages
  usedColors : a.template.usedColors = b.template.usedColors
  reuseTokens : ∀ token, token ∈ a.template.reuseTokens ↔ token ∈ b.template.reuseTokens
  divergentReuseTokens : a.divergentReuseTokens = b.divergentReuseTokens
  divergentNestedElements : a.divergentNestedElements = b.divergentNestedElements
  rootTypesDiffer : a.rootTypesDiffer = b.rootTypesDiffer
  deploymentDiffers : a.deploymentDiffers = b.deploymentDiffers
  stableElements : ∀ element, element ∈ a.stableElements ↔ element ∈ b.stableElements

namespace Summary

variable {first head : Template} {variants others : List Template} {merged other : Merged}

theorem drawn (h : Summary first variants merged) : Drawn variants merged where
  usedImages := fun image => (h.mem_usedImages image).mp
  usedColors := fun color => (h.mem_usedColors color).mp
  rootTypes := fun _ ht => ⟨first, h.mem_first, h.rootTypes ▸ ht⟩
  nestedElements := fun _ he => ⟨first, h.mem_first, h.nestedElements ▸ he⟩
  reuseTokens := fun _ ht => ⟨first, h.mem_first, h.mem_reuseTokens.mp ht first h.mem_first⟩

theorem alike (h : Summary first variants merged) (ho : Summary head others other)
    (hsame : ∀ variant, variant ∈ others ↔ variant ∈ variants) : Alike merged other := by
  have helements : merged.divergentNestedElements = other.divergentNestedElements :=
    h.increasingElements.eq_of_mem_iff ho.increasingElements fun identifier => by
      simp only [h.mem_divergentNestedElements, ho.mem_divergentNestedElements, hsame]
  exact
    { usedImages := h.increasingImages.eq_of_mem_iff ho.increasingImages fun image => by
        simp only [h.mem_usedImages, ho.mem_usedImages, hsame]
      usedColors := h.increasingColors.eq_of_mem_iff ho.increasingColors fun color => by
        simp only [h.mem_usedColors, ho.mem_usedColors, hsame]
      reuseTokens := fun token => by simp only [h.mem_reuseTokens, ho.mem_reuseTokens, hsame]
      divergentReuseTokens :=
        h.increasingTokens.eq_of_mem_iff ho.increasingTokens fun identifier => by
          simp only [h.mem_divergentReuseTokens, ho.mem_divergentReuseTokens, hsame]
      divergentNestedElements := helements
      rootTypesDiffer := Bool.eq_iff_iff.mpr <| by
        simp only [h.rootTypesDiffer, ho.rootTypesDiffer, hsame]
      deploymentDiffers := Bool.eq_iff_iff.mpr <| by
        simp only [h.deploymentDiffers, ho.deploymentDiffers, hsame]
      stableElements := fun element => by
        simp only [h.mem_stableElements_iff, ho.mem_stableElements_iff, hsame, helements] }

end Summary

end Merged

theorem exists_summary (first : Template) (rest : List Template) :
    ∃ merged, mergeVariants (first :: rest) = some merged ∧
      Merged.Summary first (first :: rest) merged :=
  ⟨_, rfl, (Merged.Summary.ofFirst first).foldl_absorb rest⟩

/-- The merge of variants is their summary, draws only on them, and depends on their order in
nothing but what it takes from the first one. -/
theorem mergeVariants_order_free (first : Template) (rest : List Template) :
    ∃ merged, mergeVariants (first :: rest) = some merged ∧
      Merged.Summary first (first :: rest) merged ∧ Merged.Drawn (first :: rest) merged ∧
      ∀ others : List Template, others.Perm (first :: rest) →
        ∃ other, mergeVariants others = some other ∧ Merged.Alike merged other := by
  obtain ⟨merged, hmerged, hsummary⟩ := exists_summary first rest
  refine ⟨merged, hmerged, hsummary, hsummary.drawn, fun others hperm => ?_⟩
  cases others with
  | nil => exact absurd hperm.symm.eq_nil (List.cons_ne_nil first rest)
  | cons head tail =>
    obtain ⟨other, hother, ho⟩ := exists_summary head tail
    exact ⟨other, hother, hsummary.alike ho fun _ => hperm.mem_iff⟩

def sampleFirst : Template :=
  ⟨.storyboard, "Main", .base, ["Root"], [⟨"list", "List"⟩, ⟨"list", "Grid"⟩, ⟨"menu", "Menu"⟩],
    [⟨"cell", "Cell"⟩, ⟨"badge", "Badge"⟩], ["star", "avatar"], [], none⟩

def sampleRest : List Template := [
  ⟨.storyboard, "Main", .language "de", ["Root"], [⟨"menu", "Menu"⟩, ⟨"list", "List"⟩],
    [⟨"badge", "Other"⟩, ⟨"cell", "Cell"⟩], ["star"], ["tint"], none⟩,
  ⟨.storyboard, "Main", .language "fr", ["Start"], [⟨"list", "Grid"⟩, ⟨"menu", "Menu"⟩],
    [⟨"cell", "Cell"⟩, ⟨"badge", "Badge"⟩], [], ["tint"], none⟩]

theorem mergeVariants_order_free_sample :
    ∃ merged, mergeVariants (sampleFirst :: sampleRest) = some merged ∧
      merged.template.usedImages = ["avatar", "star"] ∧
      merged.template.reuseTokens = [⟨"cell", "Cell"⟩] ∧
      merged.divergentReuseTokens = ["badge"] ∧ merged.divergentNestedElements = ["list"] ∧
      merged.rootTypesDiffer = true ∧ merged.deploymentDiffers = false ∧
      (sampleRest ++ [sampleFirst]).Perm (sampleFirst :: sampleRest) ∧
      ∃ other, mergeVariants (sampleRest ++ [sampleFirst]) = some other ∧
        Merged.Alike merged other := by
  obtain ⟨merged, hmerged, -, -, hperm⟩ := mergeVariants_order_free sampleFirst sampleRest
  have hrotated := List.perm_append_singleton sampleFirst sampleRest
  refine ⟨merged, hmerged, ?_, ?_, ?_, ?_, ?_, ?_, hrotated, hperm _ hrotated⟩
  all_goals
    obtain rfl := Option.some.inj hmerged
    decide +kernel

def OncePerLocale (templates : List Template) : Prop :=
  (templates.map fun template => (template.kind, template.name, template.locale)).Nodup

theorem OncePerLocale.nodup_locales {templates : List Template} (h : OncePerLocale templates)
    (kind : TemplateKind) (name : String) :
    (((templates.filter (·.kind == kind)).filter (·.name == name)).map Template.locale).Nodup := by
  have hsub : ((templates.filter (·.kind == kind)).filter (·.name == name)).Sublist templates :=
    List.filter_sublist.trans List.filter_sublist
  have hd := List.pairwise_map.mp (h.sublist (hsub.map _))
  refine List.pairwise_map.mpr (hd.imp_of_mem fun {a b} ha hb hne he => hne ?_)
  obtain ⟨ha, haname⟩ := List.mem_filter.mp ha
  obtain ⟨hb, hbname⟩ := List.mem_filter.mp hb
  have hakind := (List.mem_filter.mp ha).2
  have hbkind := (List.mem_filter.mp hb).2
  simp only [beq_iff_eq] at haname hbname hakind hbkind
  rw [haname, hbname, hakind, hbkind, he]

theorem mergeAll_eq_of_perm {templates others : List Template} (h : templates.Perm others)
    (hd : OncePerLocale templates) : mergeAll templates = mergeAll others := by
  refine List.flatMap_congr fun kind _ => ?_
  have hkind := h.filter (·.kind == kind)
  have hbuckets : (buckets Template.name (templates.filter (·.kind == kind))).map
        (fun bucket => mergeVariants (sortByLocale bucket.2)) =
      (buckets Template.name (others.filter (·.kind == kind))).map
        (fun bucket => mergeVariants (sortByLocale bucket.2)) :=
    map_buckets_eq_of_perm hkind fun name => congrArg mergeVariants
      (Locale.mergeSort_eq_of_perm (hkind.filter _) (hd.nodup_locales kind name))
  have hmerged := congrArg (List.filterMap id) hbuckets
  rwa [List.filterMap_map, List.filterMap_map] at hmerged

theorem mergeAll_of_pairwise {templates : List Template}
    (h : templates.Pairwise fun a b => a.locale.le b.locale) :
    mergeAll templates = [TemplateKind.nib, TemplateKind.storyboard].flatMap fun kind =>
      (buckets Template.name (templates.filter (·.kind == kind))).filterMap fun bucket =>
        mergeVariants bucket.2 := by
  refine List.flatMap_congr fun kind _ => List.filterMap_congr fun bucket hbucket => ?_
  rw [(mem_buckets_iff.mp hbucket).2]
  have hsub := (List.filter_sublist (p := (Template.name · == bucket.1))).trans
    (List.filter_sublist (l := templates) (p := (Template.kind · == kind)))
  exact congrArg mergeVariants (List.mergeSort_of_pairwise (h.sublist hsub))

end Accessors.Template

import Accessors.Template.Merged

/-!
# Variants that do not diverge

Where merging the variants of a template records no divergence, they all have the same nested
elements and the same reuse tokens, and the merged template has these.
-/

namespace Accessors.Template

open Record (Template TemplateKind TypedIdentifier)

theorem unshared_eq_nil_iff {xs ys : List TypedIdentifier} :
    unshared xs ys = [] ↔ ∀ x, x ∈ xs ↔ x ∈ ys := by
  simp only [unshared, List.append_eq_nil_iff, List.filter_eq_nil_iff, Bool.not_eq_true',
    Bool.not_eq_false, List.contains_iff_mem]
  exact ⟨fun h x => ⟨h.1 x, h.2 x⟩, fun h => ⟨fun x => (h x).mp, fun x => (h x).mpr⟩⟩

theorem distinct_eq_nil_iff {keys : List String} : distinct keys = [] ↔ keys = [] := by
  simp only [List.eq_nil_iff_forall_not_mem, mem_distinct]

namespace Merged

structure Undivided (merged : Merged) : Prop where
  elements : merged.divergentNestedElements = []
  tokens : merged.divergentReuseTokens = []

structure Agrees (template variant : Template) : Prop where
  elements : ∀ element, element ∈ template.nestedElements ↔ element ∈ variant.nestedElements
  tokens : ∀ token, token ∈ template.reuseTokens ↔ token ∈ variant.reuseTokens

theorem agrees_of_absorb {merged : Merged} {other : Template}
    (h : (merged.absorb other).Undivided) :
    merged.Undivided ∧ Agrees merged.template other := by
  obtain ⟨helements, htokens⟩ := h
  simp only [absorb, distinct_eq_nil_iff, List.append_eq_nil_iff, identifiers,
    List.map_eq_nil_iff] at helements htokens
  exact ⟨⟨helements.1, htokens.1⟩, unshared_eq_nil_iff.mp helements.2,
    unshared_eq_nil_iff.mp htokens.2⟩

theorem reuseTokens_absorb {merged : Merged} {other : Template}
    (h : Agrees merged.template other) :
    (merged.absorb other).template.reuseTokens = merged.template.reuseTokens :=
  List.filter_eq_self.mpr fun token ht =>
    List.contains_iff_mem.mpr ((h.tokens token).mp ht)

theorem foldl_absorb {merged : Merged} {rest : List Template}
    (h : (rest.foldl absorb merged).Undivided) :
    merged.Undivided ∧
      (rest.foldl absorb merged).template.nestedElements = merged.template.nestedElements ∧
      (rest.foldl absorb merged).template.reuseTokens = merged.template.reuseTokens ∧
      ∀ variant ∈ rest, Agrees merged.template variant := by
  induction rest generalizing merged with
  | nil => exact ⟨h, rfl, rfl, nofun⟩
  | cons other rest ih =>
    obtain ⟨habsorb, helements, htokens, hrest⟩ := ih h
    obtain ⟨hmerged, hother⟩ := agrees_of_absorb habsorb
    have hsame := reuseTokens_absorb hother
    refine ⟨hmerged, helements, htokens.trans hsame, fun variant hv => ?_⟩
    rcases List.mem_cons.mp hv with rfl | hv
    · exact hother
    · obtain ⟨he, ht⟩ := hrest variant hv
      rw [hsame] at ht
      exact ⟨he, ht⟩

theorem kind_name_foldl_absorb (merged : Merged) (rest : List Template) :
    (rest.foldl absorb merged).template.kind = merged.template.kind ∧
      (rest.foldl absorb merged).template.name = merged.template.name := by
  induction rest generalizing merged with
  | nil => exact ⟨rfl, rfl⟩
  | cons other rest ih => exact ih (merged.absorb other)

end Merged

theorem agrees_of_mergeVariants {variants : List Template} {merged : Merged}
    (h : mergeVariants variants = some merged) (hu : merged.Undivided) {variant : Template}
    (hv : variant ∈ variants) : Merged.Agrees merged.template variant := by
  cases variants with
  | nil => cases hv
  | cons first rest =>
    obtain rfl := Option.some.inj h
    obtain ⟨-, helements, htokens, hrest⟩ := Merged.foldl_absorb hu
    obtain ⟨he, ht⟩ : Merged.Agrees (Merged.ofFirst first).template variant := by
      rcases List.mem_cons.mp hv with rfl | hv
      · exact ⟨fun _ => Iff.rfl, fun _ => Iff.rfl⟩
      · exact hrest variant hv
    rw [← helements] at he
    rw [← htokens] at ht
    exact ⟨he, ht⟩

theorem kind_name_of_mergeVariants {variants : List Template} {merged : Merged}
    (h : mergeVariants variants = some merged) {kind : TemplateKind} {name : String}
    (hall : ∀ variant ∈ variants, variant.kind = kind ∧ variant.name = name) :
    merged.template.kind = kind ∧ merged.template.name = name := by
  cases variants with
  | nil => cases h
  | cons first rest =>
    obtain rfl := Option.some.inj h
    obtain ⟨hkind, hname⟩ := Merged.kind_name_foldl_absorb (.ofFirst first) rest
    rw [hkind, hname]
    exact hall first (List.mem_cons_self ..)

theorem exists_merged {templates : List Template} {template : Template}
    (h : template ∈ templates) :
    ∃ merged ∈ mergeAll templates, merged.template.kind = template.kind ∧
      merged.template.name = template.name ∧
      (merged.Undivided → Merged.Agrees merged.template template) := by
  let same := templates.filter (·.kind == template.kind)
  let bucket := (template.name, same.filter (·.name == template.name))
  have hsame : template ∈ same := List.mem_filter.mpr ⟨h, beq_self_eq_true _⟩
  have hbucket : bucket ∈ buckets Template.name same :=
    mem_buckets_iff.mpr ⟨⟨template, hsame, rfl⟩, rfl⟩
  have hvariant : template ∈ sortByLocale bucket.2 :=
    List.mem_mergeSort.mpr (List.mem_filter.mpr ⟨hsame, beq_self_eq_true _⟩)
  have hall : ∀ variant ∈ sortByLocale bucket.2,
      variant.kind = template.kind ∧ variant.name = template.name := by
    intro variant hv
    obtain ⟨hv, hname⟩ := List.mem_filter.mp (List.mem_mergeSort.mp hv)
    exact ⟨beq_iff_eq.mp (List.mem_filter.mp hv).2, beq_iff_eq.mp hname⟩
  obtain ⟨merged, hmerged⟩ : ∃ merged, mergeVariants (sortByLocale bucket.2) = some merged := by
    cases hsorted : sortByLocale bucket.2 with
    | nil =>
      rw [hsorted] at hvariant
      cases hvariant
    | cons first rest => exact ⟨_, rfl⟩
  obtain ⟨hkind, hname⟩ := kind_name_of_mergeVariants hmerged hall
  refine ⟨merged, List.mem_flatMap.mpr ⟨template.kind, ?_, ?_⟩, hkind, hname,
    fun hu => agrees_of_mergeVariants hmerged hu hvariant⟩
  · cases template.kind <;> decide
  · exact List.mem_filterMap.mpr ⟨bucket, hbucket, hmerged⟩

end Accessors.Template

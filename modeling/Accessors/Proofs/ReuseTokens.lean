import Accessors.Proofs.Namespace.Bindings
import Accessors.Proofs.Namespace.Complete
import Accessors.Proofs.Template.OrderFree
import Accessors.Proofs.Tree

/-!
# Reuse identifiers that are reported

A merge compares reuse tokens with their types, but reports identifiers. So a reported identifier
keeps a token if the variants share it with one type and differ in another. Where no variant gives
an identifier two types, an identifier that is reported is bound nowhere.
-/

namespace Accessors

open Record (AssetKind Resources Template TemplateKind TypedIdentifier)
open Accessors.Symbol (Leaf)
open Template (Merged identifiers mergeAll)

namespace Template

/-- All variants have a token of the identifier, and some but not all have another one. -/
structure PartlyShared (variants : List Template) (identifier : String) : Prop where
  shared : ∃ token : TypedIdentifier, token.identifier = identifier ∧
    ∀ variant ∈ variants, token ∈ variant.reuseTokens
  divided : ∃ token : TypedIdentifier, token.identifier = identifier ∧
    (∃ variant ∈ variants, token ∈ variant.reuseTokens) ∧
      ∃ variant ∈ variants, token ∉ variant.reuseTokens

theorem PartlyShared.congr {variants others : List Template} {identifier : String}
    (hmem : ∀ variant, variant ∈ variants ↔ variant ∈ others)
    (h : PartlyShared variants identifier) : PartlyShared others identifier := by
  obtain ⟨⟨token, htoken, hall⟩, lost, hlost, ⟨holder, hh, hin⟩, lacking, hl, hout⟩ := h
  exact ⟨⟨token, htoken, fun variant hv => hall variant ((hmem variant).mpr hv)⟩, lost, hlost,
    ⟨holder, (hmem holder).mp hh, hin⟩, lacking, (hmem lacking).mp hl, hout⟩

def SingleTyped (tokens : List TypedIdentifier) : Prop :=
  ∀ a ∈ tokens, ∀ b ∈ tokens, a.identifier = b.identifier → a = b

instance (tokens : List TypedIdentifier) : Decidable (SingleTyped tokens) :=
  inferInstanceAs (Decidable (∀ a ∈ tokens, ∀ b ∈ tokens, a.identifier = b.identifier → a = b))

theorem not_partlyShared {variants : List Template} {identifier : String}
    (h : ∀ variant ∈ variants, SingleTyped variant.reuseTokens) :
    ¬ PartlyShared variants identifier := by
  rintro ⟨⟨token, htoken, hall⟩, lost, hlost, ⟨holder, hh, hin⟩, lacking, hl, hout⟩
  have hsame := h holder hh token (hall holder hh) lost hin (htoken.trans hlost.symm)
  exact hout (hsame ▸ hall lacking hl)

theorem Merged.Summary.divergent_and_kept_iff {first : Template} {variants : List Template}
    {merged : Merged} (h : Merged.Summary first variants merged) (identifier : String) :
    identifier ∈ merged.divergentReuseTokens ∧
        identifier ∈ identifiers merged.template.reuseTokens ↔
      PartlyShared variants identifier := by
  rw [h.mem_divergentReuseTokens, identifiers, List.mem_map]
  constructor
  · rintro ⟨hdivided, token, ht, hi⟩
    exact ⟨⟨token, hi, h.mem_reuseTokens.mp ht⟩, hdivided⟩
  · rintro ⟨⟨token, hi, hall⟩, hdivided⟩
    exact ⟨hdivided, token, h.mem_reuseTokens.mpr hall, hi⟩

section

variable {templates : List Template} {kind : TemplateKind} {name identifier : String}
  {merged reporting : Merged}

theorem mergeVariants_of_mem_mergeAll
    (hall : ∀ template ∈ templates, template.kind = kind ∧ template.name = name)
    (h : merged ∈ mergeAll templates) : mergeVariants (sortByLocale templates) = some merged := by
  obtain ⟨held, -, h⟩ := List.mem_flatMap.mp h
  obtain ⟨bucket, hbucket, hmerged⟩ := List.mem_filterMap.mp h
  obtain ⟨⟨template, ht, hname⟩, hitems⟩ := mem_buckets_iff.mp hbucket
  obtain ⟨ht, hkind⟩ := List.mem_filter.mp ht
  obtain ⟨htkind, htname⟩ := hall template ht
  have hsame : templates.filter (·.kind == held) = templates :=
    List.filter_eq_self.mpr fun other ho => by
      rw [(hall other ho).1, ← htkind]
      exact hkind
  rw [hsame, List.filter_eq_self.mpr fun other ho => by
    rw [(hall other ho).2, ← hname, htname]
    exact beq_self_eq_true name] at hitems
  rwa [hitems] at hmerged

theorem partlyShared_of_mem_mergeAll
    (hall : ∀ template ∈ templates, template.kind = kind ∧ template.name = name)
    (hr : reporting ∈ mergeAll templates) (hd : identifier ∈ reporting.divergentReuseTokens)
    (hm : merged ∈ mergeAll templates) (ht : identifier ∈ identifiers merged.template.reuseTokens) :
    PartlyShared templates identifier := by
  have hmerged := mergeVariants_of_mem_mergeAll hall hm
  obtain rfl : merged = reporting :=
    Option.some.inj (hmerged.symm.trans (mergeVariants_of_mem_mergeAll hall hr))
  have hmem : ∀ variant, variant ∈ sortByLocale templates ↔ variant ∈ templates :=
    fun variant => List.mem_mergeSort
  generalize sortByLocale templates = sorted at hmerged hmem
  cases sorted with
  | nil => cases hmerged
  | cons first rest =>
    obtain ⟨summed, hsummed, hsummary⟩ := exists_summary first rest
    obtain rfl := Option.some.inj (hmerged.symm.trans hsummed)
    exact ((hsummary.divergent_and_kept_iff identifier).mp ⟨hd, ht⟩).congr hmem

end

end Template

namespace Namespace

variable {merged : Merged} {templates : List Merged} {options : Options} {kind : TemplateKind}
  {name identifier : String} {leaf : Leaf} {path : List String}

theorem mem_divergent_of_divergences
    (h : .reuseDivergent kind name identifier ∈ divergences merged) :
    identifier ∈ merged.divergentReuseTokens := by
  simp only [divergences, List.mem_append] at h
  rcases h with ((h | h) | h) | h
  · split at h <;> simp at h
  · simp at h
  · obtain ⟨held, hheld, he⟩ := List.mem_map.mp h
    obtain ⟨-, -, rfl⟩ := Notice.reuseDivergent.inj he
    exact hheld
  · split at h <;> simp at h

theorem mem_divergent_of_storyboard {bundle : String}
    (h : .reuseDivergent kind name identifier ∈ (storyboard bundle merged).notices) :
    identifier ∈ merged.divergentReuseTokens := by
  simp only [storyboard, Noted.bind_notices, Noted.give_notices, Noted.pure_notices,
    List.append_nil] at h
  rcases List.mem_append.mp h with h | h
  · exact mem_divergent_of_divergences h
  · obtain ⟨member, hm, h⟩ := exists_member_of_mem_notices h (by simp) (by simp)
    obtain ⟨element, -, rfl⟩ := List.mem_map.mp hm
    simp only [elementMember] at h
    split at h <;> simp at h

theorem exists_merged_of_notice {what scope : String} {held : TemplateKind}
    {inner : Merged → Noted Contents}
    (hinner : ∀ merged, .reuseDivergent kind name identifier ∈ (inner merged).notices →
      identifier ∈ merged.divergentReuseTokens)
    (h : .reuseDivergent kind name identifier ∈
      (assemble what scope ((ofKind held templates).map fun merged =>
        .child merged.template.name (inner merged))).notices) :
    ∃ merged ∈ templates, identifier ∈ merged.divergentReuseTokens := by
  obtain ⟨member, hm, h⟩ := exists_member_of_mem_notices h (by simp) (by simp)
  obtain ⟨merged, hmerged, rfl⟩ := List.mem_map.mp hm
  rw [notices_child] at h
  exact ⟨merged, (List.mem_filter.mp hmerged).1, hinner merged h⟩

theorem not_mem_notices_reuseIdentifiers :
    .reuseDivergent kind name identifier ∉ (reuseIdentifiers templates).notices := by
  intro h
  simp only [reuseIdentifiers, Noted.bind_notices, Noted.give_notices] at h
  rcases List.mem_append.mp h with h | h
  · obtain ⟨types, -, h⟩ := List.mem_filterMap.mp h
    simp only [tokenConflict?] at h
    split at h <;> simp at h
  · obtain ⟨member, hm, h⟩ := exists_member_of_mem_notices h (by simp) (by simp)
    obtain ⟨token, -, rfl⟩ := List.mem_map.mp hm
    cases h

def BindsReuse (identifier : String) (leaf : Leaf) : Prop :=
  ∃ token : TypedIdentifier, token.identifier = identifier ∧ leaf = reuseLeaf leaf.name token

theorem BindsReuse.shape (h : BindsReuse identifier leaf) : leaf.shape = .constant := by
  obtain ⟨token, -, h⟩ := h
  rw [h]
  rfl

theorem bindsReuse_reuseLeaf {token : TypedIdentifier} :
    BindsReuse identifier (reuseLeaf name token) ↔ token.identifier = identifier := by
  refine ⟨fun ⟨other, hother, h⟩ => ?_, fun h => ⟨token, h, rfl⟩⟩
  rw [reuseLeaf_binding_iff.mp (congrArg Leaf.binding h)]
  exact hother

theorem not_bindsReuse_nameLeaf (template : Template) :
    ¬ BindsReuse identifier (nameLeaf template) := by
  rintro ⟨token, -, h⟩
  have htype : "String" = "ReuseIdentifier<" ++ token.typeName ++ ">" := congrArg Leaf.typeName h
  have hchars := congrArg String.toList htype
  simp at hchars

theorem mem_identifiers_of_nibContents {bundle : String}
    (hl : leaf ∈ (nibContents bundle merged).leaves) (hb : BindsReuse identifier leaf) :
    identifier ∈ identifiers merged.template.reuseTokens := by
  -- The name has another type, and what takes an owner is a function; the token is left.
  simp only [nibContents, List.mem_append] at hl
  rcases hl with (hl | hl) | hl
  · rcases List.mem_pair.mp hl with rfl | rfl
    · exact absurd hb (not_bindsReuse_nameLeaf _)
    · cases hb.shape
  · split at hl
    · cases hl
    · obtain ⟨root, -, rfl⟩ := List.mem_map.mp hl
      cases hb.shape
  · obtain ⟨token, ht, rfl⟩ := List.mem_map.mp hl
    exact List.mem_map.mpr ⟨token, List.mem_of_mem_head? (Option.mem_toList.mp ht),
      bindsReuse_reuseLeaf.mp hb⟩

theorem exists_merged_of_has_nibs (h : ((nibs options templates).value.node name).Has path leaf)
    (hb : BindsReuse identifier leaf) :
    ∃ merged ∈ templates, identifier ∈ identifiers merged.template.reuseTokens := by
  obtain ⟨merged, hm, below, h⟩ := exists_child_of_has h
  exact ⟨merged, (List.mem_filter.mp hm).1,
    mem_identifiers_of_nibContents (Contents.has_of_children_eq_nil rfl h) hb⟩

theorem not_bindsReuse_of_storyboard {bundle : String}
    (hl : leaf ∈ (storyboard bundle merged).value.leaves) : ¬ BindsReuse identifier leaf := by
  intro hb
  rw [value_storyboard] at hl
  rcases List.mem_append.mp hl with hl | hl
  · rcases List.mem_cons.mp hl with rfl | hl
    · exact not_bindsReuse_nameLeaf _ hb
    · split at hl
      · cases hl
      · obtain ⟨root, -, rfl⟩ := List.mem_map.mp hl
        cases hb.shape
  · obtain ⟨named, hnamed, hl⟩ := mem_leaves_assemble.mp hl
    obtain ⟨element, -, hitem⟩ := List.mem_map.mp (mem_keptMembers hnamed).1
    rw [← hitem] at hl
    simp only [elementMember] at hl
    split at hl
    · cases hl
    · obtain rfl := List.mem_singleton.mp hl
      cases hb.shape

theorem children_storyboard (bundle : String) (merged : Merged) :
    (storyboard bundle merged).value.children = [] := by
  rw [value_storyboard]
  refine List.append_eq_nil_iff.mpr ⟨rfl, children_assemble_eq_nil _ _ fun member hm => ?_⟩
  obtain ⟨element, -, rfl⟩ := List.mem_map.mp hm
  exact children_elementMember ..

theorem not_bindsReuse_of_has_storyboards
    (h : ((storyboards options templates).value.node name).Has path leaf) :
    ¬ BindsReuse identifier leaf := by
  obtain ⟨merged, -, below, h⟩ := exists_child_of_has h
  exact not_bindsReuse_of_storyboard
    (Contents.has_of_children_eq_nil (children_storyboard ..) h)

theorem token?_eq_some_iff {types : String × List String} {token : TypedIdentifier} :
    token? types = some token ↔ types = (token.identifier, [token.typeName]) := by
  obtain ⟨identifier, types⟩ := types
  obtain ⟨held, typeName⟩ := token
  match types with
  | [] => simp [token?]
  | [used] => simp [token?]
  | first :: second :: rest => simp [token?]

theorem mem_identifiers_of_tokenTypes {types : String × List String}
    (h : types ∈ tokenTypes templates) :
    ∃ merged ∈ templates, types.1 ∈ identifiers merged.template.reuseTokens := by
  obtain ⟨bucket, hbucket, rfl⟩ := List.mem_map.mp h
  obtain ⟨token, ht, hkey⟩ := (mem_buckets_iff.mp hbucket).1
  obtain ⟨merged, hm, ht⟩ := List.mem_flatMap.mp ht
  exact ⟨merged, hm, List.mem_map.mpr ⟨token, ht, hkey⟩⟩

theorem exists_merged_of_has_reuseIdentifiers
    (h : ((reuseIdentifiers templates).value.node name).Has path leaf)
    (hb : BindsReuse identifier leaf) :
    ∃ merged ∈ templates, identifier ∈ identifiers merged.template.reuseTokens := by
  simp only [reuseIdentifiers, Noted.bind_value] at h
  have hl := Contents.has_of_children_eq_nil (children_assemble_eq_nil _ _ fun member hm => by
    obtain ⟨token, -, rfl⟩ := List.mem_map.mp hm
    rfl) h
  obtain ⟨named, hnamed, hl⟩ := mem_leaves_assemble.mp hl
  obtain ⟨token, ht, hitem⟩ := List.mem_map.mp (mem_keptMembers hnamed).1
  rw [← hitem] at hl
  obtain ⟨types, htypes, ht⟩ := List.mem_filterMap.mp ht
  obtain rfl : leaf = reuseLeaf _ token := List.mem_singleton.mp hl
  have htoken := mem_identifiers_of_tokenTypes htypes
  rwa [token?_eq_some_iff.mp ht, bindsReuse_reuseLeaf.mp hb] at htoken

theorem media_nil (options : Options) (kind : AssetKind) :
    media options kind [] = pure .empty := by
  rw [media, show Folder.ofEntries [] = ⟨[], []⟩ from rfl, folderContents, folderMembers]
  rfl

end Namespace

section

variable {options : Options} {templates : List Template} {kind : TemplateKind}
  {name identifier : String}

def Record.Resources.ofTemplates (templates : List Template) : Resources :=
  { Resources.empty with templates := templates }

theorem contents_ofTemplates {space : Namespace}
    (h : space ∈ namespaces options (.ofTemplates templates)) :
    space.contents = Namespace.nibs options (mergeAll templates) ∨
      space.contents = Namespace.storyboards options (mergeAll templates) ∨
      space.contents = Namespace.reuseIdentifiers (mergeAll templates) ∨
      space.contents = pure .empty := by
  rcases List.mem_append.mp h with h | h
  · simp only [List.mem_cons, List.not_mem_nil, or_false] at h
    rcases h with rfl | rfl | rfl | rfl | rfl | rfl | rfl | rfl | rfl
    case inr.inl => exact .inl rfl
    case inr.inr.inl => exact .inr (.inl rfl)
    case inr.inr.inr.inr.inr.inr.inr.inr => exact .inr (.inr (.inl rfl))
    case inr.inr.inr.inl => exact .inr (.inr (.inr (Namespace.media_nil options .image)))
    case inr.inr.inr.inr.inl => exact .inr (.inr (.inr (Namespace.media_nil options .color)))
    case inr.inr.inr.inr.inr.inl => exact .inr (.inr (.inr (Namespace.media_nil options .data)))
    all_goals exact .inr (.inr (.inr rfl))
  · cases h

theorem exists_merged_of_reuseDivergent
    (h : .reuseDivergent kind name identifier ∈
      (compile options (.ofTemplates templates)).notices) :
    ∃ merged ∈ mergeAll templates, identifier ∈ merged.divergentReuseTokens := by
  rw [(gathered _ _).notices] at h
  rcases List.mem_append.mp h with h | h
  · obtain ⟨⟨held, notice⟩, hn, rfl⟩ := List.mem_map.mp h
    obtain ⟨space, hs, hn⟩ := List.mem_flatMap.mp hn
    obtain ⟨other, hn, he⟩ := List.mem_map.mp hn
    obtain ⟨-, rfl⟩ := Prod.mk.inj he
    rcases contents_ofTemplates (List.mem_filter.mp hs).1 with hc | hc | hc | hc <;> rw [hc] at hn
    · exact Namespace.exists_merged_of_notice (fun _ => Namespace.mem_divergent_of_divergences) hn
    · exact Namespace.exists_merged_of_notice (fun _ => Namespace.mem_divergent_of_storyboard) hn
    · exact absurd hn Namespace.not_mem_notices_reuseIdentifiers
    · cases hn
  · rcases Identifier.cases_of_mem_notices h with ⟨_, _, he⟩ | ⟨_, he⟩ <;> cases he

theorem exists_merged_of_bindsReuse {path : List String} {leaf : Leaf}
    (h : (compile options (.ofTemplates templates)).value.Has path leaf)
    (hb : Namespace.BindsReuse identifier leaf) :
    ∃ merged ∈ mergeAll templates, identifier ∈ identifiers merged.template.reuseTokens := by
  obtain ⟨space, hs, below, h⟩ := exists_space_of_has h
  rcases contents_ofTemplates hs with hc | hc | hc | hc <;> rw [hc] at h
  · exact Namespace.exists_merged_of_has_nibs h hb
  · exact absurd hb (Namespace.not_bindsReuse_of_has_storyboards h)
  · exact Namespace.exists_merged_of_has_reuseIdentifiers h hb
  · cases Namespace.Contents.has_of_children_eq_nil rfl h

end

/-- A merge reports and yet keeps a reuse identifier if the variants share it in part. Of one
template, a compilation binds no other reuse identifier that it reports as skipped. -/
theorem reuse_reported (options : Options) (variants : List Template) (identifier : String) :
    (variants ≠ [] → ∃ merged, Template.mergeVariants variants = some merged ∧
      (identifier ∈ merged.divergentReuseTokens ∧
          identifier ∈ identifiers merged.template.reuseTokens ↔
        Template.PartlyShared variants identifier)) ∧
      ∀ kind name, (∀ variant ∈ variants, variant.kind = kind ∧ variant.name = name) →
        .reuseDivergent kind name identifier ∈
            (compile options (.ofTemplates variants)).notices →
          ∀ path leaf, (compile options (.ofTemplates variants)).value.Has path leaf →
            Namespace.BindsReuse identifier leaf →
              Template.PartlyShared variants identifier := by
  constructor
  · intro hne
    obtain ⟨first, rest, rfl⟩ := List.exists_cons_of_ne_nil hne
    obtain ⟨merged, hmerged, hsummary⟩ := Template.exists_summary first rest
    exact ⟨merged, hmerged, hsummary.divergent_and_kept_iff identifier⟩
  · intro kind name hall hreported path leaf hl hb
    obtain ⟨reporting, hr, hd⟩ := exists_merged_of_reuseDivergent hreported
    obtain ⟨merged, hm, ht⟩ := exists_merged_of_bindsReuse hl hb
    exact Template.partlyShared_of_mem_mergeAll hall hr hd hm ht

def badgeVariants : List Template := [
  ⟨.nib, "Card", .language "de", ["UIView"], [], [⟨"cell", "Cell"⟩, ⟨"badge", "Badge"⟩], [], [],
    none⟩,
  ⟨.nib, "Card", .language "en", ["UIView"], [], [⟨"cell", "Cell"⟩], [], [], none⟩]

theorem reuse_reported_badge :
    (∃ merged, Template.mergeVariants badgeVariants = some merged ∧
      "badge" ∈ merged.divergentReuseTokens ∧
        "badge" ∉ identifiers merged.template.reuseTokens) ∧
    .reuseDivergent .nib "Card" "badge" ∈
        (compile .default (.ofTemplates badgeVariants)).notices ∧
      ∀ path leaf, (compile .default (.ofTemplates badgeVariants)).value.Has path leaf →
        ¬ Namespace.BindsReuse "badge" leaf := by
  have hsingle : ∀ variant ∈ badgeVariants, Template.SingleTyped variant.reuseTokens := by decide
  have hshared : ¬ Template.PartlyShared badgeVariants "badge" := Template.not_partlyShared hsingle
  have hreported : .reuseDivergent .nib "Card" "badge" ∈
      (compile .default (.ofTemplates badgeVariants)).notices := by
    have hsorted : badgeVariants.Pairwise fun a b => a.locale.le b.locale := by decide
    simp only [compile, gather, namespaces, Record.Resources.ofTemplates,
      Template.mergeAll_of_pairwise hsorted]
    decide +kernel
  obtain ⟨hmerge, hbound⟩ := reuse_reported .default badgeVariants "badge"
  refine ⟨?_, hreported, fun path leaf hl hb => hshared ?_⟩
  · obtain ⟨merged, hmerged, hkept⟩ := hmerge (by decide)
    have hdivergent : "badge" ∈ merged.divergentReuseTokens := by
      obtain rfl := Option.some.inj hmerged
      decide +kernel
    exact ⟨merged, hmerged, hdivergent, fun hk => hshared (hkept.mp ⟨hdivergent, hk⟩)⟩
  · exact hbound .nib "Card" (by decide) hreported path leaf hl hb

def cellVariants : List Template := [
  ⟨.nib, "Card", .language "de", ["UIView"], [], [⟨"cell", "Cell"⟩, ⟨"cell", "Tile"⟩], [], [],
    none⟩,
  ⟨.nib, "Card", .language "en", ["UIView"], [], [⟨"cell", "Cell"⟩], [], [], none⟩]

theorem exists_reported_kept :
    ¬ ∀ (variants : List Template) (merged : Merged),
      Template.mergeVariants variants = some merged →
        ∀ identifier ∈ merged.divergentReuseTokens,
          identifier ∉ identifiers merged.template.reuseTokens := by
  intro h
  have hcell := h cellVariants _ rfl "cell" (by decide +kernel)
  exact hcell (by decide +kernel)

end Accessors

import Accessors.Namespace.ReuseIdentifiers
import Accessors.Proofs.Namespace.Storyboards
import Accessors.Proofs.ReuseTokens

/-!
# Which reuse identifiers are bound

A token is common if all variants of some template have it. The namespace has one leaf for each
identifier that is common with one type only, if no other such identifier is bound under the same
name. An identifier that is common with several types is reported once, with all of them, and does
not take a name.
-/

namespace Accessors

open Record (Template TypedIdentifier)
open Template (Merged mergeAll)

namespace Template

variable {templates : List Template} {token : TypedIdentifier}

/-- All variants of some template have the token. -/
def Common (templates : List Template) (token : TypedIdentifier) : Prop :=
  ∃ template ∈ templates, ∀ variant ∈ templates, variant.kind = template.kind →
    variant.name = template.name → token ∈ variant.reuseTokens

structure SoleType (templates : List Template) (token : TypedIdentifier) : Prop where
  common : Common templates token
  only : ∀ typeName, Common templates ⟨token.identifier, typeName⟩ → typeName = token.typeName

theorem mem_reuseTokens_mergeAll_iff :
    token ∈ (mergeAll templates).flatMap (·.template.reuseTokens) ↔ Common templates token := by
  rw [List.mem_flatMap]
  constructor
  · rintro ⟨merged, hm, ht⟩
    obtain ⟨first, rest, hvariants, hkind, hname, hsummary⟩ := exists_variants_of_mem_mergeAll hm
    have hall := hsummary.mem_reuseTokens.mp ht
    have hfirst := mem_variantsOf_iff.mp (hvariants ▸ List.mem_cons_self (a := first) ..)
    refine ⟨first, hfirst.1, fun variant hv hsame hnamed => hall variant ?_⟩
    rw [← hvariants]
    exact mem_variantsOf_iff.mpr ⟨hv, hsame.trans hkind, hnamed.trans hname⟩
  · rintro ⟨template, hm, hall⟩
    obtain ⟨merged, hmerged, hkind, hname, -⟩ := exists_merged hm
    obtain ⟨first, rest, hvariants, -, -, hsummary⟩ := exists_variants_of_mem_mergeAll hmerged
    refine ⟨merged, hmerged, hsummary.mem_reuseTokens.mpr fun variant hv => ?_⟩
    rw [← hvariants] at hv
    obtain ⟨hv, hsame, hnamed⟩ := mem_variantsOf_iff.mp hv
    exact hall variant hv (hsame.trans hkind) (hnamed.trans hname)

end Template

namespace Namespace

open Identifier (Alone ofName)
open Accessors.Symbol (Leaf)
open Template (Common SoleType)

variable {templates : List Template} {merged : List Merged} {token other : TypedIdentifier}
  {identifier typeName name : String}

def typesOf (merged : List Merged) (identifier : String) : List String :=
  distinct (((merged.flatMap (·.template.reuseTokens)).filter (·.identifier == identifier)).map
    TypedIdentifier.typeName)

theorem tokenTypes_eq (merged : List Merged) : tokenTypes merged =
    (distinct ((merged.flatMap (·.template.reuseTokens)).map TypedIdentifier.identifier)).map
      fun identifier => (identifier, typesOf merged identifier) := by
  rw [tokenTypes, buckets, List.map_map]
  rfl

theorem mem_typesOf_iff : typeName ∈ typesOf merged identifier ↔
    ⟨identifier, typeName⟩ ∈ merged.flatMap (·.template.reuseTokens) := by
  rw [typesOf, mem_distinct, List.mem_map]
  constructor
  · rintro ⟨⟨held, typeName⟩, hm, rfl⟩
    obtain ⟨hm, hid⟩ := List.mem_filter.mp hm
    rwa [← beq_iff_eq.mp hid]
  · exact fun hm => ⟨_, List.mem_filter.mpr ⟨hm, beq_self_eq_true _⟩, rfl⟩

theorem mem_typesOf_mergeAll_iff :
    typeName ∈ typesOf (mergeAll templates) identifier ↔
      Common templates ⟨identifier, typeName⟩ :=
  mem_typesOf_iff.trans Template.mem_reuseTokens_mergeAll_iff

theorem increasing_typesOf (merged : List Merged) (identifier : String) :
    Increasing (typesOf merged identifier) := increasing_distinct _

theorem typesOf_eq_singleton_iff :
    typesOf (mergeAll templates) token.identifier = [token.typeName] ↔
      SoleType templates token := by
  constructor
  · intro he
    refine ⟨mem_typesOf_mergeAll_iff.mp (he ▸ List.mem_singleton_self _), fun typeName hc => ?_⟩
    exact List.mem_singleton.mp (he ▸ mem_typesOf_mergeAll_iff.mpr hc)
  · rintro ⟨hcommon, honly⟩
    refine (increasing_typesOf _ _).eq_of_mem_iff (List.pairwise_singleton ..) fun typeName => ?_
    rw [mem_typesOf_mergeAll_iff, List.mem_singleton]
    refine ⟨honly typeName, ?_⟩
    rintro rfl
    exact hcommon

def soleTokens (merged : List Merged) : List TypedIdentifier :=
  (tokenTypes merged).filterMap token?

theorem mem_soleTokens_iff :
    token ∈ soleTokens (mergeAll templates) ↔ SoleType templates token := by
  rw [soleTokens, List.mem_filterMap]
  constructor
  · rintro ⟨types, htypes, htoken⟩
    obtain rfl := token?_eq_some_iff.mp htoken
    rw [tokenTypes_eq] at htypes
    obtain ⟨identifier, -, he⟩ := List.mem_map.mp htypes
    obtain ⟨rfl, he⟩ := Prod.mk.inj he
    exact typesOf_eq_singleton_iff.mp he
  · intro hsole
    refine ⟨(token.identifier, [token.typeName]), ?_, token?_eq_some_iff.mpr rfl⟩
    rw [tokenTypes_eq]
    refine List.mem_map.mpr ⟨token.identifier, mem_distinct.mpr (List.mem_map_of_mem ?_),
      Prod.ext rfl (typesOf_eq_singleton_iff.mpr hsole)⟩
    exact Template.mem_reuseTokens_mergeAll_iff.mpr hsole.common

theorem nodup_identifiers_soleTokens (merged : List Merged) :
    ((soleTokens merged).map TypedIdentifier.identifier).Nodup := by
  have hkeys : ((tokenTypes merged).map Prod.fst).Nodup := by
    rw [tokenTypes_eq, List.map_map]
    exact (List.map_id _).symm ▸ (increasing_distinct _).nodup
  refine hkeys.sublist ?_
  rw [soleTokens, List.map_filterMap]
  refine filterMap_sublist_map (g := Prod.fst) fun types _ identifier hidentifier => ?_
  obtain ⟨token, htoken, rfl⟩ := Option.map_eq_some_iff.mp hidentifier
  rw [token?_eq_some_iff.mp htoken]

/-- The token has an identifier to itself among those with one type. -/
structure Generated (templates : List Template) (token : TypedIdentifier) : Prop where
  sole : SoleType templates token
  named : ofName token.identifier ≠ ""
  alone : ∀ other, SoleType templates other →
    ofName other.identifier = ofName token.identifier → other.identifier = token.identifier

theorem mem_uniques_iff_generated :
    Identifier.name TypedIdentifier.identifier token ∈
        (Identifier.group TypedIdentifier.identifier (soleTokens (mergeAll templates))).uniques ↔
      Generated templates token := by
  constructor
  · intro hm
    obtain ⟨other, ho, he⟩ := Identifier.exists_of_mem_uniques hm
    obtain rfl : token = other := congrArg Identifier.Named.item he
    have halone := Identifier.alone_of_mem_uniques hm
    refine ⟨mem_soleTokens_iff.mp ho, halone.nonempty, fun other hother hid => ?_⟩
    exact halone.unshared _ (List.mem_map_of_mem (mem_soleTokens_iff.mpr hother)) hid
  · rintro ⟨hsole, hnamed, halone⟩
    have hm := mem_soleTokens_iff.mpr hsole
    refine Alone.mem_uniques (nodup_identifiers_soleTokens _) hm
      ⟨List.mem_map_of_mem hm, hnamed, fun name hname hid => ?_⟩
    obtain ⟨other, hother, rfl⟩ := List.mem_map.mp hname
    exact halone other (mem_soleTokens_iff.mp hother) hid

theorem leaves_reuseIdentifiers (merged : List Merged) : (reuseIdentifiers merged).value.leaves =
    (Identifier.group TypedIdentifier.identifier (soleTokens merged)).uniques.map fun named =>
      reuseLeaf (ofName named.item.identifier) named.item := by
  rw [reuseIdentifiers, Noted.bind_value, assemble_value, keptMembers, Identifier.group_map]
  simp only [Contents.concat, List.map_map, List.flatMap_map]
  rw [List.map_eq_flatMap]
  rfl

theorem reuseLeaf_inj (h : reuseLeaf name token = reuseLeaf name other) : token = other := by
  have hbinds : BindsReuse other.identifier (reuseLeaf name token) :=
    h ▸ bindsReuse_reuseLeaf.mpr rfl
  have hid : token.identifier = other.identifier := bindsReuse_reuseLeaf.mp hbinds
  have htype : "ReuseIdentifier<" ++ token.typeName ++ ">" =
      "ReuseIdentifier<" ++ other.typeName ++ ">" := congrArg Leaf.typeName h
  rw [String.append_left_inj, String.append_right_inj] at htype
  cases token
  cases other
  cases hid
  cases htype
  rfl

def bindsToken (token : TypedIdentifier) (leaf : Leaf) : Bool := leaf == reuseLeaf leaf.name token

theorem filter_bindsToken (merged : List Merged) (token : TypedIdentifier) :
    (reuseIdentifiers merged).value.leaves.filter (bindsToken token) =
      ((Identifier.group TypedIdentifier.identifier (soleTokens merged)).uniques.filter
        (·.item == token)).map fun named =>
          reuseLeaf (ofName named.item.identifier) named.item := by
  rw [leaves_reuseIdentifiers, List.filter_map]
  refine congrArg _ (List.filter_congr fun named _ => ?_)
  rw [Bool.eq_iff_iff, Function.comp_apply, bindsToken, beq_iff_eq, beq_iff_eq]
  refine ⟨fun h => reuseLeaf_inj h, ?_⟩
  rintro rfl
  rfl

theorem filter_leaves_of_generated (h : Generated templates token) :
    (reuseIdentifiers (mergeAll templates)).value.leaves.filter (bindsToken token) =
      [reuseLeaf (ofName token.identifier) token] := by
  have hnodup := (Identifier.increasing_uniques TypedIdentifier.identifier
    (soleTokens (mergeAll templates))).nodup.of_map
  have hfilter := filter_eq_singleton hnodup (mem_uniques_iff_generated.mpr h)
    (p := (·.item == token)) (beq_self_eq_true token) fun other ho he => by
      obtain ⟨held, -, rfl⟩ := Identifier.exists_of_mem_uniques ho
      exact congrArg _ (beq_iff_eq.mp he)
  rw [filter_bindsToken, hfilter]
  rfl

theorem filter_leaves_of_not_generated (h : ¬ Generated templates token) :
    (reuseIdentifiers (mergeAll templates)).value.leaves.filter (bindsToken token) = [] := by
  rw [filter_bindsToken, List.map_eq_nil_iff]
  refine List.filter_eq_nil_iff.mpr fun named hnamed he => h ?_
  obtain ⟨other, -, rfl⟩ := Identifier.exists_of_mem_uniques hnamed
  obtain rfl : other = token := beq_iff_eq.mp he
  exact mem_uniques_iff_generated.mp hnamed

theorem mem_leaves_reuseIdentifiers {leaf : Leaf} :
    leaf ∈ (reuseIdentifiers (mergeAll templates)).value.leaves ↔ ∃ token,
      Generated templates token ∧ leaf = reuseLeaf (ofName token.identifier) token := by
  rw [leaves_reuseIdentifiers, List.mem_map]
  constructor
  · rintro ⟨named, hnamed, rfl⟩
    obtain ⟨token, -, rfl⟩ := Identifier.exists_of_mem_uniques hnamed
    exact ⟨token, mem_uniques_iff_generated.mp hnamed, rfl⟩
  · rintro ⟨token, hgenerated, rfl⟩
    exact ⟨_, mem_uniques_iff_generated.mpr hgenerated, rfl⟩

theorem children_reuseIdentifiers (merged : List Merged) :
    (reuseIdentifiers merged).value.children = [] := by
  rw [reuseIdentifiers, Noted.bind_value]
  refine children_assemble_eq_nil _ _ fun member hm => ?_
  obtain ⟨token, -, rfl⟩ := List.mem_map.mp hm
  rfl

def conflictsOver (identifier : String) : Notice → Bool
  | .reuseConflict held _ => held == identifier
  | _ => false

theorem conflictsOver_of_tokenConflict? {types : List String} {notice : Notice}
    (h : tokenConflict? (name, types) = some notice) :
    conflictsOver identifier notice = (name == identifier) := by
  match types with
  | [] => cases h
  | [_] => cases h
  | _ :: _ :: _ =>
    obtain rfl := Option.some.inj h
    rfl

theorem filter_conflictsOver_members (what scope : String) (tokens : List TypedIdentifier) :
    (assemble what scope (tokens.map tokenMember)).notices.filter (conflictsOver identifier) =
      [] := by
  refine List.filter_eq_nil_iff.mpr fun notice hn hconflict => ?_
  obtain ⟨member, hm, hn⟩ := exists_member_of_mem_notices hn
    (by rintro _ _ rfl; cases hconflict) (by rintro _ rfl; cases hconflict)
  obtain ⟨token, -, rfl⟩ := List.mem_map.mp hm
  cases hn

theorem filter_conflictsOver (merged : List Merged) (identifier : String) :
    (reuseIdentifiers merged).notices.filter (conflictsOver identifier) =
      (tokenConflict? (identifier, typesOf merged identifier)).toList := by
  have hother : ∀ other : String, other ≠ identifier →
      (tokenConflict? (other, typesOf merged other)).toList.filter (conflictsOver identifier) =
        [] := by
    refine fun other hne => List.filter_eq_nil_iff.mpr fun notice hn hconflict => hne ?_
    rw [conflictsOver_of_tokenConflict? (Option.mem_toList.mp hn)] at hconflict
    exact beq_iff_eq.mp hconflict
  have hself : (tokenConflict? (identifier, typesOf merged identifier)).toList.filter
      (conflictsOver identifier) =
        (tokenConflict? (identifier, typesOf merged identifier)).toList := by
    refine List.filter_eq_self.mpr fun notice hn => ?_
    rw [conflictsOver_of_tokenConflict? (Option.mem_toList.mp hn)]
    exact beq_self_eq_true identifier
  rw [reuseIdentifiers, Noted.bind_notices, Noted.give_notices, List.filter_append,
    filter_conflictsOver_members, List.append_nil, tokenTypes_eq, List.filterMap_map,
    List.filterMap_eq_flatMap_toList]
  by_cases hm : identifier ∈ distinct
      ((merged.flatMap (·.template.reuseTokens)).map TypedIdentifier.identifier)
  · exact (filter_flatMap_eq (increasing_distinct _).nodup hm fun other _ => hother other).trans
      hself
  · have htypes : typesOf merged identifier = [] := by
      refine List.eq_nil_iff_forall_not_mem.mpr fun typeName ht => hm ?_
      exact mem_distinct.mpr (List.mem_map_of_mem (mem_typesOf_iff.mp ht))
    rw [htypes]
    refine List.filter_eq_nil_iff.mpr fun notice hn => ?_
    obtain ⟨other, ho, hn⟩ := List.mem_flatMap.mp hn
    exact List.filter_eq_nil_iff.mp (hother other fun he => hm (he ▸ ho)) notice hn

theorem tokenConflict?_of_ne {types : List String} {a b : String} (ha : a ∈ types)
    (hb : b ∈ types) (hne : a ≠ b) :
    tokenConflict? (identifier, types) = some (.reuseConflict identifier types) := by
  match types with
  | [] => cases ha
  | [_] => exact absurd ((List.mem_singleton.mp ha).trans (List.mem_singleton.mp hb).symm) hne
  | _ :: _ :: _ => rfl

theorem tokenConflict?_eq_none {types : List String} (h : Increasing types)
    (hsame : ∀ a ∈ types, ∀ b ∈ types, a = b) : tokenConflict? (identifier, types) = none := by
  match types with
  | [] => rfl
  | [_] => rfl
  | a :: b :: rest =>
    have he := hsame a (List.mem_cons_self ..) b (List.mem_cons_of_mem _ (List.mem_cons_self ..))
    have hlt := List.rel_of_pairwise_cons h (List.mem_cons_self (a := b) ..)
    exact absurd (he ▸ hlt) (String.lt_irrefl b)

/-- Exactly the generated tokens have leaves, each one, and exactly the identifiers that are common
with several types are reported, each once. -/
structure ReuseExact (templates : List Template) (contents : Noted Contents) : Prop where
  children : contents.value.children = []
  mem_iff : ∀ leaf, leaf ∈ contents.value.leaves ↔
    ∃ token, Generated templates token ∧ leaf = reuseLeaf (ofName token.identifier) token
  bound : ∀ token, Generated templates token →
    contents.value.leaves.filter (bindsToken token) = [reuseLeaf (ofName token.identifier) token]
  unbound : ∀ token, ¬ Generated templates token →
    contents.value.leaves.filter (bindsToken token) = []
  reported : ∀ identifier a b, Common templates ⟨identifier, a⟩ → Common templates ⟨identifier, b⟩ →
    a ≠ b → ∃ types, Increasing types ∧
      (∀ typeName, typeName ∈ types ↔ Common templates ⟨identifier, typeName⟩) ∧
        contents.notices.filter (conflictsOver identifier) = [.reuseConflict identifier types]
  quiet : ∀ identifier, (∀ a b, Common templates ⟨identifier, a⟩ →
    Common templates ⟨identifier, b⟩ → a = b) →
      contents.notices.filter (conflictsOver identifier) = []

theorem reuse_exact (templates : List Template) :
    ReuseExact templates (reuseIdentifiers (mergeAll templates)) := by
  refine ⟨children_reuseIdentifiers _, fun _ => mem_leaves_reuseIdentifiers,
    fun _ => filter_leaves_of_generated, fun _ => filter_leaves_of_not_generated, ?_, ?_⟩
  · intro identifier a b ha hb hne
    refine ⟨_, increasing_typesOf _ identifier, fun _ => mem_typesOf_mergeAll_iff, ?_⟩
    rw [filter_conflictsOver, tokenConflict?_of_ne (mem_typesOf_mergeAll_iff.mpr ha)
      (mem_typesOf_mergeAll_iff.mpr hb) hne]
    rfl
  · intro identifier hsame
    rw [filter_conflictsOver, tokenConflict?_eq_none (increasing_typesOf _ identifier)
      fun a ha b hb => hsame a b (mem_typesOf_mergeAll_iff.mp ha) (mem_typesOf_mergeAll_iff.mp hb)]
    rfl

end Namespace

end Accessors

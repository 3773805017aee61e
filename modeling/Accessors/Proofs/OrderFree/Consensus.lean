import Accessors.Proofs.Identifier.Grouping
import Accessors.Proofs.Namespace.Consensus

/-!
# A consensus without an order

What the configurations of a property list agree on depends only on which values they hold. Values
that are the same agree on the value, and dictionaries agree on the keys that all of them have, as
far as the values at these agree; in which order the configurations are compared changes the notices
only.
-/

namespace Accessors.Namespace

open Record (PlistEntries PlistValue PropertyList)
open Record.PlistValue (OrderedEntries orderedEntries_iff)

theorem exists_mem_agreeEntries_iff {context : ConsensusContext} {path : List String}
    {others : List PlistEntries} {entries : PlistEntries} {key : String} {kept : PlistValue} :
    (∃ agreement, (key, agreement) ∈ agreeEntries context path others entries ∧
        agreement.value = some kept) ↔
      ∃ value values, (key, value) ∈ entries ∧ others.mapM (List.lookup key ·) = some values ∧
        (agreeValue context (path ++ [key]) value values).value = some kept := by
  induction entries with
  | nil =>
    rw [agreeEntries]
    simp
  | cons entry rest ih =>
    obtain ⟨first, held⟩ := entry
    rw [agreeEntries]
    simp only [List.mem_cons, Prod.mk.injEq, or_and_right, exists_or, ih]
    refine or_congr_left ⟨?_, ?_⟩
    · rintro ⟨agreement, ⟨rfl, rfl⟩, hkept⟩
      cases hvalues : others.mapM (List.lookup key ·) with
      | none =>
        simp only [hvalues] at hkept
        cases hkept
      | some values =>
        simp only [hvalues] at hkept
        exact ⟨held, values, ⟨rfl, rfl⟩, rfl, hkept⟩
    · rintro ⟨value, values, ⟨rfl, rfl⟩, hvalues, hkept⟩
      refine ⟨_, ⟨rfl, rfl⟩, ?_⟩
      simp only [hvalues]
      exact hkept

def OrderedRoot (entries : PlistEntries) : Prop :=
  Increasing (entries.map Prod.fst) ∧ OrderedEntries entries

theorem ordered_of_mem {roots : List PlistEntries} (hroots : ∀ root ∈ roots, OrderedRoot root)
    {key : String} {value : PlistValue} (h : ∃ root ∈ roots, (key, value) ∈ root) :
    value.Ordered := by
  obtain ⟨root, hr, hm⟩ := h
  exact orderedEntries_iff.mp (hroots root hr).2 _ hm

namespace ConsensusContext

variable {context other : ConsensusContext} {path : List String} {entries entries' : PlistEntries}
  {others others' : List PlistEntries}

theorem increasing_gather (shared : List (String × Agreement)) :
    Increasing ((context.gather path entries others shared).value.map Prod.fst) := by
  let agreements := collectEntries (shared ++ (missingKeys entries others).map fun key =>
    (key, context.mismatch (path ++ [key]) .missing))
  have hi : Increasing (agreements.map Prod.fst) := increasing_keys_collectEntries _
  have hkept : ((keptEntries agreements).map Prod.fst).Sublist (agreements.map Prod.fst) := by
    rw [keptEntries, List.map_filterMap]
    apply filterMap_sublist_map
    rintro agreement - key hkey
    simp only [Option.map_map, Option.map_eq_some_iff] at hkey
    obtain ⟨value, -, rfl⟩ := hkey
    rfl
  exact List.Pairwise.sublist hkept hi

theorem mem_gather_iff (hi : Increasing (entries.map Prod.fst)) {key : String}
    {kept : PlistValue} :
    (key, kept) ∈ (context.gather path entries others
        (agreeEntries context path others entries)).value ↔
      ∃ value values, (entries :: others).mapM (List.lookup key ·) = some (value :: values) ∧
        (agreeValue context (path ++ [key]) value values).value = some kept := by
  let shared := agreeEntries context path others entries
  let missing := (missingKeys entries others).map fun key =>
    (key, context.mismatch (path ++ [key]) .missing)
  have hd : ((shared ++ missing).map Prod.fst).Nodup :=
    nodup_keys_agreements (keys_agreeEntries context path others entries) hi
  have hgather : (key, kept) ∈ (context.gather path entries others shared).value ↔
      ∃ agreement, (key, agreement) ∈ shared ∧ agreement.value = some kept := by
    show (key, kept) ∈ keptEntries (collectEntries (shared ++ missing)) ↔ _
    simp only [keptEntries, List.mem_filterMap, Option.map_eq_some_iff]
    constructor
    · rintro ⟨⟨_, agreement⟩, hm, value, hvalue, ⟨⟩⟩
      rcases List.mem_append.mp (mem_collectEntries hm) with hm | hm
      · exact ⟨agreement, hm, hvalue⟩
      · obtain ⟨_, -, ⟨⟩⟩ := List.mem_map.mp hm
        cases hvalue
    · rintro ⟨agreement, hm, hvalue⟩
      exact ⟨(key, agreement), mem_collectEntries_of_nodup hd (List.mem_append_left _ hm), kept,
        hvalue, rfl⟩
  rw [hgather, exists_mem_agreeEntries_iff]
  refine exists_congr fun value => exists_congr fun values => ?_
  rw [← lookup_eq_some_iff_of_increasing hi, mapM_cons_eq_some_iff, and_assoc]

theorem gather_congr (hi : ∀ dictionary ∈ entries :: others, Increasing (dictionary.map Prod.fst))
    (hsame : ∀ dictionary, dictionary ∈ entries :: others ↔ dictionary ∈ entries' :: others')
    (hagree : ∀ key value values value' values', (key, value) ∈ entries →
      (∀ held ∈ value :: values, ∃ dictionary ∈ entries :: others, (key, held) ∈ dictionary) →
      (∀ held, held ∈ value :: values ↔ held ∈ value' :: values') →
        (agreeValue context (path ++ [key]) value values).value =
          (agreeValue other (path ++ [key]) value' values').value) :
    (context.gather path entries others (agreeEntries context path others entries)).value =
      (other.gather path entries' others' (agreeEntries other path others' entries')).value := by
  have hentries := hi entries (List.mem_cons_self ..)
  have hentries' := hi entries' ((hsame entries').mpr (List.mem_cons_self ..))
  -- The values at a key are the same on both sides, and one comes first on either.
  have hvalues : ∀ {key value values value' values'},
      (entries :: others).mapM (List.lookup key ·) = some (value :: values) →
      (entries' :: others').mapM (List.lookup key ·) = some (value' :: values') →
        (agreeValue context (path ++ [key]) value values).value =
          (agreeValue other (path ++ [key]) value' values').value := by
    intro key value values value' values' hmap hmap'
    obtain ⟨found, hfound, hmem⟩ := mapM_congr hsame hmap
    obtain rfl := Option.some.inj (hmap'.symm.trans hfound)
    have hfirst := mem_of_lookup (mapM_cons_eq_some_iff.mp hmap).1
    refine hagree key value values value' values' hfirst (fun held hh => ?_) hmem
    obtain ⟨dictionary, hd, hl⟩ := (mem_iff_of_mapM hmap).mp hh
    exact ⟨dictionary, hd, mem_of_lookup hl⟩
  refine entries_ext (increasing_gather _) (increasing_gather _) ?_
  rintro ⟨key, kept⟩
  rw [mem_gather_iff hentries, mem_gather_iff hentries']
  constructor
  · rintro ⟨value, values, hmap, hkept⟩
    obtain ⟨value', values', hmap'⟩ := exists_cons_mapM hsame hmap
    exact ⟨value', values', hmap', (hvalues hmap hmap').symm.trans hkept⟩
  · rintro ⟨value', values', hmap', hkept⟩
    obtain ⟨value, values, hmap⟩ := exists_cons_mapM (fun item => (hsame item).symm) hmap'
    exact ⟨value, values, hmap, (hvalues hmap hmap').trans hkept⟩

end ConsensusContext

theorem agreeValue_same {context : ConsensusContext} {path : List String} {value : PlistValue}
    {others : List PlistValue} (h : ∀ other ∈ others, other = value) :
    agreeValue context path value others = pure (some value) := by
  have hall : others.all (· == value) = true :=
    List.all_eq_true.mpr fun other ho => beq_iff_eq.mpr (h other ho)
  rw [agreeValue.eq_def]
  exact if_pos hall

theorem agreeValue_mixed {context : ConsensusContext} {path : List String} {value : PlistValue}
    {others : List PlistValue} (hne : ¬ ∀ other ∈ others, other = value)
    (h : ∃ held ∈ value :: others, held.entries? = none) :
    agreeValue context path value others = context.mismatch path .different := by
  rcases agreeValue_cases context path value others with
    ⟨hall, -⟩ | ⟨entries, dictionaries, rfl, rfl, -⟩ | he
  · exact absurd hall hne
  · obtain ⟨held, hm, hnone⟩ := h
    rw [← List.map_cons] at hm
    obtain ⟨dictionary, -, rfl⟩ := List.mem_map.mp hm
    cases hnone
  · exact he

theorem agreeValue_dictionaries {context : ConsensusContext} {path : List String}
    {entries : PlistEntries} {others : List PlistEntries}
    (hne : ¬ ∀ other ∈ others.map PlistValue.dictionary, other = .dictionary entries) :
    agreeValue context path (.dictionary entries) (others.map .dictionary) = (do
      let kept ← context.gather path entries others (agreeEntries context path others entries)
      return some (.dictionary kept)) := by
  have hall : ¬ (others.map PlistValue.dictionary).all (· == .dictionary entries) = true :=
    fun h => hne fun other ho => beq_iff_eq.mp (List.all_eq_true.mp h other ho)
  have hentries : (others.map PlistValue.dictionary).mapM PlistValue.entries? = some others := by
    clear hne hall
    induction others with
    | nil => rfl
    | cons other rest ih => exact mapM_cons_eq_some_iff.mpr ⟨rfl, ih⟩
  rw [agreeValue.eq_def]
  simp only [if_neg hall, hentries]

theorem exists_dictionaries {value : PlistValue} {values : List PlistValue}
    (h : ¬ ∃ held ∈ value :: values, held.entries? = none) :
    ∃ (entries : PlistEntries) (others : List PlistEntries),
      value = .dictionary entries ∧ values = others.map .dictionary := by
  have hall : ∀ held ∈ value :: values, ∃ entries, held.entries? = some entries := fun held hm =>
    Option.ne_none_iff_exists'.mp fun hnone => h ⟨held, hm, hnone⟩
  obtain ⟨dictionaries, hd⟩ := exists_mapM hall
  cases dictionaries with
  | nil => cases eq_map_dictionary hd
  | cons entries others => exact ⟨entries, others, List.cons.inj (eq_map_dictionary hd)⟩

theorem forall_eq_head_iff {α : Type} {first : α} {rest : List α} :
    (∀ a ∈ rest, a = first) ↔ ∀ a ∈ first :: rest, ∀ b ∈ first :: rest, a = b := by
  constructor
  · intro h
    have hfirst : ∀ a ∈ first :: rest, a = first := fun a ha =>
      (List.mem_cons.mp ha).elim id (h a)
    exact fun a ha b hb => (hfirst a ha).trans (hfirst b hb).symm
  · exact fun h a ha => h a (List.mem_cons_of_mem _ ha) first (List.mem_cons_self ..)

theorem agreeValue_congr (context other : ConsensusContext) (path : List String)
    (value value' : PlistValue) (values values' : List PlistValue)
    (hordered : ∀ held ∈ value :: values, held.Ordered)
    (hsame : ∀ held, held ∈ value :: values ↔ held ∈ value' :: values') :
    (agreeValue context path value values).value =
      (agreeValue other path value' values').value := by
  have hallSame : (∀ held ∈ values, held = value) ↔ ∀ held ∈ values', held = value' := by
    rw [forall_eq_head_iff, forall_eq_head_iff]
    simp only [hsame]
  by_cases hall : ∀ held ∈ values, held = value
  · have heq : value' = value := forall_eq_head_iff.mp hall value'
      ((hsame value').mpr (List.mem_cons_self ..)) value (List.mem_cons_self ..)
    rw [agreeValue_same hall, agreeValue_same (hallSame.mp hall), heq]
  · have hall' := fun h => hall (hallSame.mpr h)
    by_cases hmixed : ∃ held ∈ value :: values, held.entries? = none
    · have hmixed' : ∃ held ∈ value' :: values', held.entries? = none := by
        simpa only [hsame] using hmixed
      rw [agreeValue_mixed hall hmixed, agreeValue_mixed hall' hmixed']
      rfl
    · have hmixed' : ¬ ∃ held ∈ value' :: values', held.entries? = none := by
        simpa only [hsame] using hmixed
      obtain ⟨entries, others, hvalue, hvalues⟩ := exists_dictionaries hmixed
      obtain ⟨entries', others', hvalue', hvalues'⟩ := exists_dictionaries hmixed'
      rw [hvalue, hvalues] at hall hsame hordered ⊢
      rw [hvalue', hvalues'] at hall' hsame ⊢
      have hroots : ∀ dictionary ∈ entries :: others, OrderedRoot dictionary := fun dictionary hd =>
        hordered (.dictionary dictionary) (List.mem_map_of_mem (l := entries :: others) hd)
      have hsameRoots : ∀ dictionary, dictionary ∈ entries :: others ↔
          dictionary ∈ entries' :: others' := by
        intro dictionary
        simpa using hsame (.dictionary dictionary)
      rw [agreeValue_dictionaries hall, agreeValue_dictionaries hall', Noted.bind_value,
        Noted.bind_value, Noted.pure_value, Noted.pure_value,
        ConsensusContext.gather_congr (fun dictionary hd => (hroots dictionary hd).1) hsameRoots]
      intro key held helds held' helds' hheld hall hsame
      exact agreeValue_congr context other (path ++ [key]) held held' helds helds'
        (fun inner hm => ordered_of_mem hroots (hall inner hm)) hsame
termination_by sizeOf value
decreasing_by
  have hlt := List.sizeOf_lt_of_mem hheld
  simp only [Prod.mk.sizeOf_spec] at hlt
  simp only [hvalue, PlistValue.dictionary.sizeOf_spec]
  omega

theorem consensus_eq_of_perm (name : String) {lists others : List PropertyList}
    (h : lists.Perm others) : (consensus name lists).value = (consensus name others).value := by
  have hsorted : ((sortByConfiguration lists).map (·.root.entries)).Perm
      ((sortByConfiguration others).map (·.root.entries)) :=
    ((List.mergeSort_perm ..).trans (h.trans (List.mergeSort_perm ..).symm)).map _
  have hordered : ∀ entries ∈ (sortByConfiguration lists).map (·.root.entries),
      OrderedRoot entries := by
    intro entries hm
    obtain ⟨list, -, rfl⟩ := List.mem_map.mp hm
    exact list.root.ordered
  unfold consensus
  dsimp only
  generalize (sortByConfiguration lists).map (·.root.entries) = roots at hsorted hordered
  generalize (sortByConfiguration others).map (·.root.entries) = otherRoots at hsorted
  match roots, otherRoots, hsorted.length_eq with
  | [], [], _ => rfl
  | [root], [otherRoot], _ => exact (List.singleton_perm_singleton.mp hsorted)
  | first :: second :: rest, otherFirst :: otherSecond :: otherRest, _ =>
    refine ConsensusContext.gather_congr (fun root hr => (hordered root hr).1)
      (fun _ => hsorted.mem_iff) ?_
    intro key value values value' values' _ hall hsame
    exact agreeValue_congr _ _ _ value value' values values'
      (fun held hm => ordered_of_mem hordered (hall held hm)) hsame

theorem propertyList_eq_of_perm (options : Options) (name : String)
    {lists others : List PropertyList} (h : lists.Perm others) :
    (propertyList options name lists).value = (propertyList options name others).value := by
  simp only [propertyList, Noted.bind_value, consensus_eq_of_perm name h]

end Accessors.Namespace

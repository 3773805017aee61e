import Accessors.Namespace.PropertyLists
import Accessors.Proofs.Traversal

/-!
# A consensus without notices

Where bringing the configurations of a property list to a consensus gives no notice, they are all
the same, and the consensus is each of them: a value that is missing or different somewhere is
noted at the place where it is left out.
-/

namespace Accessors.Namespace

open Record (PlistEntries PlistValue PropertyList)
open Record.PlistValue (OrderedEntries orderedEntries_iff)

theorem eq_of_lookup {entries other : PlistEntries} (he : Increasing (entries.map Prod.fst))
    (ho : Increasing (other.map Prod.fst)) (hkeys : ∀ key ∈ other.map Prod.fst,
      key ∈ entries.map Prod.fst)
    (hlookup : ∀ entry ∈ entries, other.lookup entry.1 = some entry.2) : other = entries := by
  refine entries_ext ho he fun entry => ⟨fun hm => ?_, fun hm => ?_⟩
  · obtain ⟨held, hh, hk⟩ := List.mem_map.mp (hkeys entry.1 (List.mem_map_of_mem hm))
    have hentry := (lookup_eq_some_iff_of_increasing ho).mpr hm
    rw [← hk, hlookup held hh] at hentry
    rwa [← Prod.ext hk (Option.some.inj hentry)]
  · exact (lookup_eq_some_iff_of_increasing ho).mp (hlookup entry hm)

theorem mem_missingKeys_iff {entries : PlistEntries} {others : List PlistEntries} {key : String} :
    key ∈ missingKeys entries others ↔
      (∃ other ∈ others, key ∈ other.map Prod.fst) ∧ entries.lookup key = none := by
  simp [missingKeys]

theorem lookup_eq_none_iff_not_mem {entries : PlistEntries} {key : String} :
    entries.lookup key = none ↔ key ∉ entries.map Prod.fst := by
  rw [List.lookup_eq_none_iff, List.mem_map]
  constructor
  · rintro h ⟨entry, he, rfl⟩
    exact absurd rfl (bne_iff_ne.mp (h entry he))
  · intro h entry he
    exact bne_iff_ne.mpr fun hk => h ⟨entry, he, hk.symm⟩

namespace ConsensusContext

variable {context : ConsensusContext} {path : List String} {entries : PlistEntries}
  {others : List PlistEntries} {shared : List (String × Agreement)}

theorem nodup_keys_agreements (hkeys : shared.map Prod.fst = entries.map Prod.fst)
    (hi : Increasing (entries.map Prod.fst)) :
    ((shared ++ (missingKeys entries others).map fun key =>
      (key, context.mismatch (path ++ [key]) .missing)).map Prod.fst).Nodup := by
  have hmissing : ((missingKeys entries others).map fun key =>
      (key, context.mismatch (path ++ [key]) .missing)).map Prod.fst =
        missingKeys entries others := by
    simp [Function.comp_def]
  rw [List.map_append, hkeys, hmissing]
  refine List.nodup_append.mpr ⟨hi.nodup, ?_, ?_⟩
  · exact (increasing_distinct _).nodup.sublist List.filter_sublist
  · rintro a ha b hb rfl
    exact lookup_eq_none_iff_not_mem.mp (mem_missingKeys_iff.mp hb).2 ha

theorem gather_quiet (hkeys : shared.map Prod.fst = entries.map Prod.fst)
    (hi : Increasing (entries.map Prod.fst))
    (hq : (context.gather path entries others shared).notices = []) :
    (context.gather path entries others shared).value = keptEntries shared ∧
      (∀ agreement ∈ shared, agreement.2.notices = []) ∧
      ∀ other ∈ others, ∀ key ∈ other.map Prod.fst, key ∈ entries.map Prod.fst := by
  let missing := (missingKeys entries others).map fun key =>
    (key, context.mismatch (path ++ [key]) .missing)
  have hd : ((shared ++ missing).map Prod.fst).Nodup := nodup_keys_agreements hkeys hi
  have hquiet : ∀ agreement ∈ shared ++ missing, agreement.2.notices = [] := fun agreement ha =>
    List.flatMap_eq_nil_iff.mp hq agreement (mem_collectEntries_of_nodup hd ha)
  have hnone : missingKeys entries others = [] := by
    apply List.eq_nil_iff_forall_not_mem.mpr
    intro key hk
    have hm : (key, context.mismatch (path ++ [key]) .missing) ∈ shared ++ missing :=
      List.mem_append_right _ (List.mem_map_of_mem (f := fun key =>
        (key, context.mismatch (path ++ [key]) .missing)) hk)
    exact List.cons_ne_nil _ _ (hquiet _ hm)
  refine ⟨?_, fun agreement ha => hquiet agreement (List.mem_append_left _ ha), ?_⟩
  · show keptEntries (collectEntries (shared ++ missing)) = keptEntries shared
    rw [show missing = [] by simp [missing, hnone], List.append_nil,
      collectEntries_eq_self (hkeys ▸ hi)]
  · intro other ho key hk
    apply Classical.byContradiction
    intro hn
    have hmem := mem_missingKeys_iff.mpr ⟨⟨other, ho, hk⟩, lookup_eq_none_iff_not_mem.mpr hn⟩
    rw [hnone] at hmem
    cases hmem

end ConsensusContext

theorem keys_agreeEntries (context : ConsensusContext) (path : List String)
    (others : List PlistEntries) (entries : PlistEntries) :
    (agreeEntries context path others entries).map Prod.fst = entries.map Prod.fst := by
  induction entries with
  | nil => rw [agreeEntries]; rfl
  | cons entry rest ih =>
    obtain ⟨key, value⟩ := entry
    rw [agreeEntries, List.map_cons, List.map_cons, ih]

theorem eq_map_dictionary {others : List PlistValue} {dictionaries : List PlistEntries}
    (h : others.mapM PlistValue.entries? = some dictionaries) :
    others = dictionaries.map .dictionary := by
  have hmap := map_eq_of_mapM h
  clear h
  induction others generalizing dictionaries with
  | nil =>
    cases dictionaries with
    | nil => rfl
    | cons first rest => cases hmap
  | cons other others ih =>
    cases dictionaries with
    | nil => cases hmap
    | cons first rest =>
      obtain ⟨hfirst, hrest⟩ := List.cons.inj hmap
      cases other with
      | dictionary entries =>
        obtain rfl := Option.some.inj hfirst
        rw [List.map_cons, ← ih hrest]
      | bool | string | array => cases hfirst

theorem agreeValue_cases (context : ConsensusContext) (path : List String) (value : PlistValue)
    (others : List PlistValue) :
    ((∀ other ∈ others, other = value) ∧
        agreeValue context path value others = pure (some value)) ∨
      (∃ entries dictionaries, value = .dictionary entries ∧
        others = dictionaries.map .dictionary ∧
        agreeValue context path value others = (do
          let kept ← context.gather path entries dictionaries
            (agreeEntries context path dictionaries entries)
          return some (.dictionary kept))) ∨
      agreeValue context path value others = context.mismatch path .different := by
  rw [agreeValue.eq_def]
  dsimp only
  by_cases hall : others.all (· == value)
  · rw [if_pos hall]
    refine .inl ⟨fun other ho => ?_, rfl⟩
    simpa using List.all_eq_true.mp hall other ho
  · rw [if_neg hall]
    cases hdictionaries : others.mapM PlistValue.entries? with
    | none => cases value <;> exact .inr (.inr rfl)
    | some dictionaries =>
      cases value with
      | dictionary entries =>
        exact .inr (.inl ⟨entries, dictionaries, rfl, eq_map_dictionary hdictionaries, rfl⟩)
      | bool | string | array => exact .inr (.inr rfl)

theorem keptEntries_cons {key : String} {agreement : Agreement} {value : PlistValue}
    (h : agreement.value = some value) (rest : List (String × Agreement)) :
    keptEntries ((key, agreement) :: rest) = (key, value) :: keptEntries rest := by
  simp [keptEntries, h]

mutual

theorem agreeValue_quiet (context : ConsensusContext) (path : List String) (value : PlistValue)
    (others : List PlistValue) (hv : value.Ordered) (ho : ∀ other ∈ others, other.Ordered)
    (hq : (agreeValue context path value others).notices = []) :
    (agreeValue context path value others).value = some value ∧
      ∀ other ∈ others, other = value := by
  -- Other dictionaries are gathered key by key; without a notice they hold the same entries.
  rcases agreeValue_cases context path value others with
    ⟨hall, he⟩ | ⟨entries, dictionaries, hvalue, hothers, he⟩ | he
  · exact ⟨congrArg Noted.value he, hall⟩
  · have hentries : Increasing (entries.map Prod.fst) ∧ OrderedEntries entries := by
      rw [hvalue] at hv
      exact hv
    have hdictionaries : ∀ other ∈ dictionaries,
        Increasing (other.map Prod.fst) ∧ OrderedEntries other := fun other hm =>
      ho (.dictionary other) (hothers ▸ List.mem_map_of_mem hm)
    rw [he] at hq ⊢
    simp only [Noted.bind_notices, Noted.pure_notices, List.append_nil] at hq
    obtain ⟨hkept, hquiet, hkeys⟩ := ConsensusContext.gather_quiet
      (keys_agreeEntries context path dictionaries entries) hentries.1 hq
    obtain ⟨hself, hlookup⟩ := agreeEntries_quiet context path dictionaries entries hentries.2
      (fun other hm => (hdictionaries other hm).2) hquiet
    refine ⟨?_, fun other hm => ?_⟩
    · simp only [Noted.bind_value, Noted.pure_value]
      rw [hkept, hself, hvalue]
    · rw [hothers] at hm
      obtain ⟨dictionary, hd, rfl⟩ := List.mem_map.mp hm
      rw [hvalue, eq_of_lookup hentries.1 (hdictionaries dictionary hd).1 (hkeys dictionary hd)
        fun entry hentry => hlookup entry hentry dictionary hd]
  · rw [he] at hq
    cases hq
termination_by sizeOf value
decreasing_by simp [hvalue]

theorem agreeEntries_quiet (context : ConsensusContext) (path : List String)
    (others : List PlistEntries) (entries : PlistEntries) (he : OrderedEntries entries)
    (ho : ∀ other ∈ others, OrderedEntries other)
    (hq : ∀ agreement ∈ agreeEntries context path others entries, agreement.2.notices = []) :
    keptEntries (agreeEntries context path others entries) = entries ∧
      ∀ entry ∈ entries, ∀ other ∈ others, other.lookup entry.1 = some entry.2 := by
  match entries with
  | [] =>
    rw [agreeEntries]
    exact ⟨rfl, nofun⟩
  | (key, value) :: rest =>
    rw [agreeEntries] at hq ⊢
    obtain ⟨hrest, hlookup⟩ := agreeEntries_quiet context path others rest he.2 ho
      fun agreement ha => hq agreement (List.mem_cons_of_mem _ ha)
    have hfirst := hq _ (List.mem_cons_self ..)
    cases hvalues : others.mapM (List.lookup key ·) with
    | none =>
      simp only [hvalues] at hfirst
      cases hfirst
    | some values =>
      simp only [hvalues] at hfirst ⊢
      have hmap := map_eq_of_mapM hvalues
      have hordered : ∀ other ∈ values, other.Ordered := by
        intro other hm
        obtain ⟨dictionary, hd, hl⟩ := List.mem_map.mp (hmap ▸ List.mem_map_of_mem (f := some) hm)
        exact orderedEntries_iff.mp (ho dictionary hd) _ (mem_of_lookup hl)
      obtain ⟨hkept, hsame⟩ := agreeValue_quiet context (path ++ [key]) value values he.1 hordered
        hfirst
      refine ⟨?_, fun entry hm other hother => ?_⟩
      · rw [keptEntries_cons hkept, hrest]
      · rcases List.mem_cons.mp hm with rfl | hm
        · have hl := List.mem_map_of_mem (f := List.lookup key) hother
          rw [hmap] at hl
          obtain ⟨held, hh, hl⟩ := List.mem_map.mp hl
          rw [← hl, hsame held hh]
        · exact hlookup entry hm other hother
termination_by sizeOf entries

end

theorem consensus_quiet {name : String} {lists : List PropertyList}
    (hq : (consensus name lists).notices = []) {list : PropertyList} (hl : list ∈ lists) :
    (consensus name lists).value = list.root.entries := by
  have hroots : list.root.entries ∈ (sortByConfiguration lists).map (·.root.entries) :=
    List.mem_map_of_mem (List.mem_mergeSort.mpr hl)
  have hordered : ∀ entries ∈ (sortByConfiguration lists).map (·.root.entries),
      Increasing (entries.map Prod.fst) ∧ OrderedEntries entries := by
    intro entries hm
    obtain ⟨held, -, rfl⟩ := List.mem_map.mp hm
    exact held.root.ordered
  unfold consensus at hq ⊢
  cases hsorted : (sortByConfiguration lists).map (·.root.entries) with
  | nil =>
    rw [hsorted] at hroots
    cases hroots
  | cons entries others =>
    rw [hsorted] at hroots hordered
    obtain ⟨hentries, hothers⟩ := List.forall_mem_cons.mp hordered
    cases others with
    | nil =>
      simp only [hsorted]
      exact (List.mem_singleton.mp hroots).symm
    | cons other rest =>
      simp only [hsorted] at hq ⊢
      obtain ⟨hkept, hquiet, hkeys⟩ := ConsensusContext.gather_quiet
        (keys_agreeEntries _ [] (other :: rest) entries) hentries.1 hq
      obtain ⟨hself, hlookup⟩ := agreeEntries_quiet _ [] (other :: rest) entries hentries.2
        (fun other hm => (hothers other hm).2) hquiet
      rw [hkept, hself]
      rcases List.mem_cons.mp hroots with he | hm
      · exact he.symm
      · exact (eq_of_lookup hentries.1 (hothers _ hm).1 (hkeys _ hm)
          fun entry hentry => hlookup entry hentry _ hm).symm

end Accessors.Namespace

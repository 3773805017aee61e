import Accessors.Proofs.Namespace.Assembly
import Accessors.Proofs.OrderFree.Consensus

/-!
# What the configurations agree on

At every path the consensus of a property list holds what all configurations hold there: the same
value, or a dictionary each. What is missing in some of them or differs is noted once, at its path
or at one above, and nothing is noted at or above what is kept.
-/

namespace Accessors

namespace Record.PlistValue

def at? : PlistValue → List String → Option PlistValue
  | value, [] => some value
  | .dictionary entries, key :: path => (entries.lookup key).bind (at? · path)
  | _, _ :: _ => none

theorem at?_nil (value : PlistValue) : value.at? [] = some value := by
  rw [at?]

theorem at?_dictionary (entries : PlistEntries) (key : String) (path : List String) :
    (dictionary entries).at? (key :: path) = (entries.lookup key).bind (·.at? path) := by
  rw [at?]

theorem at?_cons_of_entries? {value : PlistValue} (h : value.entries? = none) (key : String)
    (path : List String) : value.at? (key :: path) = none := by
  cases value with
  | dictionary entries => cases h
  | bool | string | array => rw [at?]; nofun

end Record.PlistValue

def Notice.covers (place : List String) : Notice → Bool
  | .configurationMismatch _ path _ _ => path.isPrefixOf place
  | _ => false

namespace Namespace

open Record (PlistEntries PlistValue PropertyList)

/-- All have the same value, or all have a dictionary. -/
def Retained (found : List (Option PlistValue)) : Prop :=
  (∃ value, ∀ held ∈ found, held = some value) ∨
    ∀ held ∈ found, ∃ entries, held = some (.dictionary entries)

theorem not_retained_of_none {found : List (Option PlistValue)} (h : none ∈ found) :
    ¬ Retained found := by
  rintro (⟨value, hall⟩ | hall)
  · cases hall none h
  · obtain ⟨entries, hnone⟩ := hall none h
    cases hnone

/-- What is kept at a place of all that is found there, and which notices cover it. -/
structure Agreed (context : ConsensusContext) (place : List String)
    (found : List (Option PlistValue)) (kept : Option PlistValue) (covering : List Notice) :
    Prop where
  value : ∀ value, value.entries? = none →
    (kept = some value ↔ ∀ held ∈ found, held = some value)
  dictionary : (∃ entries, kept = some (.dictionary entries)) ↔
    ∀ held ∈ found, ∃ entries, held = some (.dictionary entries)
  quiet : Retained found → covering = []
  noted : ¬ Retained found → (∃ value, some value ∈ found) → ∃ path problem, path <+: place ∧
    covering = [.configurationMismatch context.list path problem context.configurations]

namespace Agreed

variable {context : ConsensusContext} {place : List String}
  {found others : List (Option PlistValue)} {kept : Option PlistValue} {covering : List Notice}

theorem congr (hsame : ∀ held, held ∈ found ↔ held ∈ others)
    (h : Agreed context place found kept covering) : Agreed context place others kept covering := by
  have hretained : Retained others ↔ Retained found := by
    simp only [Retained, hsame]
  constructor
  · simpa only [hsame] using h.value
  · simpa only [hsame] using h.dictionary
  · exact fun hr => h.quiet (hretained.mp hr)
  · intro hr hpresent
    exact h.noted (fun hf => hr (hretained.mpr hf)) (by simpa only [hsame] using hpresent)

theorem same (hne : found ≠ []) (h : ∀ held ∈ found, held = kept) :
    Agreed context place found kept [] := by
  obtain ⟨first, hfirst⟩ := List.exists_mem_of_ne_nil found hne
  constructor
  · refine fun value _ => ⟨fun hk held hm => (h held hm).trans hk, fun hall => ?_⟩
    exact (h first hfirst).symm.trans (hall first hfirst)
  · refine ⟨fun ⟨entries, hk⟩ held hm => ⟨entries, (h held hm).trans hk⟩, fun hall => ?_⟩
    exact h first hfirst ▸ hall first hfirst
  · exact fun _ => rfl
  · rintro hr ⟨value, hm⟩
    exact absurd (.inl ⟨value, fun held hh => (h held hh).trans (h _ hm).symm⟩) hr

theorem dictionaries (hne : found ≠ [])
    (h : ∀ held ∈ found, ∃ entries, held = some (.dictionary entries))
    (hk : ∃ entries, kept = some (.dictionary entries)) : Agreed context place found kept [] := by
  obtain ⟨first, hfirst⟩ := List.exists_mem_of_ne_nil found hne
  obtain ⟨entries, rfl⟩ := hk
  constructor
  · intro value hv
    constructor
    · rintro ⟨⟩
      cases hv
    · intro hall
      obtain ⟨inner, hinner⟩ := h first hfirst
      obtain rfl := Option.some.inj ((hall first hfirst).symm.trans hinner)
      cases hv
  · exact ⟨fun _ => h, fun _ => ⟨entries, rfl⟩⟩
  · exact fun _ => rfl
  · exact fun hr => absurd (.inr h) hr

theorem mismatch {path : List String} {problem : Disagreement} (hr : ¬ Retained found)
    (hp : path <+: place) : Agreed context place found none
      [.configurationMismatch context.list path problem context.configurations] := by
  constructor
  · exact fun value _ => ⟨nofun, fun hall => absurd (.inl ⟨value, hall⟩) hr⟩
  · exact ⟨nofun, fun hall => absurd (.inr hall) hr⟩
  · exact fun hkept => absurd hkept hr
  · exact fun _ _ => ⟨path, problem, hp, rfl⟩

end Agreed

def ConsensusContext.Below (context : ConsensusContext) (place : List String) (notice : Notice) :
    Prop :=
  ∃ path problem, place <+: path ∧
    notice = .configurationMismatch context.list path problem context.configurations

namespace ConsensusContext

variable {context : ConsensusContext} {place path : List String} {notice : Notice}

theorem Below.above (h : context.Below place notice) (hp : path <+: place) :
    context.Below path notice := by
  obtain ⟨inner, problem, hi, rfl⟩ := h
  exact ⟨inner, problem, hp.trans hi, rfl⟩

theorem Below.prefix_of_covers (h : context.Below place notice) (hc : notice.covers path = true) :
    place <+: path := by
  obtain ⟨inner, problem, hi, rfl⟩ := h
  exact hi.trans (List.isPrefixOf_iff_prefix.mp hc)

theorem below_mismatch {problem : Disagreement}
    (h : notice ∈ (context.mismatch place problem).notices) : context.Below place notice :=
  ⟨place, problem, List.prefix_rfl, List.mem_singleton.mp h⟩

theorem filter_covers_mismatch {problem : Disagreement} (hp : place <+: path) :
    (context.mismatch place problem).notices.filter (·.covers path) =
      [.configurationMismatch context.list place problem context.configurations] :=
  List.filter_eq_self.mpr fun notice hn => by
    rw [List.mem_singleton.mp hn]
    exact List.isPrefixOf_iff_prefix.mpr hp

end ConsensusContext

theorem agreeEntries_eq_map (context : ConsensusContext) (path : List String)
    (others : List PlistEntries) (entries : PlistEntries) :
    agreeEntries context path others entries = entries.map fun entry =>
      (entry.1, match others.mapM (List.lookup entry.1 ·) with
        | some values => agreeValue context (path ++ [entry.1]) entry.2 values
        | none => context.mismatch (path ++ [entry.1]) .missing) := by
  induction entries with
  | nil => rw [agreeEntries]; rfl
  | cons entry rest ih =>
    obtain ⟨key, value⟩ := entry
    rw [agreeEntries, ih]
    rfl

theorem agreeValue_below (context : ConsensusContext) (path : List String) (value : PlistValue)
    (others : List PlistValue) :
    ∀ notice ∈ (agreeValue context path value others).notices, context.Below path notice := by
  intro notice hn
  rcases agreeValue_cases context path value others with
    ⟨-, he⟩ | ⟨entries, dictionaries, hvalue, -, he⟩ | he <;> rw [he] at hn
  · cases hn
  · rw [Noted.bind_notices, Noted.pure_notices, List.append_nil] at hn
    obtain ⟨agreement, ha, hn⟩ := List.mem_flatMap.mp hn
    rcases List.mem_append.mp (mem_collectEntries ha) with ha | ha
    · rw [agreeEntries_eq_map] at ha
      obtain ⟨⟨key, held⟩, hheld, rfl⟩ := List.mem_map.mp ha
      have hinner : context.Below (path ++ [key]) notice := by
        cases hvalues : dictionaries.mapM (List.lookup key ·) with
        | none =>
          simp only [hvalues] at hn
          exact ConsensusContext.below_mismatch hn
        | some values =>
          simp only [hvalues] at hn
          exact agreeValue_below context (path ++ [key]) held values notice hn
      exact hinner.above (List.prefix_append ..)
    · obtain ⟨key, -, rfl⟩ := List.mem_map.mp ha
      exact (ConsensusContext.below_mismatch hn).above (List.prefix_append ..)
  · exact ConsensusContext.below_mismatch hn
termination_by sizeOf value
decreasing_by
  have hlt := List.sizeOf_lt_of_mem hheld
  simp only [Prod.mk.sizeOf_spec] at hlt
  simp only [hvalue, PlistValue.dictionary.sizeOf_spec]
  omega

def allKeys (roots : List PlistEntries) : List String :=
  distinct (roots.flatMap fun root => root.map Prod.fst)

theorem mem_allKeys {roots : List PlistEntries} {key : String} :
    key ∈ allKeys roots ↔ ∃ root ∈ roots, root.lookup key ≠ none := by
  simp only [allKeys, mem_distinct, List.mem_flatMap]
  refine exists_congr fun root => and_congr_right fun _ => ?_
  rw [Ne, lookup_eq_none_iff_not_mem, not_not]

def ConsensusContext.agreeKey (context : ConsensusContext) (path : List String)
    (roots : List PlistEntries) (key : String) : Agreement :=
  match roots.mapM (List.lookup key ·) with
  | some (value :: values) => agreeValue context (path ++ [key]) value values
  | _ => context.mismatch (path ++ [key]) .missing

namespace ConsensusContext

variable {context : ConsensusContext} {path : List String} {entries : PlistEntries}
  {others : List PlistEntries} {key : String}

theorem agreeKey_of_some {value : PlistValue} (h : entries.lookup key = some value) :
    context.agreeKey path (entries :: others) key =
      match others.mapM (List.lookup key ·) with
      | some values => agreeValue context (path ++ [key]) value values
      | none => context.mismatch (path ++ [key]) .missing := by
  rw [agreeKey, List.mapM_cons, h]
  cases others.mapM (List.lookup key ·) <;> rfl

theorem agreeKey_of_none (h : entries.lookup key = none) :
    context.agreeKey path (entries :: others) key = context.mismatch (path ++ [key]) .missing := by
  rw [agreeKey, List.mapM_cons, h]
  rfl

theorem agreeKey_below (roots : List PlistEntries) :
    ∀ notice ∈ (context.agreeKey path roots key).notices, context.Below (path ++ [key]) notice := by
  intro notice hn
  unfold agreeKey at hn
  split at hn
  · exact agreeValue_below context _ _ _ notice hn
  · exact below_mismatch hn

theorem agreements_eq (hi : Increasing (entries.map Prod.fst)) :
    collectEntries (agreeEntries context path others entries ++
        (missingKeys entries others).map fun key =>
          (key, context.mismatch (path ++ [key]) .missing)) =
      (allKeys (entries :: others)).map fun key =>
        (key, context.agreeKey path (entries :: others) key) := by
  have hshared : agreeEntries context path others entries = (entries.map Prod.fst).map fun key =>
      (key, context.agreeKey path (entries :: others) key) := by
    rw [agreeEntries_eq_map, List.map_map]
    refine List.map_congr_left fun entry he => ?_
    have hlookup : entries.lookup entry.1 = some entry.2 :=
      (lookup_eq_some_iff_of_increasing hi).mpr he
    rw [Function.comp_apply, agreeKey_of_some hlookup]
  have hmissing : ((missingKeys entries others).map fun key =>
      (key, context.mismatch (path ++ [key]) .missing)) =
        (missingKeys entries others).map fun key =>
          (key, context.agreeKey path (entries :: others) key) := by
    refine List.map_congr_left fun key hk => ?_
    rw [agreeKey_of_none (mem_missingKeys_iff.mp hk).2]
  have hd : ((agreeEntries context path others entries ++ (missingKeys entries others).map
      fun key => (key, context.mismatch (path ++ [key]) .missing)).map Prod.fst).Nodup :=
    nodup_keys_agreements (keys_agreeEntries context path others entries) hi
  refine entries_ext (increasing_keys_collectEntries _) ?_ fun agreement => ?_
  · rw [List.map_map]
    exact (List.map_id _).symm ▸ increasing_distinct _
  · have hmem : agreement.1 ∈ allKeys (entries :: others) ↔
        agreement.1 ∈ entries.map Prod.fst ++ missingKeys entries others := by
      rw [allKeys, mem_distinct, List.flatMap_cons, List.mem_append, List.mem_append,
        mem_missingKeys_iff, lookup_eq_none_iff_not_mem, List.mem_flatMap]
      tauto
    rw [show agreement ∈ collectEntries _ ↔ _ from
      ⟨mem_collectEntries, mem_collectEntries_of_nodup hd⟩, hshared, hmissing, ← List.map_append,
      List.mem_map, List.mem_map]
    constructor
    · rintro ⟨key, hk, rfl⟩
      exact ⟨key, hmem.mpr hk, rfl⟩
    · rintro ⟨key, hk, rfl⟩
      exact ⟨key, hmem.mp hk, rfl⟩

theorem gather_value (hi : Increasing (entries.map Prod.fst)) :
    (context.gather path entries others (agreeEntries context path others entries)).value =
      keptEntries ((allKeys (entries :: others)).map fun key =>
        (key, context.agreeKey path (entries :: others) key)) :=
  congrArg keptEntries (agreements_eq hi)

theorem gather_notices (hi : Increasing (entries.map Prod.fst)) :
    (context.gather path entries others (agreeEntries context path others entries)).notices =
      (allKeys (entries :: others)).flatMap fun key =>
        (context.agreeKey path (entries :: others) key).notices := by
  show (collectEntries _).flatMap _ = _
  rw [agreements_eq hi, List.flatMap_map]

theorem lookup_gather (hi : Increasing (entries.map Prod.fst)) (key : String) :
    (context.gather path entries others
        (agreeEntries context path others entries)).value.lookup key =
      if key ∈ allKeys (entries :: others)
        then (context.agreeKey path (entries :: others) key).value else none := by
  ext kept
  rw [lookup_eq_some_iff_of_increasing (increasing_gather _), gather_value hi, keptEntries,
    List.filterMap_map, List.mem_filterMap]
  constructor
  · rintro ⟨held, hk, hkept⟩
    obtain ⟨value, hvalue, ⟨⟩⟩ := Option.map_eq_some_iff.mp hkept
    rw [if_pos hk]
    exact hvalue
  · intro h
    split at h
    · next hk => exact ⟨key, hk, Option.map_eq_some_iff.mpr ⟨kept, h, rfl⟩⟩
    · cases h

theorem filter_covers_gather_nil (hi : Increasing (entries.map Prod.fst)) :
    (context.gather path entries others
      (agreeEntries context path others entries)).notices.filter (·.covers path) = [] := by
  rw [gather_notices hi, List.filter_eq_nil_iff]
  intro notice hn hc
  obtain ⟨key, -, hn⟩ := List.mem_flatMap.mp hn
  have hle := ((agreeKey_below _ notice hn).prefix_of_covers hc).length_le
  rw [List.length_append, List.length_singleton] at hle
  omega

theorem filter_covers_gather_cons (hi : Increasing (entries.map Prod.fst)) (key : String)
    (rest : List String) :
    (context.gather path entries others (agreeEntries context path others entries)).notices.filter
        (·.covers (path ++ key :: rest)) =
      if key ∈ allKeys (entries :: others)
        then (context.agreeKey path (entries :: others) key).notices.filter
          (·.covers (path ++ key :: rest)) else [] := by
  have hother : ∀ other ∈ allKeys (entries :: others), other ≠ key →
      (context.agreeKey path (entries :: others) other).notices.filter
        (·.covers (path ++ key :: rest)) = [] := by
    intro other _ hne
    refine List.filter_eq_nil_iff.mpr fun notice hn hc => hne ?_
    have hp := (agreeKey_below _ notice hn).prefix_of_covers hc
    exact (List.cons_prefix_cons.mp ((List.prefix_append_right_inj path).mp hp)).1
  rw [gather_notices hi]
  split
  · next hk => exact filter_flatMap_eq (increasing_distinct _).nodup hk hother
  · next hk =>
    refine List.filter_eq_nil_iff.mpr fun notice hn hc => ?_
    obtain ⟨other, ho, hn⟩ := List.mem_flatMap.mp hn
    exact List.filter_eq_nil_iff.mp (hother other ho fun he => hk (he ▸ ho)) notice hn hc

end ConsensusContext

/-- The agreement on the values at the front, as the path below it shows it. -/
def AgreedAlong (context : ConsensusContext) (front path : List String) (values : List PlistValue)
    (agreement : Agreement) : Prop :=
  Agreed context (front ++ path) (values.map (·.at? path)) (agreement.value.bind (·.at? path))
    (agreement.notices.filter (·.covers (front ++ path)))

def ConsensusContext.agreeRoots (context : ConsensusContext) (front : List String)
    (entries : PlistEntries) (others : List PlistEntries) : Agreement := do
  let kept ← context.gather front entries others (agreeEntries context front others entries)
  return some (.dictionary kept)

section

variable {context : ConsensusContext} {front : List String} {entries : PlistEntries}
  {others : List PlistEntries}

theorem notices_agreeRoots :
    (context.agreeRoots front entries others).notices =
      (context.gather front entries others (agreeEntries context front others entries)).notices :=
  List.append_nil _

theorem agreeRoots_along_nil (hi : Increasing (entries.map Prod.fst)) :
    AgreedAlong context front [] ((entries :: others).map .dictionary)
      (context.agreeRoots front entries others) := by
  rw [AgreedAlong, notices_agreeRoots, List.append_nil,
    ConsensusContext.filter_covers_gather_nil hi]
  refine .dictionaries (List.cons_ne_nil _ _) (fun held hm => ?_) ⟨_, PlistValue.at?_nil _⟩
  rw [List.map_map] at hm
  obtain ⟨root, -, rfl⟩ := List.mem_map.mp hm
  exact ⟨root, PlistValue.at?_nil _⟩

theorem agreeRoots_along_cons (hi : Increasing (entries.map Prod.fst)) {key : String}
    {rest : List String} (hkey : ∀ value values,
      (entries :: others).mapM (List.lookup key ·) = some (value :: values) →
        AgreedAlong context (front ++ [key]) rest (value :: values)
          (agreeValue context (front ++ [key]) value values)) :
    AgreedAlong context front (key :: rest) ((entries :: others).map .dictionary)
      (context.agreeRoots front entries others) := by
  have hfound : ((entries :: others).map PlistValue.dictionary).map (·.at? (key :: rest)) =
      ((entries :: others).map (List.lookup key ·)).map (·.bind (·.at? rest)) := by
    rw [List.map_map, List.map_map]
    exact List.map_congr_left fun root _ => PlistValue.at?_dictionary root key rest
  have hkept : (context.agreeRoots front entries others).value.bind (·.at? (key :: rest)) =
      (if key ∈ allKeys (entries :: others)
        then (context.agreeKey front (entries :: others) key).value else none).bind
          (·.at? rest) := by
    rw [← ConsensusContext.lookup_gather hi]
    exact PlistValue.at?_dictionary _ key rest
  rw [AgreedAlong, notices_agreeRoots, hfound, hkept,
    ConsensusContext.filter_covers_gather_cons hi]
  by_cases hk : key ∈ allKeys (entries :: others)
  · rw [if_pos hk, if_pos hk, ConsensusContext.agreeKey]
    cases hvalues : (entries :: others).mapM (List.lookup key ·) with
    | none =>
      -- One of the dictionaries lacks the key.
      have hnone : none ∈ (entries :: others).map (List.lookup key ·) := by
        by_contra hn
        obtain ⟨results, hresults⟩ := exists_mapM (f := (List.lookup key ·)) fun root hr =>
          Option.ne_none_iff_exists'.mp fun h => hn (h ▸ List.mem_map_of_mem hr)
        exact nomatch hvalues.symm.trans hresults
      have hp : front ++ [key] <+: front ++ key :: rest := ⟨rest, (List.append_cons ..).symm⟩
      dsimp only
      rw [ConsensusContext.filter_covers_mismatch hp]
      exact .mismatch (not_retained_of_none (List.mem_map.mpr ⟨none, hnone, rfl⟩)) hp
    | some found =>
      have hmap := map_eq_of_mapM hvalues
      cases found with
      | nil => cases hmap
      | cons value values =>
        rw [hmap, List.map_map, List.append_cons]
        exact hkey value values hvalues
  · rw [if_neg hk, if_neg hk]
    refine .same (List.cons_ne_nil _ _) fun held hm => ?_
    rw [List.map_map] at hm
    obtain ⟨root, hr, rfl⟩ := List.mem_map.mp hm
    have hnone : root.lookup key = none := by_contra fun h => hk (mem_allKeys.mpr ⟨root, hr, h⟩)
    rw [Function.comp_apply, hnone]

theorem agreeRoots_along {path : List String}
    (hroots : ∀ root ∈ entries :: others, OrderedRoot root)
    (hinner : ∀ key rest, path = key :: rest → ∀ inner value values,
      (∀ held ∈ value :: values, held.Ordered) →
        AgreedAlong context inner rest (value :: values) (agreeValue context inner value values)) :
    AgreedAlong context front path ((entries :: others).map .dictionary)
      (context.agreeRoots front entries others) := by
  have hi := (hroots entries (List.mem_cons_self ..)).1
  cases path with
  | nil => exact agreeRoots_along_nil hi
  | cons key rest =>
    refine agreeRoots_along_cons hi fun value values hvalues => hinner key rest rfl _ _ _ ?_
    intro held hm
    obtain ⟨root, hr, hl⟩ := (mem_iff_of_mapM hvalues).mp hm
    exact ordered_of_mem hroots ⟨root, hr, mem_of_lookup hl⟩

theorem not_retained_of_mixed {values : List PlistValue}
    (hne : ¬ ∃ value, ∀ held ∈ values, held = value)
    (hmixed : ∃ held ∈ values, held.entries? = none) (path : List String) :
    ¬ Retained (values.map (·.at? path)) := by
  obtain ⟨held, hm, hnone⟩ := hmixed
  have hfound : held.at? path ∈ values.map (·.at? path) := List.mem_map_of_mem hm
  cases path with
  | cons key rest =>
    rw [PlistValue.at?_cons_of_entries? hnone] at hfound
    exact not_retained_of_none hfound
  | nil =>
    rintro (⟨value, hall⟩ | hall)
    · refine hne ⟨value, fun other ho => Option.some.inj ?_⟩
      exact (PlistValue.at?_nil other).symm.trans (hall _ (List.mem_map_of_mem ho))
    · obtain ⟨entries, he⟩ := hall _ hfound
      obtain rfl := Option.some.inj ((PlistValue.at?_nil held).symm.trans he)
      cases hnone

theorem agreeValue_along_of_roots {value : PlistValue} {values : List PlistValue}
    {path : List String} (hroots : ∀ entries others, value = .dictionary entries →
      values = others.map .dictionary →
        AgreedAlong context front path (value :: values)
          (context.agreeRoots front entries others)) :
    AgreedAlong context front path (value :: values) (agreeValue context front value values) := by
  by_cases hall : ∀ held ∈ values, held = value
  · rw [agreeValue_same hall]
    refine .same (List.cons_ne_nil _ _) fun found hm => ?_
    obtain ⟨held, hh, rfl⟩ := List.mem_map.mp hm
    rcases List.mem_cons.mp hh with rfl | hh
    · rfl
    · rw [hall held hh]
      rfl
  · by_cases hmixed : ∃ held ∈ value :: values, held.entries? = none
    · have hp : front <+: front ++ path := List.prefix_append ..
      have hne : ¬ ∃ common, ∀ held ∈ value :: values, held = common := fun ⟨common, hsame⟩ =>
        hall fun held hh => (hsame held (List.mem_cons_of_mem _ hh)).trans
          (hsame value (List.mem_cons_self ..)).symm
      rw [agreeValue_mixed hall hmixed, AgreedAlong, ConsensusContext.filter_covers_mismatch hp]
      exact .mismatch (not_retained_of_mixed hne hmixed path) hp
    · obtain ⟨entries, others, rfl, rfl⟩ := exists_dictionaries hmixed
      rw [agreeValue_dictionaries hall]
      exact hroots entries others rfl rfl

theorem agreeValue_along (path : List String) (front : List String) (value : PlistValue)
    (values : List PlistValue) (hordered : ∀ held ∈ value :: values, held.Ordered) :
    AgreedAlong context front path (value :: values) (agreeValue context front value values) := by
  -- On the path: behind a key there are values to agree on again.
  induction path generalizing front value values with
  | nil =>
    refine agreeValue_along_of_roots ?_
    rintro entries others rfl rfl
    exact agreeRoots_along
      (fun root hr => hordered _ (List.mem_map_of_mem (l := entries :: others) hr)) nofun
  | cons key rest ih =>
    refine agreeValue_along_of_roots ?_
    rintro entries others rfl rfl
    refine agreeRoots_along
      (fun root hr => hordered _ (List.mem_map_of_mem (l := entries :: others) hr)) ?_
    rintro _ _ ⟨⟩
    exact ih

end

theorem gather_copies {context : ConsensusContext} {front : List String} {entries : PlistEntries}
    {others : List PlistEntries} (hi : Increasing (entries.map Prod.fst))
    (hsame : ∀ other ∈ others, other = entries) :
    (context.gather front entries others (agreeEntries context front others entries)).notices =
      [] := by
  rw [ConsensusContext.gather_notices hi, List.flatMap_eq_nil_iff]
  intro key hk
  obtain ⟨root, hr, hl⟩ := mem_allKeys.mp hk
  obtain rfl : root = entries := (List.mem_cons.mp hr).elim id (hsame root)
  obtain ⟨value, hvalue⟩ := Option.ne_none_iff_exists'.mp hl
  obtain ⟨values, hvalues⟩ : ∃ values, others.mapM (List.lookup key ·) = some values :=
    exists_mapM fun other ho => ⟨value, hsame other ho ▸ hvalue⟩
  have hall : ∀ held ∈ values, held = value := by
    intro held hm
    obtain ⟨other, ho, hheld⟩ := (mem_iff_of_mapM hvalues).mp hm
    rw [hsame other ho, hvalue] at hheld
    exact (Option.some.inj hheld).symm
  rw [ConsensusContext.agreeKey_of_some hvalue, hvalues]
  exact congrArg Noted.notices (agreeValue_same hall)

theorem consensus_copies (name : String) {lists : List PropertyList} {list : PropertyList}
    (hne : lists ≠ []) (hsame : ∀ other ∈ lists, other = list) :
    consensus name lists = pure list.root.entries := by
  obtain ⟨first, hfirst⟩ := List.exists_mem_of_ne_nil lists hne
  have hroots : ∀ root ∈ (sortByConfiguration lists).map (·.root.entries),
      root = list.root.entries := by
    intro root hr
    obtain ⟨other, ho, rfl⟩ := List.mem_map.mp hr
    rw [hsame other (List.mem_mergeSort.mp ho)]
  have hquiet : (consensus name lists).notices = [] := by
    unfold consensus
    dsimp only
    generalize (sortByConfiguration lists).map (·.root.entries) = roots at hroots
    match roots, hroots with
    | [], _ => rfl
    | [_], _ => rfl
    | entries :: other :: rest, hroots =>
      obtain rfl := hroots entries (List.mem_cons_self ..)
      exact gather_copies list.root.ordered.1 fun root hr => hroots root (List.mem_cons_of_mem _ hr)
  have hvalue := consensus_quiet hquiet hfirst
  rw [hsame first hfirst] at hvalue
  exact congrArg₂ Noted.mk hvalue hquiet

theorem consensus_agreed (name : String) {lists : List PropertyList} (hne : lists ≠ [])
    (path : List String) :
    Agreed ⟨name, (sortByConfiguration lists).map (·.configuration)⟩ path
      (lists.map fun list => (PlistValue.dictionary list.root.entries).at? path)
      ((PlistValue.dictionary (consensus name lists).value).at? path)
      ((consensus name lists).notices.filter (·.covers path)) := by
  have hsorted : (sortByConfiguration lists).Perm lists := List.mergeSort_perm ..
  have hroots : ∀ root ∈ (sortByConfiguration lists).map (·.root.entries), OrderedRoot root := by
    intro root hr
    obtain ⟨list, -, rfl⟩ := List.mem_map.mp hr
    exact list.root.ordered
  have hfound : (lists.map fun list => (PlistValue.dictionary list.root.entries).at? path).Perm
      ((((sortByConfiguration lists).map (·.root.entries)).map PlistValue.dictionary).map
        (·.at? path)) := by
    rw [List.map_map, List.map_map]
    exact (hsorted.map _).symm
  refine Agreed.congr (fun held => hfound.symm.mem_iff) ?_
  unfold consensus
  dsimp only
  cases hcase : (sortByConfiguration lists).map (·.root.entries) with
  | nil => exact absurd (List.map_eq_nil_iff.mp hcase ▸ hsorted.symm).eq_nil hne
  | cons entries others =>
    rw [hcase] at hroots
    cases others with
    | nil => exact .same (List.cons_ne_nil _ _) fun held hm => List.mem_singleton.mp hm
    | cons other rest =>
      let context : ConsensusContext :=
        ⟨name, (sortByConfiguration lists).map (·.configuration)⟩
      have halong : AgreedAlong context [] path ((entries :: other :: rest).map .dictionary)
          (context.agreeRoots [] entries (other :: rest)) :=
        agreeRoots_along hroots fun _ below _ => agreeValue_along below
      rw [← notices_agreeRoots]
      exact halong

/-- The consensus of a property list is the common part of its configurations. -/
theorem consensus_common (name : String) {lists : List PropertyList} (hne : lists ≠ []) :
    (∀ path, Agreed ⟨name, (sortByConfiguration lists).map (·.configuration)⟩ path
      (lists.map fun list => (PlistValue.dictionary list.root.entries).at? path)
      ((PlistValue.dictionary (consensus name lists).value).at? path)
      ((consensus name lists).notices.filter (·.covers path))) ∧
    (∀ others, lists.Perm others → (consensus name others).value = (consensus name lists).value) ∧
    ∀ list, (∀ other ∈ lists, other = list) → consensus name lists = pure list.root.entries :=
  ⟨consensus_agreed name hne, fun _ h => (consensus_eq_of_perm name h).symm,
    fun _ hsame => consensus_copies name hne hsame⟩

def hostLists : List PropertyList := [
  ⟨"Info", "Release", ⟨[("Hosts", .dictionary [("Live", .string "a"), ("Test", .string "r")])],
    by decide, ⟨by decide, trivial, trivial, trivial⟩, trivial⟩⟩,
  ⟨"Info", "Debug", ⟨[("Hosts", .dictionary [("Live", .string "a"), ("Test", .string "d")])],
    by decide, ⟨by decide, trivial, trivial, trivial⟩, trivial⟩⟩]

theorem consensus_common_hosts : hostLists ≠ [] ∧
    (PlistValue.dictionary (consensus "Info" hostLists).value).at? ["Hosts", "Live"] =
      some (.string "a") ∧
    (consensus "Info" hostLists).notices.filter (·.covers ["Hosts", "Live"]) = [] ∧
    ((consensus "Info" hostLists).notices.filter (·.covers ["Hosts", "Test"])).length = 1 := by
  have hne : hostLists ≠ [] := by decide
  have hagreed := (consensus_common "Info" hne).1
  have hdiffer : ¬ Retained (hostLists.map fun list =>
      (PlistValue.dictionary list.root.entries).at? ["Hosts", "Test"]) := by
    rintro (⟨value, hall⟩ | hall)
    · have hrelease := hall (some (.string "r")) (by decide +kernel)
      have hdebug := hall (some (.string "d")) (by decide +kernel)
      exact absurd (hrelease.trans hdebug.symm) (by decide)
    · obtain ⟨entries, he⟩ := hall (some (.string "r")) (by decide +kernel)
      cases he
  refine ⟨hne, ?_, ?_, ?_⟩
  · exact ((hagreed ["Hosts", "Live"]).value _ rfl).mpr (by decide +kernel)
  · exact (hagreed ["Hosts", "Live"]).quiet (.inl ⟨.string "a", by decide +kernel⟩)
  · obtain ⟨path, problem, -, hone⟩ := (hagreed ["Hosts", "Test"]).noted hdiffer
      ⟨.string "r", by decide +kernel⟩
    rw [hone]
    rfl

end Namespace

end Accessors

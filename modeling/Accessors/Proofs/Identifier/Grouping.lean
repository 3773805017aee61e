import Mathlib.Data.List.Nodup
import Accessors.Identifier.Grouping

/-!
# What grouping keeps

An item is kept if its name has an identifier that no other item shares. The identifiers of the kept
items increase, and a grouping that gives no notice keeps all items.
-/

namespace Accessors

variable {α : Type}

theorem filter_eq_singleton_iff {p : α → Bool} {item : α} (hp : p item = true)
    (before behind : List α) :
    (before ++ item :: behind).filter p = [item] ↔
      ∀ other ∈ before ++ behind, ¬ p other = true := by
  rw [← List.filter_eq_nil_iff, List.filter_append, List.filter_append, List.filter_cons_of_pos hp]
  constructor
  · intro h
    have hlength := congrArg List.length h
    simp only [List.length_append, List.length_cons, List.length_nil] at hlength
    exact List.eq_nil_of_length_eq_zero (by rw [List.length_append]; omega)
  · intro h
    obtain ⟨hbefore, hbehind⟩ := List.append_eq_nil_iff.mp h
    rw [hbefore, hbehind]
    rfl

theorem filter_eq_singleton {items : List α} {p : α → Bool} {item : α} (hd : items.Nodup)
    (hm : item ∈ items) (hp : p item = true) (ho : ∀ other ∈ items, p other = true → other = item) :
    items.filter p = [item] := by
  obtain ⟨before, behind, rfl⟩ := List.append_of_mem hm
  have hnot := (List.nodup_cons.mp (List.nodup_middle.mp hd)).1
  refine (filter_eq_singleton_iff hp before behind).mpr fun other hother hpo => hnot ?_
  exact ho other (List.perm_middle.mem_iff.mpr (List.mem_cons_of_mem _ hother)) hpo ▸ hother

theorem filterMap_sublist_map {β : Type} {f : α → Option β} {g : α → β} {items : List α}
    (h : ∀ item ∈ items, ∀ y, f item = some y → y = g item) :
    (items.filterMap f).Sublist (items.map g) := by
  induction items with
  | nil => exact List.Sublist.slnil
  | cons first rest ih =>
    have hrest := ih fun item hi => h item (List.mem_cons_of_mem _ hi)
    cases hf : f first with
    | none =>
      rw [List.filterMap_cons_none hf, List.map_cons]
      exact hrest.cons _
    | some y =>
      rw [List.filterMap_cons_some hf, List.map_cons, h first (List.mem_cons_self ..) y hf]
      exact hrest.cons_cons _

namespace Identifier

variable {key : α → String} {items : List α}

theorem unique?_eq_some_iff {bucket : String × List (Named α)} {named : Named α} :
    unique? bucket = some named ↔ bucket.2 = [named] := by
  obtain ⟨identifier, bucket⟩ := bucket
  match bucket with
  | [] => simp [unique?]
  | [x] => simp [unique?]
  | x :: y :: rest => simp [unique?]

theorem duplicate?_eq_none_iff {bucket : String × List (Named α)} :
    duplicate? bucket = none ↔ ∃ named, bucket.2 = [named] := by
  obtain ⟨identifier, bucket⟩ := bucket
  match bucket with
  | [] => simp [duplicate?]
  | [x] => simp [duplicate?]
  | x :: y :: rest => simp [duplicate?]

theorem duplicate?_eq_some_iff {bucket : String × List (Named α)}
    {duplicate : String × List String} :
    duplicate? bucket = some duplicate ↔ (∀ named, bucket.2 ≠ [named]) ∧
      duplicate = (bucket.1, (bucket.2.map Named.rawKey).mergeSort) := by
  obtain ⟨identifier, bucket⟩ := bucket
  match bucket with
  | [] => simp [duplicate?, eq_comm]
  | [x] => simp [duplicate?]
  | x :: y :: rest => simp [duplicate?, eq_comm]

theorem filter_nonempty_filter (named : List (Named α)) {identifier : String}
    (hne : identifier ≠ "") :
    (named.filter (·.identifier != "")).filter (·.identifier == identifier) =
      named.filter (·.identifier == identifier) := by
  rw [List.filter_filter]
  apply List.filter_congr
  intro x _
  by_cases h : x.identifier = identifier <;> simp [h, hne]

theorem mem_uniques_iff {named : Named α} :
    named ∈ (group key items).uniques ↔
      named.identifier ≠ "" ∧
        (items.map (name key)).filter (·.identifier == named.identifier) = [named] := by
  simp only [group, List.mem_filterMap, mem_buckets_iff, unique?_eq_some_iff]
  constructor
  · rintro ⟨bucket, ⟨⟨item, hm, hk⟩, hb⟩, hs⟩
    have hne : bucket.1 ≠ "" := by
      rw [← hk]
      simpa using (List.mem_filter.mp hm).2
    rw [hs, filter_nonempty_filter _ hne] at hb
    have hid : named.identifier = bucket.1 := by
      have hmem : named ∈ (items.map (name key)).filter (·.identifier == bucket.1) := by
        simp [← hb]
      simpa using (List.mem_filter.mp hmem).2
    exact ⟨hid ▸ hne, hid ▸ hb.symm⟩
  · rintro ⟨hne, hb⟩
    have hmem : named ∈ (items.map (name key)).filter (·.identifier == named.identifier) := by
      simp [hb]
    refine ⟨(named.identifier, [named]), ⟨⟨named, ?_, rfl⟩, ?_⟩, rfl⟩
    · exact List.mem_filter.mpr ⟨(List.mem_filter.mp hmem).1, by simpa using hne⟩
    · rw [filter_nonempty_filter _ hne]
      exact hb.symm

theorem exists_of_mem_uniques {named : Named α} (h : named ∈ (group key items).uniques) :
    ∃ item ∈ items, named = name key item := by
  have hb := (mem_uniques_iff.mp h).2
  have hmem : named ∈ (items.map (name key)).filter (·.identifier == named.identifier) := by
    simp [hb]
  obtain ⟨item, hi, he⟩ := List.mem_map.mp (List.mem_filter.mp hmem).1
  exact ⟨item, hi, he.symm⟩

theorem mem_uniques_of_alone {item : α} (hd : items.Nodup) (hm : item ∈ items)
    (hne : ofName (key item) ≠ "")
    (halone : ∀ other ∈ items, ofName (key other) = ofName (key item) → other = item) :
    name key item ∈ (group key items).uniques := by
  refine mem_uniques_iff.mpr ⟨hne, ?_⟩
  have hfilter : items.filter (fun other => ofName (key other) == ofName (key item)) = [item] :=
    filter_eq_singleton hd hm (by simp) fun other ho he => halone other ho (by simpa using he)
  rw [List.filter_map, show (fun named : Named α => named.identifier ==
    (name key item).identifier) ∘ name key = fun other => ofName (key other) == ofName (key item)
      from rfl, hfilter]
  rfl

theorem filter_map_name (key : α → String) (items : List α) (identifier : String) :
    (items.map (name key)).filter (·.identifier == identifier) =
      (items.filter fun item => ofName (key item) == identifier).map (name key) := List.filter_map

theorem name_mem_uniques_iff {item : α} :
    name key item ∈ (group key items).uniques ↔ ofName (key item) ≠ "" ∧
      items.filter (fun other => ofName (key other) == ofName (key item)) = [item] := by
  rw [mem_uniques_iff, filter_map_name, List.map_eq_singleton_iff]
  refine and_congr_right fun _ => ⟨?_, fun h => ⟨item, h, rfl⟩⟩
  rintro ⟨held, hfilter, hheld⟩
  obtain rfl : held = item := congrArg Named.item hheld
  exact hfilter

theorem mem_items_uniques_iff {item : α} :
    item ∈ (group key items).uniques.map Named.item ↔ ofName (key item) ≠ "" ∧
      items.filter (fun other => ofName (key other) == ofName (key item)) = [item] := by
  rw [List.mem_map]
  constructor
  · rintro ⟨named, hnamed, rfl⟩
    obtain ⟨other, -, rfl⟩ := exists_of_mem_uniques hnamed
    exact name_mem_uniques_iff.mp hnamed
  · intro h
    exact ⟨name key item, name_mem_uniques_iff.mpr h, rfl⟩

theorem mem_duplicates_of_shared {item : α} (hm : item ∈ items) (hne : ofName (key item) ≠ "")
    (hshared : ∀ other,
      items.filter (fun other => ofName (key other) == ofName (key item)) ≠ [other]) :
    (ofName (key item), ((items.filter fun other =>
        ofName (key other) == ofName (key item)).map key).mergeSort) ∈
      (group key items).duplicates := by
  let bucket := (ofName (key item),
    (items.filter fun other => ofName (key other) == ofName (key item)).map (name key))
  have hbucket : bucket ∈ buckets Named.identifier
      ((items.map (name key)).filter (·.identifier != "")) := by
    refine mem_buckets_iff.mpr ⟨⟨name key item, List.mem_filter.mpr
      ⟨List.mem_map_of_mem hm, by simpa [name] using hne⟩, rfl⟩, ?_⟩
    rw [filter_nonempty_filter _ hne, filter_map_name]
  refine List.mem_filterMap.mpr ⟨bucket, hbucket, duplicate?_eq_some_iff.mpr ⟨?_, ?_⟩⟩
  · intro named hnamed
    obtain ⟨other, hother, -⟩ := List.map_eq_singleton_iff.mp hnamed
    exact hshared other hother
  · rw [List.map_map]
    rfl

theorem mem_notices_of_mem_duplicates {what scope identifier : String} {rawKeys : List String}
    {grouping : Grouping α} (h : (identifier, rawKeys) ∈ grouping.duplicates) :
    .identifierCollision what scope identifier rawKeys ∈ grouping.notices what scope :=
  List.mem_append_left _ (List.mem_map.mpr ⟨_, h, rfl⟩)

theorem cases_of_mem_notices {what scope : String} {grouping : Grouping α} {notice : Notice}
    (h : notice ∈ grouping.notices what scope) :
    (∃ identifier rawKeys, notice = .identifierCollision what scope identifier rawKeys) ∨
      ∃ rawKey, notice = .identifierEmpty what scope rawKey := by
  rcases List.mem_append.mp h with h | h
  · obtain ⟨⟨identifier, rawKeys⟩, -, rfl⟩ := List.mem_map.mp h
    exact .inl ⟨identifier, rawKeys, rfl⟩
  · obtain ⟨rawKey, -, rfl⟩ := List.mem_map.mp h
    exact .inr ⟨rawKey, rfl⟩

theorem filter_notices_eq_nil {what scope : String} (grouping : Grouping α) {p : Notice → Bool}
    (hcollision : ∀ identifier rawKeys,
      p (.identifierCollision what scope identifier rawKeys) = false)
    (hempty : ∀ rawKey, p (.identifierEmpty what scope rawKey) = false) :
    (grouping.notices what scope).filter p = [] := by
  refine List.filter_eq_nil_iff.mpr fun notice hn => ?_
  rcases cases_of_mem_notices hn with ⟨identifier, rawKeys, rfl⟩ | ⟨rawKey, rfl⟩
  · rw [hcollision]
    exact Bool.false_ne_true
  · rw [hempty]
    exact Bool.false_ne_true

theorem increasing_uniques (key : α → String) (items : List α) :
    Increasing ((group key items).uniques.map Named.identifier) := by
  have hsorted := increasing_keys_buckets Named.identifier
    ((items.map (name key)).filter (·.identifier != ""))
  refine List.Pairwise.sublist ?_ hsorted
  simp only [group, List.map_filterMap]
  apply filterMap_sublist_map
  intro bucket hb identifier hid
  obtain ⟨named, hu, rfl⟩ := Option.map_eq_some_iff.mp hid
  have hmem : named ∈ bucket.2 := by simp [unique?_eq_some_iff.mp hu]
  rw [(mem_buckets_iff.mp hb).2] at hmem
  simpa using (List.mem_filter.mp hmem).2

/-- The name is one of the names, has an identifier, and shares it with no other of them. -/
structure Alone (names : List String) (name : String) : Prop where
  mem : name ∈ names
  nonempty : ofName name ≠ ""
  unshared : ∀ other ∈ names, ofName other = ofName name → other = name

theorem Alone.congr {names others : List String} {name : String}
    (hmem : ∀ other, other ∈ names ↔ other ∈ others) (h : Alone names name) :
    Alone others name where
  mem := (hmem name).mp h.mem
  nonempty := h.nonempty
  unshared := fun other ho => h.unshared other ((hmem other).mpr ho)

theorem Alone.mem_uniques {item : α} (hd : (items.map key).Nodup) (hm : item ∈ items)
    (h : Alone (items.map key) (key item)) : name key item ∈ (group key items).uniques := by
  refine mem_uniques_of_alone (List.Pairwise.of_map key (fun a b hne he => hne (he ▸ rfl)) hd) hm
    h.nonempty fun other ho he => ?_
  exact List.inj_on_of_nodup_map hd ho hm (h.unshared (key other) (List.mem_map_of_mem ho) he)

theorem alone_of_mem_uniques {named : Named α} (h : named ∈ (group key items).uniques) :
    Alone (items.map key) (key named.item) := by
  obtain ⟨item, hi, rfl⟩ := exists_of_mem_uniques h
  obtain ⟨hne, hfilter⟩ := name_mem_uniques_iff.mp h
  refine ⟨List.mem_map_of_mem hi, hne, fun name hn he => ?_⟩
  obtain ⟨other, ho, rfl⟩ := List.mem_map.mp hn
  have hmem : other ∈ items.filter fun other => ofName (key other) == ofName (key item) :=
    List.mem_filter.mpr ⟨ho, beq_iff_eq.mpr he⟩
  rw [hfilter, List.mem_singleton] at hmem
  exact congrArg key hmem

section

variable {β : Type}

def Named.map (f : α → β) (named : Named α) : Named β :=
  ⟨named.identifier, named.rawKey, f named.item⟩

theorem unique?_map (f : α → β) (bucket : String × List (Named α)) :
    unique? (bucket.1, bucket.2.map (Named.map f)) = (unique? bucket).map (Named.map f) := by
  obtain ⟨identifier, bucket⟩ := bucket
  match bucket with
  | [] => rfl
  | [x] => rfl
  | x :: y :: rest => rfl

theorem duplicate?_map (f : α → β) (bucket : String × List (Named α)) :
    duplicate? (bucket.1, bucket.2.map (Named.map f)) = duplicate? bucket := by
  obtain ⟨identifier, bucket⟩ := bucket
  match bucket with
  | [] => rfl
  | [x] => rfl
  | x :: y :: rest => simp [duplicate?, Named.map, Function.comp_def]

theorem group_map (key : β → String) (f : α → β) (items : List α) :
    group key (items.map f) =
      { uniques := (group (key ∘ f) items).uniques.map (Named.map f)
        duplicates := (group (key ∘ f) items).duplicates
        empties := (group (key ∘ f) items).empties } := by
  have hnamed : (items.map f).map (name key) = (items.map (name (key ∘ f))).map (Named.map f) := by
    rw [List.map_map, List.map_map]
    rfl
  have hfilter : ∀ p : String → Bool,
      ((items.map f).map (name key)).filter (fun named => p named.identifier) =
        ((items.map (name (key ∘ f))).filter fun named => p named.identifier).map
          (Named.map f) := by
    intro p
    rw [hnamed, List.filter_map]
    rfl
  have hbuckets : ∀ named : List (Named α),
      buckets Named.identifier (named.map (Named.map f)) =
        (buckets Named.identifier named).map fun bucket =>
          (bucket.1, bucket.2.map (Named.map f)) := by
    intro named
    simp only [buckets, List.map_map, List.filter_map]
    rfl
  dsimp only [group]
  rw [hfilter (· != ""), hfilter (· == ""), hbuckets]
  simp only [List.filterMap_map, Function.comp_def, unique?_map, duplicate?_map,
    List.map_filterMap, List.map_map]
  rfl

end

theorem mem_uniques_of_notices_eq_nil {what scope : String} {item : α}
    (h : (uniques what scope key items).notices = []) (hm : item ∈ items) :
    name key item ∈ (group key items).uniques := by
  obtain ⟨hdup, hempty⟩ := List.append_eq_nil_iff.mp h
  have hnamed : name key item ∈ items.map (name key) := List.mem_map_of_mem hm
  have hne : ofName (key item) ≠ "" := by
    intro he
    have hmem : name key item ∈ (items.map (name key)).filter (·.identifier == "") :=
      List.mem_filter.mpr ⟨hnamed, by simpa [name] using he⟩
    have : (group key items).empties = [] := List.map_eq_nil_iff.mp hempty
    exact List.ne_nil_of_mem (List.mem_map_of_mem (f := Named.rawKey) hmem) this
  let kept := (items.map (name key)).filter (·.identifier != "")
  have hkept : name key item ∈ kept := List.mem_filter.mpr ⟨hnamed, by simpa [name] using hne⟩
  let bucket := (ofName (key item), kept.filter (·.identifier == ofName (key item)))
  have hb : bucket ∈ buckets Named.identifier kept :=
    mem_buckets_iff.mpr ⟨⟨name key item, hkept, rfl⟩, rfl⟩
  have hsingle : duplicate? bucket = none := by
    have hall : (group key items).duplicates = [] := List.map_eq_nil_iff.mp hdup
    exact List.filterMap_eq_nil_iff.mp hall bucket hb
  obtain ⟨named, hs⟩ := duplicate?_eq_none_iff.mp hsingle
  have hself : name key item ∈ bucket.2 := List.mem_filter.mpr ⟨hkept, by simp [name]⟩
  rw [hs, List.mem_singleton] at hself
  exact List.mem_filterMap.mpr ⟨bucket, hb, unique?_eq_some_iff.mpr (hself ▸ hs)⟩

end Identifier

end Accessors

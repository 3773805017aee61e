import Mathlib
import Accessors.Proofs.Identifier.Grouping
import Accessors.Proofs.Permutation

/-!
# Grouping as a partition

Grouping sends each item to one place: to the kept items if no other item has its identifier, else
to the names that share this identifier, or to the names without one. Nothing is lost, and names
that are given several times are counted several times. Only the names without an identifier are
listed in the order of the items; the rest of the grouping does not depend on it.
-/

namespace Accessors

variable {α : Type}

theorem perm_flatMap_filter (key : α → String) {keys : List String} {items : List α}
    (hkeys : keys.Nodup) (hitems : ∀ item ∈ items, key item ∈ keys) :
    (keys.flatMap fun k => items.filter (key · == k)).Perm items := by
  induction keys generalizing items with
  | nil =>
    obtain rfl : items = [] := List.eq_nil_iff_forall_not_mem.mpr fun item hm =>
      List.not_mem_nil (hitems item hm)
    exact List.Perm.nil
  | cons k keys ih =>
    obtain ⟨hk, hkeys⟩ := List.nodup_cons.mp hkeys
    let others := items.filter fun item => !(key item == k)
    have hothers : ∀ item ∈ others, key item ∈ keys := by
      intro item hm
      obtain ⟨hm, hne⟩ := List.mem_filter.mp hm
      refine (List.mem_cons.mp (hitems item hm)).resolve_left fun he => ?_
      simp [he] at hne
    have hbuckets : (keys.flatMap fun k' => items.filter (key · == k')) =
        keys.flatMap fun k' => others.filter (key · == k') := by
      refine List.flatMap_congr fun k' hk' => ?_
      rw [List.filter_filter]
      refine List.filter_congr fun item _ => ?_
      by_cases he : key item = k'
      · have hne : k' ≠ k := fun hkk => hk (hkk ▸ hk')
        simp [he, hne]
      · simp [he]
    rw [List.flatMap_cons, hbuckets]
    exact ((ih hkeys hothers).append_left _).trans (List.filter_append_perm _ items)

theorem perm_flatMap_buckets (key : α → String) (items : List α) :
    ((buckets key items).flatMap Prod.snd).Perm items := by
  rw [buckets, List.flatMap_map]
  refine perm_flatMap_filter key (increasing_distinct _).nodup fun item hm => ?_
  exact mem_distinct.mpr (List.mem_map_of_mem hm)

theorem filterMap_buckets_eq_of_perm {β : Type} {key : α → String}
    {f : String × List α → Option β} {xs ys : List α} (h : xs.Perm ys)
    (hf : ∀ k, f (k, xs.filter (key · == k)) = f (k, ys.filter (key · == k))) :
    (buckets key xs).filterMap f = (buckets key ys).filterMap f := by
  have hmap := congrArg (List.filterMap id) (map_buckets_eq_of_perm h hf)
  rwa [List.filterMap_map, List.filterMap_map] at hmap

theorem eq_mergeSort_iff {texts sorted : List String} :
    sorted = texts.mergeSort ↔ sorted.Pairwise (· ≤ ·) ∧ sorted.Perm texts := by
  constructor
  · rintro rfl
    exact ⟨List.pairwise_mergeSort' (· ≤ ·) texts, List.mergeSort_perm texts _⟩
  · rintro ⟨hsorted, hperm⟩
    exact List.Perm.eq_of_pairwise (fun a b _ _ => String.le_antisymm) hsorted
      (List.pairwise_mergeSort' (· ≤ ·) texts) (hperm.trans (List.mergeSort_perm texts _).symm)

namespace Identifier

variable {key : α → String} {items others : List α} {item : α}

theorem unique?_eq_of_perm {identifier : String} {xs ys : List (Named α)} (h : xs.Perm ys) :
    unique? (identifier, xs) = unique? (identifier, ys) := by
  refine Option.ext fun named => ?_
  rw [unique?_eq_some_iff, unique?_eq_some_iff]
  constructor
  · rintro rfl
    exact List.perm_singleton.mp h.symm
  · rintro rfl
    exact List.perm_singleton.mp h

theorem duplicate?_eq_of_perm {identifier : String} {xs ys : List (Named α)} (h : xs.Perm ys) :
    duplicate? (identifier, xs) = duplicate? (identifier, ys) := by
  have hsorted : (xs.map Named.rawKey).mergeSort = (ys.map Named.rawKey).mergeSort :=
    eq_mergeSort_iff.mpr ⟨List.pairwise_mergeSort' (· ≤ ·) _,
      (List.mergeSort_perm _ _).trans (h.map Named.rawKey)⟩
  have hsingle : ∀ named, xs = [named] ↔ ys = [named] := by
    intro named
    constructor
    · rintro rfl
      exact List.perm_singleton.mp h.symm
    · rintro rfl
      exact List.perm_singleton.mp h
  refine Option.ext fun duplicate => ?_
  simp only [duplicate?_eq_some_iff, hsorted, ne_eq, hsingle]

theorem perm_rawKeys_bucket (bucket : String × List (Named α)) :
    ((unique? bucket).toList.map Named.rawKey ++ (duplicate? bucket).toList.flatMap Prod.snd).Perm
      (bucket.2.map Named.rawKey) := by
  obtain ⟨identifier, bucket⟩ := bucket
  match bucket with
  | [] => simp [unique?, duplicate?]
  | [x] => simp [unique?, duplicate?]
  | x :: y :: rest => simpa [unique?, duplicate?] using List.mergeSort_perm _ _

theorem perm_rawKeys_buckets (sorted : List (String × List (Named α))) :
    ((sorted.filterMap unique?).map Named.rawKey ++
        (sorted.filterMap duplicate?).flatMap Prod.snd).Perm
      ((sorted.flatMap Prod.snd).map Named.rawKey) := by
  induction sorted with
  | nil => exact List.Perm.nil
  | cons bucket sorted ih =>
    have huniques : ((bucket :: sorted).filterMap unique?).map Named.rawKey =
        (unique? bucket).toList.map Named.rawKey ++
          (sorted.filterMap unique?).map Named.rawKey := by
      rw [List.filterMap_cons]
      cases unique? bucket <;> rfl
    have hduplicates : ((bucket :: sorted).filterMap duplicate?).flatMap Prod.snd =
        (duplicate? bucket).toList.flatMap Prod.snd ++
          (sorted.filterMap duplicate?).flatMap Prod.snd := by
      rw [List.filterMap_cons]
      cases duplicate? bucket <;> simp
    rw [huniques, hduplicates, List.flatMap_cons, List.map_append]
    refine List.Perm.trans ?_ ((perm_rawKeys_bucket bucket).append ih)
    rw [List.append_assoc, List.append_assoc]
    exact (List.perm_append_comm_assoc ..).append_left _

inductive Place where
  | kept
  | shared (identifier : String)
  | unnamed

def Grouping.Holds (grouping : Grouping α) (key : α → String) (item : α) : Place → Prop
  | .kept => name key item ∈ grouping.uniques
  | .shared identifier =>
    ∃ rawKeys, (identifier, rawKeys) ∈ grouping.duplicates ∧ key item ∈ rawKeys
  | .unnamed => key item ∈ grouping.empties

theorem empties_eq (key : α → String) (items : List α) :
    (group key items).empties = (items.map key).filter (ofName · == "") := by
  simp only [group, List.filter_map, List.map_map]
  rfl

theorem rawKeys_filter (key : α → String) (items : List α) (identifier : String) :
    ((items.map (name key)).filter (·.identifier == identifier)).map Named.rawKey =
      (items.map key).filter (ofName · == identifier) := by
  rw [filter_map_name, List.filter_map, List.map_map]
  rfl

theorem mem_duplicates_iff {identifier : String} {rawKeys : List String} :
    (identifier, rawKeys) ∈ (group key items).duplicates ↔
      identifier ≠ "" ∧ 2 ≤ rawKeys.length ∧ rawKeys.Pairwise (· ≤ ·) ∧
        rawKeys.Perm ((items.map key).filter (ofName · == identifier)) := by
  rw [← eq_mergeSort_iff, ← rawKeys_filter]
  simp only [group, List.mem_filterMap, mem_buckets_iff, duplicate?_eq_some_iff]
  let bucket := (items.map (name key)).filter (·.identifier == identifier)
  constructor
  · rintro ⟨⟨identifier', held⟩, ⟨⟨named, hnamed, rfl⟩, hheld⟩, hne, he⟩
    obtain ⟨rfl, rfl⟩ := Prod.mk.inj he
    obtain ⟨hmem, hnonempty⟩ := List.mem_filter.mp hnamed
    have hid : named.identifier ≠ "" := by simpa using hnonempty
    rw [filter_nonempty_filter _ hid] at hheld
    obtain rfl : held = _ := hheld
    have hself : named ∈ (items.map (name key)).filter (·.identifier == named.identifier) :=
      List.mem_filter.mpr ⟨hmem, by simp⟩
    refine ⟨hid, ?_, rfl⟩
    rw [List.length_mergeSort, List.length_map]
    rcases hbucket : (items.map (name key)).filter (·.identifier == named.identifier) with
      _ | ⟨x, _ | ⟨y, rest⟩⟩
    · exact absurd (hbucket ▸ hself) List.not_mem_nil
    · exact absurd hbucket (hne x)
    · rw [show (named.identifier, _).2 = x :: y :: rest from hbucket]
      exact Nat.le_add_left 2 rest.length
  · rintro ⟨hid, hlength, rfl⟩
    rw [List.length_mergeSort, List.length_map] at hlength
    obtain ⟨named, hnamed⟩ :=
      List.exists_mem_of_length_pos (Nat.lt_of_lt_of_le Nat.zero_lt_two hlength)
    obtain ⟨hmem, he⟩ := List.mem_filter.mp hnamed
    have hnonempty : named ∈ (items.map (name key)).filter (·.identifier != "") :=
      List.mem_filter.mpr ⟨hmem, by simpa [eq_of_beq he] using hid⟩
    refine ⟨(identifier, bucket), ⟨⟨named, hnonempty, eq_of_beq he⟩, ?_⟩, ?_, rfl⟩
    · rw [filter_nonempty_filter _ hid]
    · rintro x (hx : bucket = [x])
      rw [show (items.map (name key)).filter (·.identifier == identifier) = [x] from hx] at hlength
      exact absurd hlength (Nat.not_succ_le_self 1)

theorem increasing_duplicates (key : α → String) (items : List α) :
    Increasing ((group key items).duplicates.map Prod.fst) := by
  have hsorted := increasing_keys_buckets Named.identifier
    ((items.map (name key)).filter (·.identifier != ""))
  refine List.Pairwise.sublist ?_ hsorted
  simp only [group, List.map_filterMap]
  refine filterMap_sublist_map fun bucket _ identifier hid => ?_
  obtain ⟨duplicate, hduplicate, rfl⟩ := Option.map_eq_some_iff.mp hid
  rw [(duplicate?_eq_some_iff.mp hduplicate).2]

theorem perm_rawKeys_group (key : α → String) (items : List α) :
    ((group key items).uniques.map Named.rawKey ++
        (group key items).duplicates.flatMap Prod.snd ++ (group key items).empties).Perm
      (items.map key) := by
  let named := items.map (name key)
  have hbuckets := (perm_rawKeys_buckets (buckets Named.identifier
    (named.filter (·.identifier != "")))).trans ((perm_flatMap_buckets _ _).map Named.rawKey)
  have hsplit := (List.filter_append_perm (fun n : Named α => n.identifier != "") named).map
    Named.rawKey
  have hempties : named.filter (fun n => !(n.identifier != "")) =
      named.filter (·.identifier == "") := by
    refine List.filter_congr fun n _ => ?_
    exact Bool.not_not _
  have hnamed : named.map Named.rawKey = items.map key := List.map_map ..
  rw [hempties, List.map_append, hnamed] at hsplit
  exact (hbuckets.append_right _).trans hsplit

theorem holds_kept_iff : (group key items).Holds key item .kept ↔ ofName (key item) ≠ "" ∧
    items.filter (fun other => ofName (key other) == ofName (key item)) = [item] :=
  name_mem_uniques_iff

theorem holds_unnamed_iff (hm : item ∈ items) :
    (group key items).Holds key item .unnamed ↔ ofName (key item) = "" := by
  rw [Grouping.Holds, empties_eq, List.mem_filter, beq_iff_eq]
  exact and_iff_right (List.mem_map_of_mem hm)

theorem holds_shared_iff {identifier : String} (hm : item ∈ items) :
    (group key items).Holds key item (.shared identifier) ↔ identifier = ofName (key item) ∧
      ofName (key item) ≠ "" ∧
      ∀ other, items.filter (fun other => ofName (key other) == ofName (key item)) ≠ [other] := by
  constructor
  · rintro ⟨rawKeys, hduplicate, hkey⟩
    obtain ⟨hne, hlength, -, hperm⟩ := mem_duplicates_iff.mp hduplicate
    obtain rfl : ofName (key item) = identifier :=
      eq_of_beq (List.mem_filter.mp (hperm.mem_iff.mp hkey)).2
    refine ⟨rfl, hne, fun other hfilter => ?_⟩
    rw [hperm.length_eq, List.filter_map, List.length_map] at hlength
    rw [show items.filter ((ofName · == ofName (key item)) ∘ key) = [other] from hfilter] at hlength
    exact absurd hlength (Nat.not_succ_le_self 1)
  · rintro ⟨rfl, hne, hshared⟩
    refine ⟨_, mem_duplicates_of_shared hm hne hshared, ?_⟩
    rw [List.mem_mergeSort]
    exact List.mem_map_of_mem (List.mem_filter.mpr ⟨hm, beq_self_eq_true _⟩)

theorem existsUnique_place (hm : item ∈ items) :
    ∃! place, (group key items).Holds key item place := by
  have hself : item ∈ items.filter fun other => ofName (key other) == ofName (key item) :=
    List.mem_filter.mpr ⟨hm, beq_self_eq_true _⟩
  have hsingle : ∀ other, items.filter (fun other => ofName (key other) == ofName (key item)) =
      [other] → items.filter (fun other => ofName (key other) == ofName (key item)) = [item] := by
    intro other hother
    rw [hother, List.mem_singleton] at hself
    rw [hother, hself]
  by_cases hempty : ofName (key item) = ""
  · refine ⟨.unnamed, (holds_unnamed_iff hm).mpr hempty, fun place hplace => ?_⟩
    cases place with
    | kept => exact absurd hempty (holds_kept_iff.mp hplace).1
    | shared identifier => exact absurd hempty ((holds_shared_iff hm).mp hplace).2.1
    | unnamed => rfl
  by_cases halone : items.filter (fun other => ofName (key other) == ofName (key item)) = [item]
  · refine ⟨.kept, holds_kept_iff.mpr ⟨hempty, halone⟩, fun place hplace => ?_⟩
    cases place with
    | kept => rfl
    | shared identifier => exact absurd halone (((holds_shared_iff hm).mp hplace).2.2 item)
    | unnamed => exact absurd ((holds_unnamed_iff hm).mp hplace) hempty
  · refine ⟨.shared (ofName (key item)), (holds_shared_iff hm).mpr ⟨rfl, hempty, fun other h =>
      halone (hsingle other h)⟩, fun place hplace => ?_⟩
    cases place with
    | kept => exact absurd (holds_kept_iff.mp hplace).2 halone
    | shared identifier => rw [((holds_shared_iff hm).mp hplace).1]
    | unnamed => exact absurd ((holds_unnamed_iff hm).mp hplace) hempty

/-- Each item has one place in the grouping, and the grouping holds nothing else. -/
structure Grouping.Partitions (grouping : Grouping α) (key : α → String) (items : List α) :
    Prop where
  place : ∀ item ∈ items, ∃! place, grouping.Holds key item place
  kept_iff : ∀ before item behind, items = before ++ item :: behind →
    (grouping.Holds key item .kept ↔ ofName (key item) ≠ "" ∧
      ∀ other ∈ before ++ behind, ofName (key other) ≠ ofName (key item))
  of_kept : ∀ named ∈ grouping.uniques, ∃ item ∈ items, named = name key item
  kept_increasing : Increasing (grouping.uniques.map Named.identifier)
  shared_iff : ∀ identifier rawKeys, (identifier, rawKeys) ∈ grouping.duplicates ↔
    identifier ≠ "" ∧ 2 ≤ rawKeys.length ∧ rawKeys.Pairwise (· ≤ ·) ∧
      rawKeys.Perm ((items.map key).filter (ofName · == identifier))
  shared_increasing : Increasing (grouping.duplicates.map Prod.fst)
  apart : ∀ named ∈ grouping.uniques, ∀ bucket ∈ grouping.duplicates,
    named.identifier ≠ bucket.1
  unnamed : grouping.empties = (items.map key).filter (ofName · == "")
  rawKeys : (grouping.uniques.map Named.rawKey ++ grouping.duplicates.flatMap Prod.snd ++
    grouping.empties).Perm (items.map key)
  size : grouping.uniques.length + (grouping.duplicates.map fun bucket => bucket.2.length).sum +
    grouping.empties.length = items.length

theorem partitions_group (key : α → String) (items : List α) :
    (group key items).Partitions key items where
  place := fun item hm => existsUnique_place hm
  kept_iff := by
    rintro before item behind rfl
    let p := fun other => ofName (key other) == ofName (key item)
    have hp : p item = true := beq_self_eq_true _
    rw [holds_kept_iff, filter_eq_singleton_iff hp]
    simp only [p, beq_iff_eq, ne_eq]
  of_kept := fun named hnamed => exists_of_mem_uniques hnamed
  kept_increasing := increasing_uniques key items
  shared_iff := fun identifier rawKeys => mem_duplicates_iff
  shared_increasing := increasing_duplicates key items
  apart := by
    rintro named hnamed ⟨identifier, rawKeys⟩ hduplicate rfl
    obtain ⟨item, hm, rfl⟩ := exists_of_mem_uniques hnamed
    obtain ⟨-, -, -, hperm⟩ := mem_duplicates_iff.mp hduplicate
    have hkey : key item ∈ rawKeys := hperm.mem_iff.mpr
      (List.mem_filter.mpr ⟨List.mem_map_of_mem hm, beq_self_eq_true _⟩)
    have hshared : (group key items).Holds key item (.shared (name key item).identifier) :=
      ⟨rawKeys, hduplicate, hkey⟩
    have hplace := (existsUnique_place hm).unique
      (show (group key items).Holds key item .kept from hnamed) hshared
    cases hplace
  unnamed := empties_eq key items
  rawKeys := perm_rawKeys_group key items
  size := by
    have hlength := (perm_rawKeys_group key items).length_eq
    simpa only [List.length_append, List.length_map, List.length_flatMap] using hlength

theorem uniques_eq_of_perm (h : items.Perm others) :
    (group key items).uniques = (group key others).uniques :=
  filterMap_buckets_eq_of_perm ((h.map (name key)).filter _) fun _ =>
    unique?_eq_of_perm (((h.map (name key)).filter _).filter _)

theorem duplicates_eq_of_perm (h : items.Perm others) :
    (group key items).duplicates = (group key others).duplicates :=
  filterMap_buckets_eq_of_perm ((h.map (name key)).filter _) fun _ =>
    duplicate?_eq_of_perm (((h.map (name key)).filter _).filter _)

/-- Grouping sends each item to one place, and only the names without an identifier follow the order
of the items. -/
theorem group_partition (key : α → String) (items : List α) :
    (group key items).Partitions key items ∧
      ∀ others, items.Perm others →
        (group key others).uniques = (group key items).uniques ∧
          (group key others).duplicates = (group key items).duplicates ∧
          (group key others).empties.Perm (group key items).empties := by
  refine ⟨partitions_group key items, fun others h => ?_⟩
  refine ⟨(uniques_eq_of_perm h).symm, (duplicates_eq_of_perm h).symm, ?_⟩
  rw [empties_eq, empties_eq]
  exact ((h.map key).filter _).symm

theorem group_partition_repeated :
    ["my-image", "%%", "Icon", "my image", "my-image", "."].Perm
        [".", "my image", "my-image", "Icon", "my-image", "%%"] ∧
      (group id [".", "my image", "my-image", "Icon", "my-image", "%%"]).uniques.map
          Named.identifier = ["icon"] ∧
      ("myImage", ["my image", "my-image", "my-image"]) ∈
        (group id [".", "my image", "my-image", "Icon", "my-image", "%%"]).duplicates ∧
      (group id [".", "my image", "my-image", "Icon", "my-image", "%%"]).empties.Perm
        ["%%", "."] := by
  have hperm : ["my-image", "%%", "Icon", "my image", "my-image", "."].Perm
      [".", "my image", "my-image", "Icon", "my-image", "%%"] := by decide
  obtain ⟨hparts, horder⟩ :=
    group_partition id ["my-image", "%%", "Icon", "my image", "my-image", "."]
  obtain ⟨huniques, hduplicates, hempties⟩ := horder _ hperm
  refine ⟨hperm, ?_, ?_, ?_⟩
  · rw [huniques]
    decide +kernel
  · rw [hduplicates]
    refine (hparts.shared_iff _ _).mpr ⟨by decide, by decide, by decide, ?_⟩
    decide +kernel
  · have hunnamed : (group id ["my-image", "%%", "Icon", "my image", "my-image", "."]).empties =
        ["%%", "."] := by decide +kernel
    rwa [hunnamed] at hempties

end Identifier

end Accessors

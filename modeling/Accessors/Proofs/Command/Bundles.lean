import Mathlib.Data.Set.List
import Accessors.Command.Bundles
import Accessors.Disk.Tree
import Accessors.Proofs.FileName
import Accessors.Proofs.Permutation

/-!
# Bundles in load order

Going through a directory finds every bundle below it, at whatever depth, exactly once, and in the
order of the paths, compared name by name. That is not the order of the paths as texts: `a/x.json`
comes before `a.json`.
-/

namespace Accessors

/-- Every directory of the tree can be listed. -/
def Disk.Tree.Open (tree : Tree) : Prop := tree.entry.Throughout (· ≠ .sealed)

theorem Disk.Tree.open_leaf {entry : Entry} (h : entry.top ≠ .sealed) : (leaf entry).Open := by
  show entry.top.Throughout _
  cases entry with
  | directory entries => exact .directory nofun fun _ => nofun
  | _ => exact .of_not_directory h nofun

theorem Disk.Tree.open_directory {entries : List (String × Tree)}
    (h : ∀ inner ∈ entries, inner.2.Open) : (directory entries).Open := by
  refine .directory nofun fun found hf => ?_
  obtain ⟨inner, hi, rfl⟩ := List.mem_map.mp (mem_collectEntries hf)
  exact h inner hi

namespace Command

open Disk (Entry Tree)

theorem isBundleName_iff {name : String} :
    isBundleName name = true ↔ ∃ stem, stem ≠ "" ∧ name = stem ++ ".json" := by
  constructor
  · intro h
    rw [isBundleName, beq_iff_eq, FileName.split] at h
    split at h
    · next c before after hsplit =>
      obtain ⟨dot, hdot, hname⟩ := FileName.append_of_splitLast? hsplit
      obtain rfl : dot = '.' := beq_iff_eq.mp hdot
      have hafter : after = ['j', 's', 'o', 'n'] :=
        String.toList_ofList.symm.trans (congrArg String.toList h)
      refine ⟨String.ofList (c :: before), fun he => ?_, String.toList_injective ?_⟩
      · simpa using congrArg String.toList he
      · rw [hname, hafter, String.toList_append, String.toList_ofList]
        rfl
    · exact absurd (show "" = "json" from h) (by decide)
  · rintro ⟨stem, hne, rfl⟩
    have hsplit : FileName.splitLast? (· == '.') (stem ++ ".json").toList =
        some (stem.toList, ['j', 's', 'o', 'n']) := by
      rw [String.toList_append]
      exact FileName.splitLast?_append (c := '.') rfl (by decide)
    rw [isBundleName, FileName.split, hsplit]
    cases hstem : stem.toList with
    | nil => exact absurd (String.toList_injective hstem) hne
    | cons c rest => rfl

namespace Found

def path : Found → List String
  | .bundle path _ => path
  | .sealed path => path

def entry : Found → Entry
  | .bundle _ text => .file text
  | .sealed _ => .sealed

def Named : Found → Prop
  | .bundle path _ => path.getLast?.any isBundleName = true
  | .sealed _ => True

end Found

variable {path : List String} {entry : Entry} {entries : List (String × Entry)} {found : Found}

theorem findBelow_eq_map (path : List String) (entries : List (String × Entry)) :
    findBelow path entries =
      entries.map fun inner => (inner.1, findAt (path ++ [inner.1]) inner.2) := by
  induction entries with
  | nil => rfl
  | cons inner rest ih => rw [findBelow, ih]; rfl

theorem mem_findAt_directory :
    found ∈ findAt path (.directory entries) ↔
      ∃ inner ∈ entries, found ∈ findAt (path ++ [inner.1]) inner.2 := by
  rw [findAt, inOrder, List.mem_flatMap, findBelow_eq_map]
  simp only [List.mem_mergeSort]
  constructor
  · rintro ⟨below, hb, hf⟩
    obtain ⟨inner, hi, rfl⟩ := List.mem_map.mp hb
    exact ⟨inner, hi, hf⟩
  · rintro ⟨inner, hi, hf⟩
    exact ⟨_, List.mem_map_of_mem hi, hf⟩

theorem mem_findAt_file {text : Option String} :
    found ∈ findAt path (.file text) ↔
      path.getLast?.any isBundleName = true ∧ found = .bundle path text := by
  rw [findAt]
  split
  · next hname => rw [List.mem_singleton, and_iff_right hname]
  · next hname => exact iff_of_false List.not_mem_nil fun h => hname h.1

theorem entry_ne_directory : found.entry ≠ .directory entries := by
  cases found <;> nofun

theorem exists_below_iff (entry : Entry) (h : ∀ entries, entry ≠ .directory entries) :
    (∃ below, found.path = path ++ below ∧ entry.at? below = some found.entry ∧ found.Named) ↔
      found.path = path ∧ entry = found.entry ∧ found.Named := by
  constructor
  · rintro ⟨below, hp, ha, hn⟩
    cases below with
    | nil =>
      rw [List.append_nil] at hp
      exact ⟨hp, Option.some.inj (Entry.at?_nil.symm.trans ha), hn⟩
    | cons name below =>
      obtain ⟨entries, he⟩ := Entry.exists_directory_of_at? ha
      exact absurd he (h entries)
  · rintro ⟨hp, rfl, hn⟩
    exact ⟨[], hp.trans (List.append_nil path).symm, Entry.at?_nil, hn⟩

theorem mem_findAt (hd : entry.Distinct) :
    found ∈ findAt path entry ↔
      ∃ below, found.path = path ++ below ∧ entry.at? below = some found.entry ∧ found.Named := by
  induction entry using Entry.induct generalizing path with
  | file text =>
    rw [exists_below_iff (.file text) nofun, mem_findAt_file]
    constructor
    · rintro ⟨hname, rfl⟩
      exact ⟨rfl, rfl, hname⟩
    · rintro ⟨rfl, he, hn⟩
      cases found <;> cases he
      exact ⟨hn, rfl⟩
  | directory entries ih =>
    rw [mem_findAt_directory]
    constructor
    · rintro ⟨inner, hi, hf⟩
      obtain ⟨below, hp, ha, hn⟩ := (ih inner hi (hd.of_mem hi)).mp hf
      refine ⟨inner.1 :: below, ?_, ?_, hn⟩
      · rw [hp, List.append_assoc, List.singleton_append]
      · rw [Entry.at?_directory, (lookup_eq_some_iff_of_nodup hd.names).mpr hi]
        exact ha
    · rintro ⟨below, hp, ha, hn⟩
      cases below with
      | nil => exact absurd (Option.some.inj (Entry.at?_nil.symm.trans ha)).symm entry_ne_directory
      | cons name below =>
        obtain ⟨inner, hl, ha⟩ := Option.bind_eq_some_iff.mp ha
        have hi := mem_of_lookup hl
        refine ⟨(name, inner), hi, (ih _ hi (hd.of_mem hi)).mpr ⟨below, ?_, ha, hn⟩⟩
        rw [hp, List.append_assoc, List.singleton_append]
  | link target =>
    rw [exists_below_iff (.link target) nofun, findAt]
    cases found <;> simp [Found.entry]
  | sealed =>
    rw [exists_below_iff .sealed nofun, findAt]
    cases found <;> simp [Found.entry, Found.path, Found.Named]
  | device =>
    rw [exists_below_iff .device nofun, findAt]
    cases found <;> simp [Found.entry]

theorem pairwise_mergeSort_names {β : Type} {listed : List (String × β)}
    (hn : (listed.map Prod.fst).Nodup) :
    (listed.mergeSort fun a b => a.1 ≤ b.1).Pairwise fun a b => a.1 < b.1 := by
  have htrans : ∀ a b c : String × β, decide (a.1 ≤ b.1) = true → decide (b.1 ≤ c.1) = true →
      decide (a.1 ≤ c.1) = true := fun a b c hab hbc =>
    decide_eq_true (String.le_trans (of_decide_eq_true hab) (of_decide_eq_true hbc))
  have htotal : ∀ a b : String × β, (decide (a.1 ≤ b.1) || decide (b.1 ≤ a.1)) = true :=
    fun a b => by simpa using String.le_total a.1 b.1
  have hsorted := List.pairwise_mergeSort htrans htotal listed
  have hne := ((List.mergeSort_perm listed fun a b => a.1 ≤ b.1).map Prod.fst).nodup_iff.mpr hn
  refine (hsorted.and (List.pairwise_map.mp hne)).imp fun {a b} h => ?_
  exact Std.lt_of_le_of_ne (of_decide_eq_true h.1) h.2

/-- What is found comes in the order of the paths, compared name by name. -/
theorem pairwise_findAt (hd : entry.Distinct) (path : List String) :
    (findAt path entry).Pairwise fun a b => a.path < b.path := by
  induction entry using Entry.induct generalizing path with
  | directory entries ih =>
    rw [findAt, inOrder, List.pairwise_flatMap, findBelow_eq_map]
    constructor
    · intro below hb
      obtain ⟨inner, hi, rfl⟩ := List.mem_map.mp (List.mem_mergeSort.mp hb)
      exact ih inner hi (hd.of_mem hi) _
    · have hnames : ((entries.map fun inner => (inner.1, findAt (path ++ [inner.1]) inner.2)).map
          Prod.fst).Nodup := by
        rw [List.map_map]
        exact hd.names
      refine (pairwise_mergeSort_names hnames).imp_of_mem fun {a b} ha hb hab => ?_
      obtain ⟨first, hfirst, rfl⟩ := List.mem_map.mp (List.mem_mergeSort.mp ha)
      obtain ⟨second, hsecond, rfl⟩ := List.mem_map.mp (List.mem_mergeSort.mp hb)
      -- What stands below different entries differs first at the names of these entries.
      intro x hx y hy
      obtain ⟨belowX, hx, -⟩ := (mem_findAt (hd.of_mem hfirst)).mp hx
      obtain ⟨belowY, hy, -⟩ := (mem_findAt (hd.of_mem hsecond)).mp hy
      rw [hx, hy, List.append_assoc, List.append_assoc]
      exact List.append_left_lt (List.cons_lt_cons_iff.mpr (.inl hab))
  | file text =>
    rw [findAt]
    split
    · exact List.pairwise_singleton _ _
    · exact .nil
  | sealed => exact List.pairwise_singleton _ _
  | _ => exact .nil

/-- A bundle is a regular file whose name has the extension `json`. -/
def HoldsBundle (directory : Tree) (path : List String) (text : Option String) : Prop :=
  directory.at? path = some (.file text) ∧
    ∃ way stem, stem ≠ "" ∧ path = way ++ [stem ++ ".json"]

/-- The bundles of a directory, each once, in the order of their paths. Paths are compared name by
name, names by their characters. -/
structure InLoadOrder (directory : Tree) (bundles : List (List String × Option String)) : Prop where
  increasing : (bundles.map Prod.fst).Pairwise (· < ·)
  mem_iff : ∀ path text, (path, text) ∈ bundles ↔ HoldsBundle directory path text

theorem getLast?_any_isBundleName_iff :
    path.getLast?.any isBundleName = true ↔
      ∃ way stem, stem ≠ "" ∧ path = way ++ [stem ++ ".json"] := by
  rw [Option.any_eq_true]
  constructor
  · rintro ⟨name, hlast, hname⟩
    obtain ⟨stem, hne, rfl⟩ := isBundleName_iff.mp hname
    obtain ⟨way, rfl⟩ := List.getLast?_eq_some_iff.mp hlast
    exact ⟨way, stem, hne, rfl⟩
  · rintro ⟨way, stem, hne, rfl⟩
    exact ⟨_, List.getLast?_concat .., isBundleName_iff.mpr ⟨stem, hne, rfl⟩⟩

theorem holdsBundle_iff {directory : Tree} {text : Option String} :
    HoldsBundle directory path text ↔ .bundle path text ∈ findAt [] directory.entry := by
  rw [mem_findAt directory.distinct]
  constructor
  · rintro ⟨ha, hn⟩
    exact ⟨path, rfl, ha, getLast?_any_isBundleName_iff.mpr hn⟩
  · rintro ⟨below, rfl, ha, hn⟩
    exact ⟨ha, getLast?_any_isBundleName_iff.mp hn⟩

theorem exists_inLoadOrder {directory : Tree} (ho : directory.Open) :
    ∃ bundles, findAt [] directory.entry = bundles.map (fun bundle => .bundle bundle.1 bundle.2) ∧
      InLoadOrder directory bundles := by
  have hall : ∀ found ∈ findAt [] directory.entry, found ∈
      Set.range fun bundle : List String × Option String => Found.bundle bundle.1 bundle.2 :=
    fun found hf => by
      obtain ⟨below, -, ha, -⟩ := (mem_findAt directory.distinct).mp hf
      cases found with
      | bundle path text => exact ⟨(path, text), rfl⟩
      | sealed path => exact absurd rfl (ho below _ ha)
  obtain ⟨bundles, hb⟩ := (Set.range_list_map _).ge hall
  refine ⟨bundles, hb.symm, ?_, fun path text => ?_⟩
  · have hp := pairwise_findAt directory.distinct []
    rw [← hb, List.pairwise_map] at hp
    exact List.pairwise_map.mpr hp
  · rw [holdsBundle_iff, ← hb, List.mem_map]
    constructor
    · exact fun h => ⟨_, h, rfl⟩
    · rintro ⟨bundle, h, he⟩
      cases he
      exact h

example : ["a", "x.json"] < ["a.json"] ∧ "a.json" < "a/x.json" := by decide

theorem InLoadOrder.unique {directory : Tree} {xs ys : List (List String × Option String)}
    (hx : InLoadOrder directory xs) (hy : InLoadOrder directory ys) : xs = ys := by
  refine eq_of_pairwise_of_mem_iff (fun a b => List.lt_asymm)
    (List.pairwise_map.mp hx.increasing) (List.pairwise_map.mp hy.increasing) fun bundle => ?_
  rw [hx.mem_iff, hy.mem_iff]

theorem findAt_eq {directory : Tree} (ho : directory.Open)
    {bundles : List (List String × Option String)} (h : InLoadOrder directory bundles) :
    findAt [] directory.entry = bundles.map fun bundle => .bundle bundle.1 bundle.2 := by
  obtain ⟨listed, hfind, hlisted⟩ := exists_inLoadOrder ho
  rw [hfind, hlisted.unique h]

end Command

end Accessors

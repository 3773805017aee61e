import Accessors.Disk.Entry

/-!
# Trees of entries

In a tree no directory has two entries of one name. Trees are built from their entries up, and
changed by putting one entry after the other into them.
-/

namespace Accessors.Disk

namespace Entry

def Throughout (p : Entry → Prop) (entry : Entry) : Prop :=
  ∀ path inner, entry.at? path = some inner → p inner

namespace Throughout

variable {p : Entry → Prop} {entry inner : Entry} {entries : List (String × Entry)} {name : String}
  {path : List String}

theorem self (h : entry.Throughout p) : p entry := h [] entry at?_nil

theorem at? (h : entry.Throughout p) (hp : entry.at? path = some inner) : inner.Throughout p :=
  fun below found hb => h (path ++ below) found (by rw [at?_append, hp]; exact hb)

theorem of_lookup (h : (directory entries).Throughout p) (hl : entries.lookup name = some inner) :
    inner.Throughout p := by
  have hat : (directory entries).at? [name] = some inner := by
    rw [at?_directory, hl]
    exact at?_nil
  exact h.at? hat

theorem directory (hp : p (.directory entries)) (h : ∀ found ∈ entries, found.2.Throughout p) :
    (Entry.directory entries).Throughout p := by
  intro path inner hat
  cases path with
  | nil =>
    cases hat
    exact hp
  | cons name path =>
    obtain ⟨found, hl, hat⟩ := Option.bind_eq_some_iff.mp hat
    exact h _ (mem_of_lookup hl) path inner hat

theorem of_not_directory (hp : p entry) (h : ∀ entries, entry ≠ .directory entries) :
    entry.Throughout p := by
  intro path inner hat
  cases path with
  | nil => exact Option.some.inj (at?_nil.symm.trans hat) ▸ hp
  | cons name path =>
    obtain ⟨entries, he⟩ := exists_directory_of_at? hat
    exact absurd he (h entries)

end Throughout

def DistinctNames : Entry → Prop
  | .directory entries => (entries.map Prod.fst).Nodup
  | _ => True

/-- No directory has two entries of one name. -/
def Distinct (entry : Entry) : Prop := entry.Throughout DistinctNames

variable {new entry inner grown : Entry} {entries : List (String × Entry)} {place : List String}

theorem Distinct.names (h : (directory entries).Distinct) : (entries.map Prod.fst).Nodup :=
  Throughout.self h

theorem Distinct.of_mem (h : (directory entries).Distinct) {found : String × Entry}
    (hf : found ∈ entries) : found.2.Distinct :=
  Throughout.of_lookup h ((lookup_eq_some_iff_of_nodup h.names).mpr hf)

theorem Distinct.at? {path : List String} (h : entry.Distinct) (hp : entry.at? path = some inner) :
    inner.Distinct := Throughout.at? h hp

theorem Distinct.enter {name : String} (h : (directory entries).Distinct) (hn : new.Distinct) :
    (directory (Entry.enter name new entries)).Distinct := by
  refine .directory (nodup_names_enter h.names name new) fun found hf => ?_
  rcases mem_enter h.names hf with rfl | hf
  · exact hn
  · exact h.of_mem hf

theorem distinct_top (entry : Entry) : entry.top.Distinct := by
  cases entry with
  | directory entries => exact .directory List.nodup_nil fun _ => nofun
  | _ => exact .of_not_directory trivial nofun

theorem Distinct.graft (h : entry.Distinct) (hg : Entry.graft new place entry = some grown) :
    grown.Distinct := by
  induction place generalizing entry grown with
  | nil =>
    obtain rfl : new.top = grown := by simpa [Entry.graft] using hg
    exact new.distinct_top
  | cons name place ih =>
    cases entry with
    | directory entries =>
      cases place with
      | nil =>
        obtain rfl := Option.some.inj hg
        exact h.enter new.distinct_top
      | cons next place =>
        obtain ⟨inner, hinner, rfl⟩ := Option.map_eq_some_iff.mp hg
        obtain ⟨held, hl, hinner⟩ := Option.bind_eq_some_iff.mp hinner
        exact h.enter (ih (Throughout.of_lookup h hl) hinner)
    | _ => cases place <;> cases hg

end Entry

structure Tree where
  entry : Entry
  distinct : entry.Distinct

namespace Tree

def at? (path : List String) (tree : Tree) : Option Entry := tree.entry.at? path

def below? (path : List String) (tree : Tree) : Option Tree :=
  (tree.at? path).pmap Tree.mk fun _ h => tree.distinct.at? h

def leaf (entry : Entry) : Tree := ⟨entry.top, entry.distinct_top⟩

def file (text : Option String) : Tree := leaf (.file text)

/-- A directory with these trees in it; of several at one name the last is taken. -/
def directory (entries : List (String × Tree)) : Tree where
  entry := .directory (collectEntries (entries.map fun inner => (inner.1, inner.2.entry)))
  distinct := by
    refine .directory (increasing_keys_collectEntries _).nodup fun found hf => ?_
    obtain ⟨inner, -, rfl⟩ := List.mem_map.mp (mem_collectEntries hf)
    exact inner.2.distinct

theorem below?_eq_some_iff {path : List String} {tree inner : Tree} :
    tree.below? path = some inner ↔ tree.at? path = some inner.entry := by
  rw [below?, Option.pmap_eq_some_iff]
  constructor
  · rintro ⟨entry, _, hat, rfl⟩
    exact hat
  · exact fun hat => ⟨inner.entry, inner.distinct, hat, rfl⟩

theorem map_entry_below? (path : List String) (tree : Tree) :
    (tree.below? path).map Tree.entry = tree.at? path := by
  rw [below?, Option.map_pmap, Option.pmap_eq_map, Option.map_id']

end Tree

def Entry.put (new : Entry) (place : List String) (root : Tree) : Option Tree :=
  (graft new place root.entry).pmap Tree.mk fun _ h => root.distinct.graft h

theorem Entry.put_eq_some_iff {new : Entry} {place : List String} {root grown : Tree} :
    put new place root = some grown ↔ graft new place root.entry = some grown.entry := by
  rw [put, Option.pmap_eq_some_iff]
  constructor
  · rintro ⟨entry, _, hgraft, rfl⟩
    exact hgraft
  · exact fun hgraft => ⟨grown.entry, grown.distinct, hgraft, rfl⟩

end Accessors.Disk

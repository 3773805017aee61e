import Accessors.Keys

/-!
# Dictionaries

A dictionary holds at most one value per key and lists its entries in increasing order of the keys,
so equal dictionaries have equal entries. `insertEntry` works on bare entry lists, for the types
that contain entries of themselves.
-/

namespace Accessors

variable {α β : Type}

def insertEntry (key : String) (value : α) : List (String × α) → List (String × α)
  | [] => [(key, value)]
  | (k, v) :: rest =>
    if key < k then (key, value) :: (k, v) :: rest
    else if key = k then (key, value) :: rest
    else (k, v) :: insertEntry key value rest

theorem keys_insertEntry (key : String) (value : α) (entries : List (String × α)) :
    (insertEntry key value entries).map Prod.fst = insertKey key (entries.map Prod.fst) := by
  induction entries with
  | nil => rfl
  | cons e rest ih =>
    obtain ⟨k, v⟩ := e
    simp only [insertEntry, List.map_cons, insertKey]
    split
    · rfl
    · split
      · next h => simp [h]
      · simp [ih]

/-- The entries by key; of several at one key the last stays. -/
def collectEntries (pairs : List (String × α)) : List (String × α) :=
  pairs.foldl (fun entries pair => insertEntry pair.1 pair.2 entries) []

theorem increasing_keys_foldl (pairs : List (String × α)) :
    ∀ entries : List (String × α), Increasing (entries.map Prod.fst) →
      Increasing ((pairs.foldl (fun entries pair => insertEntry pair.1 pair.2 entries)
        entries).map Prod.fst) := by
  induction pairs with
  | nil => exact fun _ h => h
  | cons pair rest ih =>
    intro entries h
    exact ih _ (keys_insertEntry pair.1 pair.2 entries ▸ increasing_insertKey pair.1 h)

theorem increasing_keys_collectEntries (pairs : List (String × α)) :
    Increasing ((collectEntries pairs).map Prod.fst) :=
  increasing_keys_foldl pairs [] List.Pairwise.nil

theorem mem_insertEntry {key : String} {value : α} {entries : List (String × α)}
    {entry : String × α} (h : entry ∈ insertEntry key value entries) :
    entry = (key, value) ∨ entry ∈ entries := by
  induction entries with
  | nil => exact .inl (List.mem_singleton.mp h)
  | cons e rest ih =>
    rw [insertEntry] at h
    split at h
    · exact List.mem_cons.mp h
    · split at h
      · exact (List.mem_cons.mp h).imp_right (List.mem_cons_of_mem _)
      · rcases List.mem_cons.mp h with rfl | h
        · exact .inr (List.mem_cons_self ..)
        · exact (ih h).imp_right (List.mem_cons_of_mem _)

theorem mem_collectEntries {pairs : List (String × α)} {entry : String × α}
    (h : entry ∈ collectEntries pairs) : entry ∈ pairs := by
  have key : ∀ entries : List (String × α),
      entry ∈ pairs.foldl (fun entries pair => insertEntry pair.1 pair.2 entries) entries →
        entry ∈ pairs ∨ entry ∈ entries := by
    clear h
    induction pairs with
    | nil => exact fun _ h => .inr h
    | cons pair rest ih =>
      intro entries h
      rcases ih _ h with h | h
      · exact .inl (List.mem_cons_of_mem _ h)
      · rcases mem_insertEntry h with rfl | h
        · exact .inl (List.mem_cons_self ..)
        · exact .inr h
  exact (key [] h).elim id nofun

theorem mem_insertEntry_self (key : String) (value : α) (entries : List (String × α)) :
    (key, value) ∈ insertEntry key value entries := by
  induction entries with
  | nil => exact List.mem_singleton_self _
  | cons e rest ih =>
    rw [insertEntry]
    split
    · exact List.mem_cons_self ..
    · split
      · exact List.mem_cons_self ..
      · exact List.mem_cons_of_mem _ ih

theorem mem_insertEntry_of_ne {key : String} {value : α} {entries : List (String × α)}
    {entry : String × α} (h : entry ∈ entries) (hne : entry.1 ≠ key) :
    entry ∈ insertEntry key value entries := by
  induction entries with
  | nil => cases h
  | cons e rest ih =>
    rw [insertEntry]
    split
    · exact List.mem_cons_of_mem _ h
    · split
      · next hk =>
        rcases List.mem_cons.mp h with rfl | h
        · exact absurd hk.symm hne
        · exact List.mem_cons_of_mem _ h
      · rcases List.mem_cons.mp h with rfl | h
        · exact List.mem_cons_self ..
        · exact List.mem_cons_of_mem _ (ih h)

theorem mem_collectEntries_of_nodup {pairs : List (String × α)} {entry : String × α}
    (hd : (pairs.map Prod.fst).Nodup) (h : entry ∈ pairs) : entry ∈ collectEntries pairs := by
  have hkeep : ∀ (pairs entries : List (String × α)), entry ∈ entries →
      entry.1 ∉ pairs.map Prod.fst →
      entry ∈ pairs.foldl (fun entries pair => insertEntry pair.1 pair.2 entries) entries := by
    intro pairs
    induction pairs with
    | nil => exact fun _ he _ => he
    | cons pair rest ih =>
      intro entries he hn
      rw [List.map_cons, List.mem_cons, not_or] at hn
      exact ih _ (mem_insertEntry_of_ne he hn.1) hn.2
  have hadd : ∀ entries : List (String × α),
      entry ∈ pairs.foldl (fun entries pair => insertEntry pair.1 pair.2 entries) entries := by
    induction pairs with
    | nil => cases h
    | cons pair rest ih =>
      intro entries
      obtain ⟨hpair, hrest⟩ := List.nodup_cons.mp hd
      rcases List.mem_cons.mp h with rfl | h
      · exact hkeep rest _ (mem_insertEntry_self entry.1 entry.2 entries) hpair
      · exact ih hrest h _
  exact hadd []

theorem entries_ext {xs ys : List (String × α)} (hx : Increasing (xs.map Prod.fst))
    (hy : Increasing (ys.map Prod.fst)) (h : ∀ entry, entry ∈ xs ↔ entry ∈ ys) : xs = ys := by
  have hxs : xs.Pairwise fun a b => a.1 < b.1 := List.pairwise_map.mp hx
  have hys : ys.Pairwise fun a b => a.1 < b.1 := List.pairwise_map.mp hy
  exact eq_of_pairwise_of_mem_iff (fun _ _ => String.lt_asymm) hxs hys h

theorem collectEntries_eq_self {pairs : List (String × α)} (h : Increasing (pairs.map Prod.fst)) :
    collectEntries pairs = pairs :=
  entries_ext (increasing_keys_collectEntries pairs) h fun _ =>
    ⟨mem_collectEntries, mem_collectEntries_of_nodup h.nodup⟩

structure Dictionary (α : Type) where
  entries : List (String × α)
  increasing : Increasing (entries.map Prod.fst)

namespace Dictionary

@[ext] theorem ext {d e : Dictionary α} (h : d.entries = e.entries) : d = e := by
  cases d; cases e; cases h; rfl

instance [DecidableEq α] : DecidableEq (Dictionary α) := fun d e =>
  decidable_of_iff (d.entries = e.entries) ⟨ext, fun h => h ▸ rfl⟩

instance [Repr α] : Repr (Dictionary α) := ⟨fun d n => reprPrec d.entries n⟩

def empty : Dictionary α := ⟨[], List.Pairwise.nil⟩

instance : Inhabited (Dictionary α) := ⟨empty⟩

def get? (d : Dictionary α) (key : String) : Option α := d.entries.lookup key

def keys (d : Dictionary α) : List String := d.entries.map Prod.fst

def insert (d : Dictionary α) (key : String) (value : α) : Dictionary α :=
  ⟨insertEntry key value d.entries, keys_insertEntry key value d.entries ▸
    increasing_insertKey key d.increasing⟩

def ofList (pairs : List (String × α)) : Dictionary α :=
  ⟨collectEntries pairs, increasing_keys_collectEntries pairs⟩

end Dictionary

theorem lookup_cons_ite (k x : String) (v : α) (rest : List (String × α)) :
    ((x, v) :: rest).lookup k = if k = x then some v else rest.lookup k := by
  by_cases h : k = x
  · simp [h]
  · rw [List.lookup_cons, beq_eq_false_iff_ne.mpr h, if_neg h]

theorem lookup_eq_some_iff_of_nodup {entries : List (String × α)} {key : String} {value : α}
    (h : (entries.map Prod.fst).Nodup) :
    entries.lookup key = some value ↔ (key, value) ∈ entries := by
  induction entries with
  | nil => simp
  | cons e rest ih =>
    obtain ⟨k, v⟩ := e
    have hp := List.nodup_cons.mp h
    rw [lookup_cons_ite]
    by_cases hk : key = k
    · subst hk
      have hnot : (key, value) ∉ rest := fun hm => hp.1 (List.mem_map.mpr ⟨_, hm, rfl⟩)
      simp [hnot, eq_comm]
    · simp [hk, ih hp.2]

theorem lookup_eq_some_iff_of_increasing {entries : List (String × α)} {key : String} {value : α}
    (h : Increasing (entries.map Prod.fst)) :
    entries.lookup key = some value ↔ (key, value) ∈ entries :=
  lookup_eq_some_iff_of_nodup h.nodup

theorem mem_of_lookup {entries : List (String × α)} {key : String} {value : α}
    (h : entries.lookup key = some value) : (key, value) ∈ entries := by
  obtain ⟨before, after, rfl, -⟩ := List.lookup_eq_some_iff.mp h
  exact List.mem_append_right _ (List.mem_cons_self ..)

theorem Dictionary.get?_eq_some_iff {d : Dictionary α} {key : String} {value : α} :
    d.get? key = some value ↔ (key, value) ∈ d.entries :=
  lookup_eq_some_iff_of_increasing d.increasing

theorem Dictionary.mem_keys_iff {d : Dictionary α} {key : String} :
    key ∈ d.keys ↔ ∃ value, d.get? key = some value := by
  simp only [keys, List.mem_map, get?_eq_some_iff]
  constructor
  · rintro ⟨entry, he, rfl⟩
    exact ⟨entry.2, he⟩
  · rintro ⟨value, hv⟩
    exact ⟨(key, value), hv, rfl⟩

theorem lookup_insertEntry (key k : String) (value : α) (entries : List (String × α)) :
    (insertEntry key value entries).lookup k =
      if k = key then some value else entries.lookup k := by
  induction entries with
  | nil => simp [insertEntry, lookup_cons_ite]
  | cons e rest ih =>
    obtain ⟨x, v⟩ := e
    rw [insertEntry]
    split
    · simp [lookup_cons_ite]
    · split
      · next h => subst h; by_cases h : k = key <;> simp [lookup_cons_ite, h]
      · next hne =>
        by_cases hx : k = x
        · have : x ≠ key := fun e => hne e.symm
          simp [hx, this]
        · simp [lookup_cons_ite, hx, ih]

theorem Dictionary.get?_insert (d : Dictionary α) (key k : String) (value : α) :
    (d.insert key value).get? k = if k = key then some value else d.get? k :=
  lookup_insertEntry key k value d.entries

end Accessors

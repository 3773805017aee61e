import Accessors.Dictionary
import Accessors.Upsert

/-!
# Entries of a disk

A file holds a text, or bytes that are none; a link names another place; a sealed directory cannot
be listed. A way of names leads through directories to one entry at most.
-/

namespace Accessors.Disk

inductive Entry where
  | file (text : Option String)
  | directory (entries : List (String × Entry))
  | link (target : String)
  | sealed
  | device

namespace Entry

def isDirectory : Entry → Bool
  | .directory _ => true
  | .sealed => true
  | _ => false

/-- What can be seen of an entry without looking into directories. -/
def top : Entry → Entry
  | .directory _ => .directory []
  | entry => entry

/-- The entry at the end of a way of names; no link is followed. -/
def at? : List String → Entry → Option Entry
  | [], entry => some entry
  | name :: rest, .directory entries => (entries.lookup name).bind (at? rest)
  | _ :: _, _ => none

/-- Puts an entry at its name, in the place of the one that stands there or else behind all. -/
def enter (name : String) (new : Entry) (entries : List (String × Entry)) : List (String × Entry) :=
  upsert Prod.fst name (fun held => (held.1, new)) (name, new) entries

/-- Puts an entry at the end of a way of names whose directories are there. Nothing is below it
yet. -/
def graft (new : Entry) : List String → Entry → Option Entry
  | [], _ => some new.top
  | [name], .directory entries => some (.directory (enter name new.top entries))
  | name :: rest, .directory entries =>
    ((entries.lookup name).bind (graft new rest)).map fun inner =>
      .directory (enter name inner entries)
  | _ :: _, _ => none

/-- What holds of a directory if it holds of its entries, and of all else, holds of every entry. -/
@[elab_as_elim]
theorem induct {motive : Entry → Prop} (file : ∀ text, motive (.file text))
    (directory : ∀ entries, (∀ inner ∈ entries, motive inner.2) → motive (.directory entries))
    (link : ∀ target, motive (.link target)) (sealed : motive .sealed)
    (device : motive .device) : ∀ entry, motive entry
  | .file text => file text
  | .directory entries => directory entries fun inner hi =>
      have : sizeOf inner.2 < sizeOf entries := by
        have hlt := List.sizeOf_lt_of_mem hi
        obtain ⟨name, entry⟩ := inner
        simp only [Prod.mk.sizeOf_spec] at hlt ⊢
        omega
      induct file directory link sealed device inner.2
  | .link target => link target
  | .sealed => sealed
  | .device => device
termination_by entry => sizeOf entry
decreasing_by simp only [Entry.directory.sizeOf_spec]; omega

variable {entry inner : Entry} {entries : List (String × Entry)} {name : String}
  {path below : List String}

@[simp] theorem at?_nil : entry.at? [] = some entry := by
  cases entry <;> rfl

@[simp] theorem at?_directory :
    (directory entries).at? (name :: path) = (entries.lookup name).bind (at? path) := rfl

theorem exists_directory_of_at? (h : entry.at? (name :: path) = some inner) :
    ∃ entries, entry = .directory entries := by
  cases entry with
  | directory entries => exact ⟨entries, rfl⟩
  | _ => cases h

theorem at?_append : entry.at? (path ++ below) = (entry.at? path).bind (at? below) := by
  induction path generalizing entry with
  | nil => simp
  | cons name path ih =>
    cases entry with
    | directory entries =>
      rw [List.cons_append, at?_directory, at?_directory]
      cases entries.lookup name with
      | none => rfl
      | some found => exact ih
    | _ => rfl

theorem at?_top_cons : entry.top.at? (name :: path) = none := by
  cases entry <;> rfl

theorem top_top (entry : Entry) : entry.top.top = entry.top := by
  cases entry <;> rfl

theorem isDirectory_top : entry.top.isDirectory = entry.isDirectory := by
  cases entry <;> rfl

theorem nodup_names_enter (h : (entries.map Prod.fst).Nodup) (name : String) (new : Entry) :
    ((enter name new entries).map Prod.fst).Nodup :=
  nodup_keys_upsert (fun _ => rfl) rfl h

theorem mem_enter {new : Entry} {found : String × Entry} (h : (entries.map Prod.fst).Nodup)
    (hf : found ∈ enter name new entries) : found.2 = new ∨ found ∈ entries := by
  rcases mem_upsert h hf with ⟨hheld, -⟩ | ⟨held, -, -, rfl⟩ | ⟨rfl, -⟩
  · exact .inr hheld
  · exact .inl rfl
  · exact .inl rfl

theorem lookup_enter (name held : String) (new : Entry) (entries : List (String × Entry)) :
    (enter name new entries).lookup held =
      if held = name then some new else entries.lookup held := by
  unfold enter
  induction entries with
  | nil => rw [upsert, lookup_cons_ite]
  | cons first rest ih =>
    obtain ⟨here, entry⟩ := first
    rw [upsert]
    by_cases hname : here = name
    · subst hname
      rw [if_pos rfl, lookup_cons_ite, lookup_cons_ite]
      split <;> rfl
    · rw [if_neg hname, lookup_cons_ite, lookup_cons_ite, ih]
      split
      · next hheld => rw [if_neg fun he => hname (hheld.symm.trans he)]
      · rfl

theorem enter_eq_self (h : entries.lookup name = some entry) :
    enter name entry entries = entries := by
  unfold enter
  induction entries with
  | nil => cases h
  | cons first rest ih =>
    obtain ⟨here, held⟩ := first
    rw [lookup_cons_ite] at h
    rw [upsert]
    split at h
    · next hname => rw [if_pos hname.symm, Option.some.inj h]
    · next hname => rw [if_neg (Ne.symm hname), ih h]

end Entry

end Accessors.Disk

import Accessors.Namespace.Media

/-!
# Assets in folders

An asset that is put into a folder stands at the end of its path, and stays there whatever is put
into the folder later.
-/

namespace Accessors.Namespace.Folder

def Holds (folder : Folder) (entry : MediaEntry) : List String → Prop
  | [] => entry ∈ folder.assets
  | step :: path => ∃ inner, folder.folders.lookup step = some inner ∧ inner.Holds entry path

theorem holds_insert_self (entry : MediaEntry) (path : List String) (folder : Folder) :
    (folder.insert entry path).Holds entry path := by
  induction path generalizing folder with
  | nil => exact List.mem_append_right _ (List.mem_singleton_self _)
  | cons step path ih =>
    refine ⟨_, ?_, ih ((folder.folders.lookup step).getD empty)⟩
    show (insertEntry _ _ folder.folders).lookup step = _
    rw [lookup_insertEntry, if_pos rfl]

theorem holds_insert {folder : Folder} {other : MediaEntry} {steps : List String}
    (h : folder.Holds other steps) (entry : MediaEntry) (path : List String) :
    (folder.insert entry path).Holds other steps := by
  induction path generalizing folder steps with
  | nil =>
    cases steps with
    | nil => exact List.mem_append_left _ h
    | cons step steps => exact h
  | cons first path ih =>
    cases steps with
    | nil => exact h
    | cons step steps =>
      obtain ⟨inner, hlookup, h⟩ := h
      have hinsert : (folder.insert entry (first :: path)).folders.lookup step =
          if step = first then some (((folder.folders.lookup first).getD empty).insert entry path)
          else folder.folders.lookup step := by
        show (insertEntry _ _ folder.folders).lookup step = _
        rw [lookup_insertEntry]
      by_cases hs : step = first
      · subst hs
        rw [if_pos rfl, hlookup] at hinsert
        exact ⟨_, hinsert, ih h⟩
      · rw [if_neg hs, hlookup] at hinsert
        exact ⟨inner, hinsert, h⟩

theorem holds_ofEntries {entries : List (List String × MediaEntry)} {path : List String}
    {entry : MediaEntry} (h : (path, entry) ∈ entries) : (ofEntries entries).Holds entry path := by
  have hkeep : ∀ (rest : List (List String × MediaEntry)) (folder : Folder),
      folder.Holds entry path →
        (rest.foldl (fun folder entry => folder.insert entry.2 entry.1) folder).Holds entry
          path := by
    intro rest
    induction rest with
    | nil => exact fun _ hf => hf
    | cons other rest ih => exact fun folder hf => ih _ (holds_insert hf other.2 other.1)
  have hrun : ∀ folder : Folder,
      (entries.foldl (fun folder entry => folder.insert entry.2 entry.1) folder).Holds entry
        path := by
    induction entries with
    | nil => cases h
    | cons first rest ih =>
      intro folder
      rcases List.mem_cons.mp h with rfl | h
      · exact hkeep rest _ (holds_insert_self entry path folder)
      · exact ih h _
  exact hrun empty

end Accessors.Namespace.Folder

import Accessors.Namespace.Media
import Accessors.Proofs.OrderFree.Contents

/-!
# Folders without an order

A folder that assets are put into one after the other has the assets whose path ends there, and for
each first step of a path a folder with what is left of the paths behind that step. The folders are
ordered by name, so only the assets of one folder stand in the order in which they came, and those
are members of one namespace.
-/

namespace Accessors.Namespace

open Record (Asset AssetKind ImageFile)

namespace Folder

variable {entries xs ys : List (List String × MediaEntry)}

def here? : List String × MediaEntry → Option MediaEntry
  | ([], entry) => some entry
  | (_ :: _, _) => none

def behind? (step : String) : List String × MediaEntry → Option (List String × MediaEntry)
  | ([], _) => none
  | (first :: path, entry) => if first = step then some (path, entry) else none

def behind (step : String) (entries : List (List String × MediaEntry)) :
    List (List String × MediaEntry) :=
  entries.filterMap (behind? step)

def firstSteps (entries : List (List String × MediaEntry)) : List String :=
  distinct (entries.filterMap (·.1.head?))

/-- The folder that the entries make, told by the ends and the first steps of their paths. -/
def filled (entries : List (List String × MediaEntry)) : Folder :=
  ⟨entries.filterMap here?,
    (firstSteps entries).map fun step => (step, ofEntries (behind step entries))⟩

theorem behind_append_singleton (step : String) (entries : List (List String × MediaEntry))
    (first : String) (path : List String) (entry : MediaEntry) :
    behind step (entries ++ [(first :: path, entry)]) =
      behind step entries ++ if first = step then [(path, entry)] else [] := by
  unfold behind
  rw [List.filterMap_append]
  by_cases h : first = step <;> simp [behind?, h]

theorem mem_firstSteps_append_singleton {step first : String} {path : List String}
    {entry : MediaEntry} : step ∈ firstSteps (entries ++ [(first :: path, entry)]) ↔
      step ∈ firstSteps entries ∨ step = first := by
  simp [firstSteps]

theorem mem_of_mem_behind {step : String} {path : List String} {entry : MediaEntry}
    (h : (path, entry) ∈ behind step entries) : (step :: path, entry) ∈ entries := by
  obtain ⟨⟨steps, other⟩, hm, he⟩ := List.mem_filterMap.mp h
  cases steps with
  | nil => cases he
  | cons first rest =>
    rw [behind?] at he
    split at he
    · next hfirst =>
      obtain ⟨rfl, rfl⟩ := Prod.mk.inj (Option.some.inj he)
      exact hfirst ▸ hm
    · cases he

theorem behind_eq_nil {step : String} (h : step ∉ firstSteps entries) :
    behind step entries = [] := by
  apply List.eq_nil_iff_forall_not_mem.mpr
  rintro ⟨path, entry⟩ hm
  exact h (mem_distinct.mpr (List.mem_filterMap.mpr ⟨_, mem_of_mem_behind hm, rfl⟩))

theorem ofEntries_append_singleton (entries : List (List String × MediaEntry))
    (path : List String) (entry : MediaEntry) :
    ofEntries (entries ++ [(path, entry)]) = (ofEntries entries).insert entry path := by
  rw [ofEntries, List.foldl_append]
  rfl

theorem lookup_filled (entries : List (List String × MediaEntry)) (step : String) :
    ((filled entries).folders.lookup step).getD empty = ofEntries (behind step entries) := by
  unfold filled
  rw [lookup_map_keys]
  split
  · rfl
  · next h =>
    rw [behind_eq_nil h]
    rfl

theorem increasing_folders_filled (entries : List (List String × MediaEntry)) :
    Increasing ((filled entries).folders.map Prod.fst) := by
  have hi : Increasing (firstSteps entries) := increasing_distinct _
  simpa [filled, Function.comp_def] using hi

theorem insert_filled (entries : List (List String × MediaEntry)) (path : List String)
    (entry : MediaEntry) :
    (filled entries).insert entry path = filled (entries ++ [(path, entry)]) := by
  cases path with
  | nil =>
    have hsteps : firstSteps (entries ++ [([], entry)]) = firstSteps entries := by
      rw [firstSteps, List.filterMap_append]
      exact congrArg distinct (List.append_nil _)
    have hbehind : ∀ step, behind step (entries ++ [([], entry)]) = behind step entries := by
      intro step
      simp [behind, behind?]
    simp [insert, filled, here?, hsteps, hbehind]
  | cons first path =>
    rw [insert, lookup_filled, ← ofEntries_append_singleton]
    have hfolders : insertEntry first (ofEntries (behind first entries ++ [(path, entry)]))
        (filled entries).folders = (filled (entries ++ [(first :: path, entry)])).folders := by
      refine entries_ext_lookup ?_ (increasing_folders_filled _) fun step => ?_
      · rw [keys_insertEntry]
        exact increasing_insertKey first (increasing_folders_filled entries)
      · rw [lookup_insertEntry]
        unfold filled
        rw [lookup_map_keys, lookup_map_keys, behind_append_singleton]
        by_cases h : step = first
        · simp [h, mem_firstSteps_append_singleton]
        · simp [h, Ne.symm h, mem_firstSteps_append_singleton]
    rw [hfolders]
    simp [filled, here?]

theorem ofEntries_eq_filled (entries : List (List String × MediaEntry)) :
    ofEntries entries = filled entries := by
  -- What a run makes of a folder that is filled already.
  have hrun : ∀ before : List (List String × MediaEntry),
      entries.foldl (fun folder entry => folder.insert entry.2 entry.1) (filled before) =
        filled (before ++ entries) := by
    induction entries with
    | nil => exact fun before => by rw [List.append_nil]; rfl
    | cons entry rest ih =>
      intro before
      rw [List.foldl_cons, insert_filled, ih, List.append_assoc]
      rfl
  exact hrun []

end Folder

open Folder (behind filled firstSteps here? ofEntries)

theorem folderMembers_eq_map (kind : AssetKind) (bundle scope : String)
    (folders : List (String × Folder)) :
    folderMembers kind bundle scope folders = folders.map fun folder =>
      .child folder.1 (folderContents kind bundle (scope ++ "/" ++ folder.1) folder.2) := by
  induction folders with
  | nil => rw [folderMembers, List.map_nil]
  | cons folder rest ih => rw [folderMembers, ih, List.map_cons]

theorem folderContents_eq_of_perm (kind : AssetKind) (bundle scope : String)
    {xs ys : List (List String × MediaEntry)} (h : xs.Perm ys) :
    (folderContents kind bundle scope (ofEntries xs)).value =
      (folderContents kind bundle scope (ofEntries ys)).value := by
  obtain ⟨bound, hbound⟩ : ∃ bound, ∀ entry ∈ xs, entry.1.length < bound := by
    refine ⟨(xs.map Prod.fst).flatten.length + 1, fun entry hm => ?_⟩
    exact Nat.lt_succ_of_le (List.sublist_flatten_of_mem (List.mem_map_of_mem hm)).length_le
  -- Behind a step the paths are shorter.
  induction bound generalizing scope xs ys with
  | zero =>
    obtain rfl : xs = [] := List.eq_nil_iff_forall_not_mem.mpr fun entry hm =>
      absurd (hbound entry hm) (Nat.not_lt_zero _)
    rw [h.nil_eq]
  | succ bound ih =>
    have hsteps : firstSteps xs = firstSteps ys :=
      distinct_congr fun _ => (h.filterMap _).mem_iff
    have hbehind : ∀ step scope,
        (folderContents kind bundle scope (ofEntries (behind step xs))).value =
          (folderContents kind bundle scope (ofEntries (behind step ys))).value := by
      refine fun step scope => ih scope (h.filterMap _) fun entry hm => ?_
      exact Nat.lt_of_succ_lt_succ (hbound _ (Folder.mem_of_mem_behind hm))
    rw [Folder.ofEntries_eq_filled, Folder.ofEntries_eq_filled, filled, filled, folderContents,
      folderContents]
    apply assemble_eq_of_perm
    rw [folderMembers_eq_map, folderMembers_eq_map, hsteps]
    simp only [views, List.map_append, List.map_map]
    refine ((h.filterMap here?).map _).append (List.Perm.of_eq ?_)
    refine List.map_congr_left fun step _ => ?_
    simp [Member.child, hbehind]

variable (options : Options) {assets others : List Asset} {files otherFiles : List ImageFile}

theorem looseEntries_perm (h : files.Perm otherFiles) :
    (looseEntries files).Perm (looseEntries otherFiles) :=
  (eraseDups_perm (h.filterMap _)).map _

theorem assetEntries_perm (kind : AssetKind) (h : assets.Perm others) :
    (assetEntries kind assets).Perm (assetEntries kind others) :=
  (h.filter _).map _

theorem images_eq_of_perm (ha : assets.Perm others) (hf : files.Perm otherFiles) :
    (images options assets files).value = (images options others otherFiles).value :=
  folderContents_eq_of_perm _ _ _ ((assetEntries_perm .image ha).append (looseEntries_perm hf))

theorem colors_eq_of_perm (h : assets.Perm others) :
    (colors options assets).value = (colors options others).value :=
  folderContents_eq_of_perm _ _ _ (assetEntries_perm .color h)

theorem data_eq_of_perm (h : assets.Perm others) :
    (data options assets).value = (data options others).value :=
  folderContents_eq_of_perm _ _ _ (assetEntries_perm .data h)

end Accessors.Namespace

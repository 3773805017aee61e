import Accessors.Proofs.Namespace.Levels
import Accessors.Proofs.Namespace.Orderly
import Accessors.Proofs.OrderFree.Folders

/-!
# The tree of the assets

The items of a folder are its assets and its folders. An asset is kept if nothing else in its folder
has its identifier and, at every step of its path, nothing else where the step starts has the
identifier of the step. The tree has the leaves of the kept assets, each once and at the identifiers
of its path, and no other leaves.
-/

namespace Accessors.Namespace

open Identifier (ofName)
open Record (Asset AssetKind ImageFile)
open Accessors.Symbol (Leaf Node)

abbrev MediaEntries := List (List String × MediaEntry)

namespace MediaEntries

variable (entries : MediaEntries)

def assetsIn (folder : List String) : List MediaEntry :=
  entries.filterMap fun entry => if entry.1 = folder then some entry.2 else none

def HasFolder (folder : List String) (name : String) : Prop :=
  ∃ rest entry, (folder ++ name :: rest, entry) ∈ entries

structure FolderAlone (folder : List String) (name : String) : Prop where
  named : ofName name ≠ ""
  folders : ∀ other, entries.HasFolder folder other → ofName other = ofName name → other = name
  assets : ∀ asset ∈ entries.assetsIn folder, ofName asset.name ≠ ofName name

structure AssetAlone (folder : List String) (entry : MediaEntry) : Prop where
  named : ofName entry.name ≠ ""
  assets : (entries.assetsIn folder).filter (fun other => ofName other.name == ofName entry.name) =
    [entry]
  folders : ∀ name, entries.HasFolder folder name → ofName name ≠ ofName entry.name

structure Keeps (path : List String) (entry : MediaEntry) : Prop where
  folders : ∀ front step rest, path = front ++ step :: rest → entries.FolderAlone front step
  asset : entries.AssetAlone path entry

end MediaEntries

open Folder (behind behind? firstSteps here? ofEntries)

inductive MediaItem where
  | asset (entry : MediaEntry)
  | folder (name : String) (inside : MediaEntries)

namespace MediaItem

def title : MediaItem → String
  | asset entry => entry.name
  | folder name _ => name

def level (entries : MediaEntries) : List MediaItem :=
  (entries.filterMap here?).map asset ++
    (firstSteps entries).map fun step => folder step (behind step entries)

def below : MediaItem → List MediaItem
  | asset _ => []
  | folder _ inside => level inside

def leaf? (kind : AssetKind) (bundle : String) : MediaItem → Option Leaf
  | asset entry => some (assetLeaf kind bundle entry)
  | folder _ _ => none

def levels (kind : AssetKind) (bundle : String) : Levels MediaItem :=
  ⟨title, below, fun _ => leaf? kind bundle⟩

def scope (kind : AssetKind) (names : List String) : String :=
  names.foldl (fun scope name => scope ++ "/" ++ name) kind.label

def member (kind : AssetKind) (bundle : String) (front : List String) : MediaItem → Member
  | asset entry => assetMember kind bundle entry
  | folder name inside =>
    .child name (folderContents kind bundle (scope kind (front ++ [name])) (ofEntries inside))

end MediaItem

variable {kind : AssetKind} {bundle : String} {entries : MediaEntries} {path chain : List String}
  {step : String} {entry : MediaEntry}

theorem folderContents_ofEntries (kind : AssetKind) (bundle : String) (front : List String)
    (entries : MediaEntries) :
    folderContents kind bundle (MediaItem.scope kind front) (ofEntries entries) =
      assemble (assetsLabel kind) (MediaItem.scope kind front)
        ((MediaItem.level entries).map (MediaItem.member kind bundle front)) := by
  rw [Folder.ofEntries_eq_filled, Folder.filled, folderContents, folderMembers_eq_map,
    MediaItem.level, List.map_append, List.map_map, List.map_map, List.map_map]
  simp [Function.comp_def, MediaItem.member, MediaItem.scope]

theorem MediaItem.builds (kind : AssetKind) (bundle : String) :
    (levels kind bundle).Builds (member kind bundle) where
  name := by
    rintro front (entry | ⟨name, inside⟩) <;> rfl
  leaf := by
    rintro front (entry | ⟨name, inside⟩) leaf hleaf
    · obtain rfl := Option.some.inj hleaf
      exact ⟨rfl, rfl, rfl⟩
    · cases hleaf
  child := by
    rintro front (entry | ⟨name, inside⟩) hnone
    · cases hnone
    · rw [member, folderContents_ofEntries]
      simp only [Member.child, Noted.bind_value, Noted.pure_value, assemble_value]
      rfl
  notices := by
    rintro front (entry | ⟨name, inside⟩) hnone
    · cases hnone
    · refine ⟨assetsLabel kind, scope kind (front ++ [name]), ?_⟩
      rw [member, notices_child, folderContents_ofEntries]
      exact List.infix_rfl

theorem mem_behind_iff : (path, entry) ∈ behind step entries ↔ (step :: path, entry) ∈ entries := by
  refine ⟨Folder.mem_of_mem_behind, fun hm => List.mem_filterMap.mpr ⟨_, hm, ?_⟩⟩
  rw [behind?, if_pos rfl]

theorem hasFolder_behind {name : String} : MediaEntries.HasFolder (behind step entries) path name ↔
    entries.HasFolder (step :: path) name := by
  simp only [MediaEntries.HasFolder, mem_behind_iff, List.cons_append]

theorem assetsIn_behind (step : String) (entries : MediaEntries) (path : List String) :
    MediaEntries.assetsIn (behind step entries) path = entries.assetsIn (step :: path) := by
  rw [MediaEntries.assetsIn, behind, List.filterMap_filterMap]
  refine List.filterMap_congr fun place _ => ?_
  obtain ⟨steps, entry⟩ := place
  cases steps with
  | nil => rfl
  | cons first rest =>
    rw [behind?]
    by_cases hfirst : first = step <;> simp [hfirst]

theorem assetsIn_nil (entries : MediaEntries) : entries.assetsIn [] = entries.filterMap here? := by
  refine List.filterMap_congr fun place _ => ?_
  obtain ⟨steps, entry⟩ := place
  cases steps <;> rfl

theorem mem_assetsIn_iff : entry ∈ entries.assetsIn path ↔ (path, entry) ∈ entries := by
  rw [MediaEntries.assetsIn, List.mem_filterMap]
  constructor
  · rintro ⟨⟨steps, other⟩, hm, he⟩
    split at he
    · next hpath =>
      obtain rfl := Option.some.inj he
      exact hpath ▸ hm
    · cases he
  · exact fun hm => ⟨_, hm, if_pos rfl⟩

theorem mem_firstSteps_iff : step ∈ firstSteps entries ↔ entries.HasFolder [] step := by
  rw [firstSteps, mem_distinct, List.mem_filterMap]
  constructor
  · rintro ⟨⟨steps, entry⟩, hm, hhead⟩
    cases steps with
    | nil => cases hhead
    | cons first rest =>
      obtain rfl := Option.some.inj hhead
      exact ⟨rest, entry, hm⟩
  · rintro ⟨rest, entry, hm⟩
    exact ⟨_, hm, rfl⟩

namespace MediaEntries

variable {others : MediaEntries} {folder : List String} {name : String}

theorem AssetAlone.congr (hassets : entries.assetsIn path = others.assetsIn folder)
    (hfolders : ∀ name, entries.HasFolder path name ↔ others.HasFolder folder name)
    (h : entries.AssetAlone path entry) : others.AssetAlone folder entry where
  named := h.named
  assets := hassets ▸ h.assets
  folders := fun name hname => h.folders name ((hfolders name).mpr hname)

theorem FolderAlone.congr (hassets : entries.assetsIn path = others.assetsIn folder)
    (hfolders : ∀ name, entries.HasFolder path name ↔ others.HasFolder folder name)
    (h : entries.FolderAlone path name) : others.FolderAlone folder name where
  named := h.named
  folders := fun other ho => h.folders other ((hfolders other).mpr ho)
  assets := hassets ▸ h.assets

end MediaEntries

theorem assetAlone_behind : MediaEntries.AssetAlone (behind step entries) path entry ↔
    entries.AssetAlone (step :: path) entry :=
  ⟨.congr (assetsIn_behind step entries path) fun _ => hasFolder_behind,
    .congr (assetsIn_behind step entries path).symm fun _ => hasFolder_behind.symm⟩

theorem folderAlone_behind {name : String} :
    MediaEntries.FolderAlone (behind step entries) path name ↔
      entries.FolderAlone (step :: path) name :=
  ⟨.congr (assetsIn_behind step entries path) fun _ => hasFolder_behind,
    .congr (assetsIn_behind step entries path).symm fun _ => hasFolder_behind.symm⟩

theorem keeps_cons_iff : entries.Keeps (step :: path) entry ↔
    entries.FolderAlone [] step ∧ MediaEntries.Keeps (behind step entries) path entry := by
  constructor
  · rintro ⟨hfolders, hasset⟩
    refine ⟨hfolders [] step path rfl, ⟨fun front inner rest hsplit => ?_, ?_⟩⟩
    · refine folderAlone_behind.mpr (hfolders (step :: front) inner rest ?_)
      rw [hsplit, List.cons_append]
    · exact assetAlone_behind.mpr hasset
  · rintro ⟨hfirst, hfolders, hasset⟩
    refine ⟨fun front inner rest hsplit => ?_, assetAlone_behind.mp hasset⟩
    cases front with
    | nil =>
      obtain ⟨rfl, rfl⟩ := List.cons.inj hsplit
      exact hfirst
    | cons first front =>
      obtain ⟨rfl, htail⟩ := List.cons.inj hsplit
      exact folderAlone_behind.mp (hfolders front inner rest htail)

theorem keeps_nil_iff : entries.Keeps [] entry ↔ entries.AssetAlone [] entry := by
  refine ⟨fun h => h.asset, fun h => ⟨fun front step rest hsplit => ?_, h⟩⟩
  exact absurd hsplit (by simp)

theorem filter_level (entries : MediaEntries) (identifier : String) :
    (MediaItem.level entries).filter (fun other => ofName other.title == identifier) =
      ((entries.assetsIn []).filter (ofName ·.name == identifier)).map .asset ++
        ((firstSteps entries).filter (ofName · == identifier)).map fun step =>
          .folder step (behind step entries) := by
  rw [MediaItem.level, List.filter_append, List.filter_map, List.filter_map, assetsIn_nil]
  rfl

theorem lone_asset_iff : (MediaItem.levels kind bundle).Lone (MediaItem.level entries)
    (.asset entry) ↔ entries.AssetAlone [] entry := by
  have honly : (MediaItem.level entries).filter (fun other =>
      ofName other.title == ofName entry.name) = [.asset entry] ↔
        (entries.assetsIn []).filter (ofName ·.name == ofName entry.name) = [entry] ∧
          (firstSteps entries).filter (ofName · == ofName entry.name) = [] := by
    rw [filter_level, List.append_eq_singleton_iff]
    simp [List.map_eq_singleton_iff]
  constructor
  · rintro ⟨hnamed, hlone⟩
    obtain ⟨hassets, hsteps⟩ := honly.mp hlone
    refine ⟨hnamed, hassets, fun name hname he => ?_⟩
    exact List.filter_eq_nil_iff.mp hsteps name (mem_firstSteps_iff.mpr hname) (beq_iff_eq.mpr he)
  · rintro ⟨hnamed, hassets, hfolders⟩
    refine ⟨hnamed, honly.mpr ⟨hassets, List.filter_eq_nil_iff.mpr fun name hname he => ?_⟩⟩
    exact hfolders name (mem_firstSteps_iff.mp hname) (beq_iff_eq.mp he)

theorem lone_folder_iff {inside : MediaEntries} :
    (MediaItem.levels kind bundle).Lone (MediaItem.level entries) (.folder step inside) ↔
      inside = behind step entries ∧ entries.HasFolder [] step ∧ entries.FolderAlone [] step := by
  have hsteps : (firstSteps entries).filter (ofName · == ofName step) = [step] ↔
      entries.HasFolder [] step ∧
        ∀ other, entries.HasFolder [] other → ofName other = ofName step → other = step := by
    have hnodup : ((firstSteps entries).filter (ofName · == ofName step)).Nodup :=
      (increasing_distinct _).nodup.filter _
    rw [← List.perm_singleton, List.perm_ext_iff_of_nodup hnodup (List.nodup_singleton _)]
    simp only [List.mem_filter, mem_firstSteps_iff, beq_iff_eq, List.mem_singleton]
    constructor
    · exact fun h => ⟨((h step).mpr rfl).1, fun other ho he => (h other).mp ⟨ho, he⟩⟩
    · rintro ⟨hstep, honly⟩ other
      refine ⟨fun ⟨ho, he⟩ => honly other ho he, ?_⟩
      rintro rfl
      exact ⟨hstep, rfl⟩
  have honly : (MediaItem.level entries).filter (fun other => ofName other.title == ofName step) =
      [.folder step inside] ↔ inside = behind step entries ∧
        (entries.assetsIn []).filter (ofName ·.name == ofName step) = [] ∧
          (firstSteps entries).filter (ofName · == ofName step) = [step] := by
    rw [filter_level, List.append_eq_singleton_iff]
    simp only [List.map_eq_singleton_iff, List.map_eq_nil_iff, MediaItem.folder.injEq, reduceCtorEq,
      and_false, false_and, exists_false, or_false]
    constructor
    · rintro ⟨hassets, other, ho, rfl, rfl⟩
      exact ⟨rfl, hassets, ho⟩
    · rintro ⟨rfl, hassets, ho⟩
      exact ⟨hassets, step, ho, rfl, rfl⟩
  constructor
  · rintro ⟨hnamed, hlone⟩
    obtain ⟨hinside, hassets, ho⟩ := honly.mp hlone
    obtain ⟨hstep, hfolders⟩ := hsteps.mp ho
    refine ⟨hinside, hstep, hnamed, hfolders, fun asset hm he => ?_⟩
    exact List.filter_eq_nil_iff.mp hassets asset hm (beq_iff_eq.mpr he)
  · rintro ⟨hinside, hstep, hnamed, hfolders, hassets⟩
    refine ⟨hnamed, honly.mpr ⟨hinside, List.filter_eq_nil_iff.mpr fun asset hm he => ?_,
      hsteps.mpr ⟨hstep, hfolders⟩⟩⟩
    exact hassets asset hm (beq_iff_eq.mp he)

theorem mem_of_keeps (h : entries.Keeps path entry) : (path, entry) ∈ entries := by
  have hm : entry ∈ (entries.assetsIn path).filter fun other =>
      ofName other.name == ofName entry.name := h.asset.assets ▸ List.mem_singleton_self entry
  exact mem_assetsIn_iff.mp (List.mem_of_mem_filter hm)

theorem exposes_iff : (MediaItem.levels kind bundle).Exposes (MediaItem.level entries) chain
    (.asset entry) ↔ entries.Keeps chain entry := by
  induction chain generalizing entries with
  | nil => rw [Levels.Exposes.nil_iff, lone_asset_iff, keeps_nil_iff]
  | cons step chain ih =>
    rw [Levels.Exposes.cons_iff, keeps_cons_iff]
    constructor
    · rintro ⟨other | ⟨name, inside⟩, htitle, lone, inner⟩
      · -- Nothing is below an asset.
        cases inner.reaches with
        | here mem => cases mem
        | deeper mem inner => cases mem
      · obtain rfl : name = step := htitle
        obtain ⟨rfl, -, halone⟩ := lone_folder_iff.mp lone
        exact ⟨halone, ih.mp inner⟩
    · rintro ⟨halone, hkeeps⟩
      have hm := mem_behind_iff.mp (mem_of_keeps hkeeps)
      exact ⟨.folder step (behind step entries), rfl,
        lone_folder_iff.mpr ⟨rfl, ⟨_, _, hm⟩, halone⟩, ih.mpr hkeeps⟩

theorem reaches_of_mem (h : (chain, entry) ∈ entries) :
    (MediaItem.levels kind bundle).Reaches (MediaItem.level entries) chain (.asset entry) := by
  induction chain generalizing entries with
  | nil =>
    refine .here (List.mem_append_left _ (List.mem_map_of_mem ?_))
    rw [← assetsIn_nil]
    exact mem_assetsIn_iff.mpr h
  | cons step chain ih =>
    have hstep : .folder step (behind step entries) ∈ MediaItem.level entries :=
      List.mem_append_right _ (List.mem_map_of_mem (mem_firstSteps_iff.mpr ⟨chain, entry, h⟩))
    exact .deeper hstep (ih (mem_behind_iff.mpr h))

/-- The leaves of the tree are those of the assets that are kept, each at the identifiers of its
path and there once. -/
structure MediaEntries.Shows (entries : MediaEntries) (kind : AssetKind) (bundle : String)
    (root : Node) : Prop where
  nodup : root.places.Nodup
  mem_iff : ∀ path leaf, (path, leaf) ∈ root.places ↔ ∃ folders entry,
    (folders, entry) ∈ entries ∧ entries.Keeps folders entry ∧
      path = folders.map ofName ∧ leaf = assetLeaf kind bundle entry
  once_iff : ∀ folders entry, (folders, entry) ∈ entries →
    (root.places.count (folders.map ofName, assetLeaf kind bundle entry) = 1 ↔
      entries.Keeps folders entry)

theorem media_shows (options : Options) (kind : AssetKind) (entries : MediaEntries)
    (name : String) :
    entries.Shows kind options.bundleExpression ((media options kind entries).value.node name) := by
  have hcontents : media options kind entries = assemble (assetsLabel kind) kind.label
      ((MediaItem.level entries).map (MediaItem.member kind options.bundleExpression [])) :=
    folderContents_ofEntries kind options.bundleExpression [] entries
  have ho : (media options kind entries).value.Orderly := folderContents_orderly ..
  rw [hcontents] at ho ⊢
  have hshows := (MediaItem.builds kind options.bundleExpression).shows ho name
  refine ⟨hshows.nodup, fun path leaf => (hshows.mem_iff path leaf).trans ?_, ?_⟩
  · constructor
    · rintro ⟨folders, item, hexposes, hleaf, hpath⟩
      cases item with
      | asset entry =>
        have hkeeps := exposes_iff.mp hexposes
        exact ⟨folders, entry, mem_of_keeps hkeeps, hkeeps, hpath, (Option.some.inj hleaf).symm⟩
      | folder name inside => cases hleaf
    · rintro ⟨folders, entry, -, hkeeps, hpath, rfl⟩
      exact ⟨folders, .asset entry, exposes_iff.mpr hkeeps, rfl, hpath⟩
  · intro folders entry hm
    exact (hshows.once_iff folders (.asset entry) _ (reaches_of_mem hm) rfl).trans exposes_iff

def mediaEntries (kind : AssetKind) (assets : List Asset) (files : List ImageFile) : MediaEntries :=
  assetEntries kind assets ++ if kind = .image then looseEntries files else []

def mediaNamespace (options : Options) (kind : AssetKind) (assets : List Asset)
    (files : List ImageFile) : Noted Contents :=
  match kind with
  | .image => images options assets files
  | .color => colors options assets
  | .data => data options assets

theorem value_mediaNamespace (options : Options) (kind : AssetKind) (assets : List Asset)
    (files : List ImageFile) : (mediaNamespace options kind assets files).value =
      (media options kind (mediaEntries kind assets files)).value := by
  cases kind with
  | image => rfl
  | color =>
    rw [mediaEntries, if_neg (by decide), List.append_nil]
    rfl
  | data =>
    rw [mediaEntries, if_neg (by decide), List.append_nil]
    rfl

theorem fullName_of_mem {kind : AssetKind} {assets : List Asset} {files : List ImageFile}
    {folders : List String} {entry : MediaEntry}
    (hm : (folders, entry) ∈ mediaEntries kind assets files) :
    entry.fullName = Record.fullName folders entry.name := by
  rcases List.mem_append.mp hm with hm | hm
  · obtain ⟨asset, -, he⟩ := List.mem_map.mp hm
    obtain ⟨rfl, rfl⟩ := Prod.mk.inj he
    rfl
  · split at hm
    · obtain ⟨name, -, he⟩ := List.mem_map.mp hm
      obtain ⟨rfl, rfl⟩ := Prod.mk.inj he
      exact String.intercalate_singleton.symm
    · cases hm

/-- The tree of each kind has the leaves of the assets that are kept, among which loose files of one
base name count once. They are bound to their full names. -/
theorem media_exact (options : Options) (kind : AssetKind) (assets : List Asset)
    (files : List ImageFile) (name : String) :
    (mediaEntries kind assets files).Shows kind options.bundleExpression
        ((mediaNamespace options kind assets files).value.node name) ∧
      (∀ folders entry, (folders, entry) ∈ mediaEntries kind assets files →
        entry.fullName = Record.fullName folders entry.name) ∧
      (looseNames files).Nodup ∧
      ∀ base, base ∈ looseNames files ↔
        ∃ file ∈ files, ImageName.base? file.fileName = some base := by
  refine ⟨?_, fun folders entry => fullName_of_mem, nodup_eraseDups _, fun base => ?_⟩
  · rw [value_mediaNamespace]
    exact media_shows options kind _ name
  · rw [looseNames, List.mem_eraseDups, List.mem_filterMap]

-- The loose file has the identifier of a folder, so that neither is kept.
example : (((mediaNamespace .default .image [⟨.image, "", ["Icons"], "add item"⟩,
    ⟨.image, "", ["Flags"], "de"⟩] [⟨"flags@2x.png"⟩]).value.node "image").places.map fun place =>
      (place.1, place.2.name)) = [(["icons"], "addItem")] := by decide +kernel

end Accessors.Namespace

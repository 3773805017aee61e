import Accessors.Namespace.Media
import Accessors.Proofs.ImageName
import Accessors.Proofs.Permutation

/-!
# Variants of a loose image

The variants of an image are the files whose names are its base and an ending. If the base ends in
no scale and no device itself, it is the base of all its variants, so they make one entry among the
images. A scale behind another suffix is cut off alone.
-/

namespace Accessors.Namespace

open ImageName (Ending EndsInSuffix IsDevice IsScale Named base? base?_append)
open Record (Asset ImageFile)

def IsVariant (base : String) (file : ImageFile) : Prop :=
  ∃ ending : String, Ending ending.toList ∧ file.fileName = base ++ ending

section

variable {α : Type} [DecidableEq α] {xs ys : List α} {a : α}

theorem eraseDups_append_cons (h : a ∈ xs) : (xs ++ a :: ys).eraseDups = (xs ++ ys).eraseDups := by
  have hremove : (a :: ys).removeAll xs = ys.removeAll xs := by simp [List.removeAll, h]
  rw [List.eraseDups_append, List.eraseDups_append, hremove]

theorem filter_eraseDups (h : a ∈ xs) : xs.eraseDups.filter (· == a) = [a] := by
  have hcount := List.count_eq_one_of_mem (nodup_eraseDups xs) (List.mem_eraseDups.mpr h)
  rw [List.filter_beq, hcount, List.replicate_one]

end

variable {base : String} {before after files : List ImageFile} {file other : ImageFile}

theorem mem_bases (hm : file ∈ files) (h : base? file.fileName = some base) :
    base ∈ files.filterMap fun file => base? file.fileName :=
  List.mem_filterMap.mpr ⟨file, hm, h⟩

theorem filter_looseEntries (hm : file ∈ files) (h : base? file.fileName = some base) :
    (looseEntries files).filter (·.2.name == base) = [([], ⟨base, base⟩)] := by
  rw [looseEntries, List.filter_map, looseNames]
  simp only [Function.comp_def]
  rw [filter_eraseDups (mem_bases hm h)]
  rfl

theorem images_append_cons (options : Options) (assets : List Asset) (hm : file ∈ before)
    (h : base? file.fileName = some base) (hother : base? other.fileName = some base) :
    images options assets (before ++ other :: after) = images options assets (before ++ after) := by
  have hnames : looseNames (before ++ other :: after) = looseNames (before ++ after) := by
    have hcons : (other :: after).filterMap (fun file => base? file.fileName) =
        base :: after.filterMap fun file => base? file.fileName := List.filterMap_cons_some hother
    rw [looseNames, looseNames, List.filterMap_append, List.filterMap_append, hcons,
      eraseDups_append_cons (mem_bases hm h)]
  have hsupported : unsupportedImages (before ++ other :: after) =
      unsupportedImages (before ++ after) := by
    simp [unsupportedImages, hother]
  rw [images, images, looseEntries, looseEntries, hnames, hsupported]

/-- All variants have the base. They make one entry, to which a variant behind another one adds
nothing. -/
structure Collapses (base : String) : Prop where
  base?_eq : ∀ file, IsVariant base file → base? file.fileName = some base
  entry : ∀ files : List ImageFile, (∃ file ∈ files, IsVariant base file) →
    (looseEntries files).filter (·.2.name == base) = [([], ⟨base, base⟩)]
  absorbed : ∀ (options : Options) (assets : List Asset) (before after : List ImageFile) file other,
    file ∈ before → IsVariant base file → IsVariant base other →
    images options assets (before ++ other :: after) = images options assets (before ++ after)

theorem collapses (hne : base ≠ "") (hline : '\n' ∉ base.toList)
    (hsuffix : ¬ EndsInSuffix base.toList) : Collapses base := by
  have hbase : ∀ file, IsVariant base file → base? file.fileName = some base := by
    rintro file ⟨ending, hending, hname⟩
    rw [hname]
    exact base?_append hne hline hending (.inr hsuffix)
  refine ⟨hbase, ?_, ?_⟩
  · rintro files ⟨file, hm, hfile⟩
    exact filter_looseEntries hm (hbase file hfile)
  · intro options assets before after file other hm hfile hother
    exact images_append_cons options assets hm (hbase file hfile) (hbase other hother)

/-- The base of a name is its shortest front of one line before an ending. Without a suffix of its
own it is the base of all its variants, and a scale behind a suffix leaves that in the base. -/
theorem looseImages_exact :
    (∀ name base : String, base? name = some base ↔
      Named name base ∧ ∀ other, Named name other → base.length ≤ other.length) ∧
    (∀ base : String, base ≠ "" → '\n' ∉ base.toList → ¬ EndsInSuffix base.toList →
      Collapses base) ∧
    ∀ base suffix scale rest : String, base ≠ "" → '\n' ∉ base.toList →
      (IsScale suffix.toList ∨ IsDevice suffix.toList) → IsScale scale.toList →
      Ending (scale ++ rest).toList →
      base? (base ++ suffix ++ (scale ++ rest)) = some (base ++ suffix) := by
  refine ⟨fun name base => ImageName.base?_eq_some_iff, fun base => collapses, ?_⟩
  intro base suffix scale rest hne hline hsuffix hscale hending
  obtain ⟨digits, hdigits, -⟩ := hscale.exists_cons
  have hmark : '@' ∈ (scale ++ rest).toList := by simp [String.toList_append, hdigits]
  have hsuffixLine : '\n' ∉ suffix.toList :=
    hsuffix.elim (·.not_mem (by decide)) (·.not_mem (by decide))
  refine base?_append (fun he => hne (String.append_eq_empty_iff.mp he).1) ?_ hending (.inl hmark)
  rw [String.toList_append]
  exact List.not_mem_append hline hsuffixLine

theorem looseImages_exact_icon :
    Collapses "icon" ∧ base? "icon@3x~ipad.PNG" = some "icon" ∧
      base? "icon@2x@3x.png" = some "icon@2x" ∧ base? "icon~ipad@2x.png" = some "icon~ipad" := by
  obtain ⟨-, hcollapses, hscale⟩ := looseImages_exact
  have hplain : ¬ EndsInSuffix "icon".toList := fun h => absurd h.exists_mark (by decide)
  have hicon := hcollapses "icon" (by decide) (by decide) hplain
  have hvariant : IsVariant "icon" ⟨"icon@3x~ipad.PNG"⟩ :=
    ⟨"@3x~ipad.PNG", ImageName.isEnding_iff.mp (by decide), by decide⟩
  refine ⟨hicon, hicon.base?_eq _ hvariant, ?_, ?_⟩
  · exact hscale "icon" "@2x" "@3x" ".png" (by decide) (by decide)
      (.inl ⟨['2'], 'x', by decide, by decide, .inl rfl, rfl⟩)
      ⟨['3'], 'x', by decide, by decide, .inl rfl, rfl⟩ (ImageName.isEnding_iff.mp (by decide))
  · exact hscale "icon" "~ipad" "@2x" ".png" (by decide) (by decide)
      (.inr ⟨['i', 'p', 'a', 'd'], by decide, rfl⟩)
      ⟨['2'], 'x', by decide, by decide, .inl rfl, rfl⟩ (ImageName.isEnding_iff.mp (by decide))

end Accessors.Namespace

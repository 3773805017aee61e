import Accessors.Namespace.Files
import Accessors.Proofs.FileName
import Accessors.Proofs.Namespace.Assembly
import Accessors.Proofs.Text.Quoted

/-!
# Which file an accessor locates

A file that has its identifier to itself gets a constant and a function, and both are bound to the
stem and the extension of its name. These join to the name, unless it ends in a dot: then the
accessor locates the file whose name lacks the dot. Two files of a namespace are never located by
the same stem and extension, as names that differ by such a dot share their identifier.
-/

namespace Accessors.Namespace

open Identifier (Named ofName)
open Record (BundledFile)
open Accessors.Symbol (Leaf)
open Text (quote quote_append_iff)

def resourceOf (bundle : String) (parts : String × String) : String :=
  s!"FileResource(bundle: {bundle}, name: {quote parts.1}, "
    ++ s!"pathExtension: {quote parts.2})"

def placeOf (bundle : String) (parts : String × String) : String :=
  s!"{bundle}.url(forResource: {quote parts.1}, withExtension: {quote parts.2})"

theorem injective_of_quotes {call : String × String → String} (opening between closing : String)
    (h : ∀ parts, call parts =
      opening ++ (quote parts.1 ++ (between ++ (quote parts.2 ++ closing)))) :
    Function.Injective call := by
  intro parts other he
  rw [h, h] at he
  simp only [String.append_right_inj, quote_append_iff, and_true] at he
  exact Prod.ext_iff.mpr he

theorem resourceOf_injective (bundle : String) : Function.Injective (resourceOf bundle) := by
  refine injective_of_quotes ("FileResource(bundle: " ++ (bundle ++ ", name: "))
    (", " ++ "pathExtension: ") ")" fun parts => ?_
  delta resourceOf
  simp only [toString, String.append_assoc]

theorem placeOf_injective (bundle : String) : Function.Injective (placeOf bundle) := by
  refine injective_of_quotes (bundle ++ ".url(forResource: ") ", withExtension: " ")"
    fun parts => ?_
  delta placeOf
  simp only [toString, String.append_assoc]

/-- A constant and a function of one name, which give the resource and the place of a file by its
stem and extension. -/
structure Locates (bundle : String) (leaves : List Leaf) (parts : String × String) : Prop where
  names : ∃ identifier, leaves.map Leaf.name = [identifier, identifier]
  shapes : leaves.map Leaf.shape = [.constant, .function []]
  bindings : leaves.map Leaf.binding = [resourceOf bundle parts, placeOf bundle parts]

theorem locates_fileLeaves (bundle : String) (file : BundledFile) :
    Locates bundle (fileLeaves bundle file) (FileName.split file.fileName) where
  names := ⟨_, rfl⟩
  shapes := rfl
  bindings := rfl

def servedFiles (records : List BundledFile) : List BundledFile :=
  (Identifier.group BundledFile.fileName records).uniques.map Named.item

theorem leaves_files (options : Options) (records : List BundledFile) :
    (files options records).value.leaves =
      (servedFiles records).flatMap (fileLeaves options.bundleExpression) := by
  have hmap := congrArg Identifier.Grouping.uniques (Identifier.group_map Member.name
    (fun file => Member.plain file.fileName (.ofLeaves (fileLeaves options.bundleExpression file)))
    records)
  rw [files, assemble_value, keptMembers, hmap, servedFiles]
  simp [Contents.concat, List.flatMap_map, Named.map, Member.plain, Contents.ofLeaves,
    Function.comp_def]

theorem pairwise_servedFiles (records : List BundledFile) :
    (servedFiles records).Pairwise fun a b => ofName a.fileName ≠ ofName b.fileName := by
  have hnodup := (Identifier.increasing_uniques BundledFile.fileName records).nodup
  rw [servedFiles, List.pairwise_map]
  refine (List.pairwise_map.mp hnodup).imp_of_mem fun {a b} ha hb hne he => hne ?_
  obtain ⟨file, -, rfl⟩ := Identifier.exists_of_mem_uniques ha
  obtain ⟨other, -, rfl⟩ := Identifier.exists_of_mem_uniques hb
  exact he

theorem ofName_eq_of_split_eq {a b : String} (h : FileName.split a = FileName.split b) :
    ofName a = ofName b := by
  have hparts : ∀ name, ofName name = ofName (FileName.join (FileName.split name)) := by
    intro name
    by_cases hdot : FileName.EndsInDot name
    · obtain ⟨stem, hstem, rfl⟩ := hdot
      rw [FileName.split_append_dot hstem, Identifier.ofName_append_dot]
      rfl
    · rw [FileName.join_split_iff.mpr hdot]
  rw [hparts a, hparts b, h]

/-- What a stem and an extension say of a file name: they join to it just if it does not end in a
dot, which they lose. -/
structure PartsOf (parts : String × String) (name : String) : Prop where
  join_iff : FileName.join parts = name ↔ ¬ FileName.EndsInDot name
  of_dot : FileName.EndsInDot name → parts.2 = "" ∧ FileName.join parts ++ "." = name

theorem partsOf_split (name : String) : PartsOf (FileName.split name) name where
  join_iff := FileName.join_split_iff
  of_dot := by
    rintro ⟨stem, hstem, rfl⟩
    rw [FileName.split_append_dot hstem]
    exact ⟨rfl, rfl⟩

theorem Locates.eq_split {bundle : String} {file : BundledFile} {parts : String × String}
    (h : Locates bundle (fileLeaves bundle file) parts) : parts = FileName.split file.fileName :=
  resourceOf_injective bundle
    (List.cons.inj (h.bindings.symm.trans (locates_fileLeaves bundle file).bindings)).1

def LocatedApart (bundle : String) (leaves others : List Leaf) : Prop :=
  ∀ a b, Locates bundle leaves a → Locates bundle others b →
    a ≠ b ∧ resourceOf bundle a ≠ resourceOf bundle b ∧ placeOf bundle a ≠ placeOf bundle b

theorem locatedApart_of_split_ne {bundle : String} {file other : BundledFile}
    (h : FileName.split file.fileName ≠ FileName.split other.fileName) :
    LocatedApart bundle (fileLeaves bundle file) (fileLeaves bundle other) := by
  intro a b ha hb
  obtain rfl := ha.eq_split
  obtain rfl := hb.eq_split
  exact ⟨h, fun he => h (resourceOf_injective bundle he), fun he => h (placeOf_injective bundle he)⟩

/-- Each file with an identifier of its own has two leaves, bound to one stem and extension, which
join to its name unless that ends in a dot. Files with different names are located apart. -/
theorem files_located (options : Options) (records : List BundledFile) :
    let leaves := fileLeaves options.bundleExpression
    (files options records).value.leaves = (servedFiles records).flatMap leaves ∧
      (∀ file, file ∈ servedFiles records ↔ ofName file.fileName ≠ "" ∧
        records.filter (fun other => ofName other.fileName == ofName file.fileName) = [file]) ∧
      (∀ file ∈ servedFiles records, ∃ parts,
        Locates options.bundleExpression (leaves file) parts ∧ PartsOf parts file.fileName) ∧
      (servedFiles records).Pairwise fun file other => file.fileName ≠ other.fileName ∧
        LocatedApart options.bundleExpression (leaves file) (leaves other) := by
  refine ⟨leaves_files options records, fun file => Identifier.mem_items_uniques_iff,
    fun file _ => ⟨_, locates_fileLeaves _ file, partsOf_split file.fileName⟩, ?_⟩
  refine (pairwise_servedFiles records).imp fun {file other} hne => ?_
  exact ⟨fun he => hne (he ▸ rfl),
    locatedApart_of_split_ne fun he => hne (ofName_eq_of_split_eq he)⟩

/-- The accessor of `foo.` locates `foo`. -/
theorem exists_located_elsewhere :
    ∃ (file : BundledFile) (parts : String × String),
      (files .default [file]).value.leaves = fileLeaves "R.hostingBundle" file ∧
        Locates "R.hostingBundle" (fileLeaves "R.hostingBundle" file) parts ∧
        FileName.join parts ≠ file.fileName :=
  ⟨⟨"foo."⟩, ("foo", ""), by decide +kernel, locates_fileLeaves _ ⟨"foo."⟩, by decide⟩

end Accessors.Namespace

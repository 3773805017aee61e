import Accessors.Command.Generate
import Accessors.Proofs.Command.Bundles
import Accessors.Proofs.Disk.Following
import Accessors.Proofs.Traversal

/-!
# A run is the composition of its parts

A run that finds something missing, unreadable or ill-formed reports the first of these, in the
order configuration, directory, bundles in load order, and does nothing else. Every other run
compiles all bundles put together, warns once for each notice, and delivers the tree.
-/

namespace Accessors

namespace Record.Resources

def concat (bundles : List Resources) : Resources where
  strings := bundles.flatMap (·.strings)
  templates := bundles.flatMap (·.templates)
  assets := bundles.flatMap (·.assets)
  imageFiles := bundles.flatMap (·.imageFiles)
  fonts := bundles.flatMap (·.fonts)
  files := bundles.flatMap (·.files)
  propertyLists := bundles.flatMap (·.propertyLists)

theorem append_concat_cons (resources bundle : Resources) (rest : List Resources) :
    resources ++ concat (bundle :: rest) = resources ++ bundle ++ concat rest := by
  show append _ _ = append (append _ _) _
  simp [append, concat]

theorem append_concat_nil (resources : Resources) : resources ++ concat [] = resources := by
  show append _ _ = _
  simp [append, concat]

theorem append_empty (resources : Resources) : resources ++ empty = resources := by
  show append _ _ = _
  simp [append, empty]

theorem empty_append (resources : Resources) : empty ++ resources = resources := by
  show append _ _ = _
  simp [append, empty]

end Record.Resources

namespace Command

open Disk (Tree)
open Record (Resources)
open Record.Resources (concat)
open Accessors.Symbol (Node)

structure Sources where
  /-- The path of a configuration, with its text if it can be read. -/
  config : Option (String × Option String)
  shown : String
  directory : Option Tree

def Request.sources (request : Request) (disk : Disk) : Sources where
  config := request.config.map fun path => (path, disk.read? path)
  shown := Disk.shown disk.workingPath request.resources
  directory := disk.directory? (Disk.fromWorking request.resources)

namespace Sources

def Configured (sources : Sources) (options : Options) : Prop :=
  (sources.config = none ∧ options = .default) ∨
    ∃ path text, sources.config = some (path, some text) ∧ Options.ofText? text = some options

def bundle? (text : Option String) : Option Resources := text.bind Resources.ofText?

inductive Flawed (sources : Sources) : Prop
  | configUnreadable {path} (hc : sources.config = some (path, none))
  | configInvalid {path text} (hc : sources.config = some (path, some text))
      (ht : Options.ofText? text = none)
  | resourcesMissing (hd : sources.directory = none)
  | bundlesMissing {directory} (hd : sources.directory = some directory)
      (hb : ∀ path text, ¬ HoldsBundle directory path text)
  | bundle {directory path text} (hd : sources.directory = some directory)
      (hb : HoldsBundle directory path text) (ht : bundle? text = none)

/-- The failure of the first step that cannot be done: the configuration comes first, then the
directory, then its bundles in load order. -/
inductive FirstFailure (sources : Sources) : Failure → Prop
  | configUnreadable {path} (hc : sources.config = some (path, none)) :
      FirstFailure sources (.configUnreadable path)
  | configInvalid {path text} (hc : sources.config = some (path, some text))
      (ht : Options.ofText? text = none) : FirstFailure sources (.configInvalid path)
  | resourcesMissing {options} (ho : sources.Configured options)
      (hd : sources.directory = none) : FirstFailure sources (.resourcesMissing sources.shown)
  | bundlesMissing {options directory} (ho : sources.Configured options)
      (hd : sources.directory = some directory) (hb : InLoadOrder directory []) :
      FirstFailure sources (.bundlesMissing sources.shown)
  | resourcesUnreadable {options directory before path after} (ho : sources.Configured options)
      (hd : sources.directory = some directory)
      (hb : InLoadOrder directory (before ++ (path, none) :: after))
      (hbefore : ∀ bundle ∈ before, bundle? bundle.2 ≠ none) :
      FirstFailure sources (.resourcesUnreadable (showPath path))
  | bundleInvalid {options directory before path text after} (ho : sources.Configured options)
      (hd : sources.directory = some directory)
      (hb : InLoadOrder directory (before ++ (path, some text) :: after))
      (hbefore : ∀ bundle ∈ before, bundle? bundle.2 ≠ none) (ht : Resources.ofText? text = none) :
      FirstFailure sources (.bundleInvalid (showPath path))

/-- Everything is there: the options, and the resources of the bundles in load order. -/
structure Loaded (sources : Sources) (options : Options) (bundles : List Resources) : Prop where
  configured : sources.Configured options
  directory : ∃ directory files, sources.directory = some directory ∧
    InLoadOrder directory files ∧ files ≠ [] ∧
    files.mapM (fun file => bundle? file.2) = some bundles

def Walkable (sources : Sources) : Prop :=
  ∀ directory, sources.directory = some directory → directory.Open

variable {sources : Sources} {options : Options}

theorem exists_configured (hunreadable : ∀ path, sources.config ≠ some (path, none))
    (hinvalid : ∀ path text, sources.config = some (path, some text) →
      Options.ofText? text ≠ none) :
    ∃ options, sources.Configured options := by
  match hc : sources.config with
  | none => exact ⟨.default, .inl ⟨hc, rfl⟩⟩
  | some (path, none) => exact absurd hc (hunreadable path)
  | some (path, some text) =>
    obtain ⟨options, ht⟩ := Option.ne_none_iff_exists'.mp (hinvalid path text hc)
    exact ⟨options, .inr ⟨path, text, hc, ht⟩⟩

theorem exists_first_of_bundle {files : List (List String × Option String)}
    {file : List String × Option String} (hf : file ∈ files) (ht : bundle? file.2 = none) :
    ∃ before path text after, files = before ++ (path, text) :: after ∧
      (∀ bundle ∈ before, bundle? bundle.2 ≠ none) ∧ bundle? text = none := by
  have hfind : (files.find? fun file => (bundle? file.2).isNone).isSome :=
    List.find?_isSome.mpr ⟨file, hf, Option.isNone_iff_eq_none.mpr ht⟩
  obtain ⟨⟨path, text⟩, hfirst⟩ := Option.isSome_iff_exists.mp hfind
  obtain ⟨hnone, before, after, hsplit, hbefore⟩ := List.find?_eq_some_iff_append.mp hfirst
  refine ⟨before, path, text, after, hsplit, fun bundle hb he => ?_,
    Option.isNone_iff_eq_none.mp hnone⟩
  simpa [he] using hbefore bundle hb

theorem Flawed.exists_firstFailure (h : sources.Flawed) (hw : sources.Walkable) :
    ∃ failure, sources.FirstFailure failure := by
  by_cases hunreadable : ∃ path, sources.config = some (path, none)
  · exact ⟨_, .configUnreadable hunreadable.choose_spec⟩
  by_cases hinvalid : ∃ path text, sources.config = some (path, some text) ∧
      Options.ofText? text = none
  · obtain ⟨path, text, hc, ht⟩ := hinvalid
    exact ⟨_, .configInvalid hc ht⟩
  obtain ⟨options, ho⟩ := exists_configured (fun path hc => hunreadable ⟨path, hc⟩)
    fun path text hc ht => hinvalid ⟨path, text, hc, ht⟩
  match hd : sources.directory with
  | none => exact ⟨_, .resourcesMissing ho hd⟩
  | some directory =>
    obtain ⟨files, -, hfiles⟩ := exists_inLoadOrder (hw directory hd)
    by_cases hgood : ∀ file ∈ files, bundle? file.2 ≠ none
    · -- Every bundle is good, so it can only be that there is none.
      have hnil : files = [] := by
        refine List.eq_nil_iff_forall_not_mem.mpr fun file hf => ?_
        cases h with
        | configUnreadable hc => exact hunreadable ⟨_, hc⟩
        | configInvalid hc ht => exact hinvalid ⟨_, _, hc, ht⟩
        | resourcesMissing hnone => cases hd.symm.trans hnone
        | bundlesMissing hsome hb =>
          obtain rfl := Option.some.inj (hd.symm.trans hsome)
          exact hb _ _ ((hfiles.mem_iff _ _).mp hf)
        | bundle hsome hb ht =>
          obtain rfl := Option.some.inj (hd.symm.trans hsome)
          exact hgood _ ((hfiles.mem_iff _ _).mpr hb) ht
      exact ⟨_, .bundlesMissing ho hd (hnil ▸ hfiles)⟩
    · push Not at hgood
      obtain ⟨file, hf, ht⟩ := hgood
      obtain ⟨before, path, text, after, rfl, hbefore, ht⟩ := exists_first_of_bundle hf ht
      cases text with
      | none => exact ⟨_, .resourcesUnreadable ho hd hfiles hbefore⟩
      | some text => exact ⟨_, .bundleInvalid ho hd hfiles hbefore ht⟩

theorem exists_loaded (h : ¬ sources.Flawed) (hw : sources.Walkable) :
    ∃ options bundles, sources.Loaded options bundles := by
  obtain ⟨options, ho⟩ := exists_configured (fun path hc => h (.configUnreadable hc))
    fun path text hc ht => h (.configInvalid hc ht)
  obtain ⟨directory, hd⟩ := Option.ne_none_iff_exists'.mp fun hd => h (.resourcesMissing hd)
  obtain ⟨files, -, hfiles⟩ := exists_inLoadOrder (hw directory hd)
  have hne : files ≠ [] := by
    rintro rfl
    exact h (.bundlesMissing hd fun path text hb =>
      List.not_mem_nil ((hfiles.mem_iff path text).mpr hb))
  obtain ⟨bundles, hbundles⟩ := exists_mapM (f := fun file => bundle? file.2)
    fun file (hf : file ∈ files) => Option.ne_none_iff_exists'.mp fun ht =>
      h (.bundle hd ((hfiles.mem_iff _ _).mp hf) ht)
  exact ⟨options, bundles, ho, directory, files, hd, hfiles, hne, hbundles⟩

end Sources

theorem addFound_of_bundle? {path : List String} {text : Option String} {bundle : Resources}
    (h : Sources.bundle? text = some bundle) (resources : Resources) :
    addFound resources (.bundle path text) = .ok (resources ++ bundle) := by
  cases text with
  | none => cases h
  | some text =>
    have ht : Resources.ofText? text = some bundle := h
    rw [addFound, ht]

theorem foldlM_addFound {files : List (List String × Option String)} {bundles : List Resources}
    (h : files.mapM (fun file => Sources.bundle? file.2) = some bundles) (resources : Resources) :
    (files.map fun file => Found.bundle file.1 file.2).foldlM addFound resources =
      .ok (resources ++ concat bundles) := by
  induction files generalizing bundles resources with
  | nil =>
    obtain rfl : bundles = [] := by simpa using h.symm
    rw [Record.Resources.append_concat_nil]
    rfl
  | cons file rest ih =>
    obtain ⟨path, text⟩ := file
    rw [List.mapM_cons] at h
    obtain ⟨bundle, hbundle, h⟩ := Option.bind_eq_some_iff.mp h
    obtain ⟨others, hothers, h⟩ := Option.bind_eq_some_iff.mp h
    obtain rfl := Option.some.inj h
    rw [List.map_cons, List.foldlM_cons, addFound_of_bundle? hbundle,
      Record.Resources.append_concat_cons]
    exact ih hothers _

theorem foldlM_addFound_append {before : List (List String × Option String)} {found : Found}
    {failure : Failure} (hbefore : ∀ bundle ∈ before, Sources.bundle? bundle.2 ≠ none)
    (hfound : ∀ resources, addFound resources found = .error failure) (after : List Found)
    (resources : Resources) :
    ((before.map fun file => Found.bundle file.1 file.2) ++ found :: after).foldlM addFound
      resources = .error failure := by
  obtain ⟨bundles, hbundles⟩ := exists_mapM (f := fun file => Sources.bundle? file.2)
    fun file (hf : file ∈ before) => Option.ne_none_iff_exists'.mp (hbefore file hf)
  rw [List.foldlM_append, foldlM_addFound hbundles]
  exact List.foldlM_cons.trans (bind_eq_error_iff.mpr (.inl (hfound _)))

section Produce

variable {sources : Sources} {options : Options}

theorem loadOptions_of_configured (h : sources.Configured options) :
    loadOptions sources.config = .ok options := by
  obtain ⟨hc, rfl⟩ | ⟨path, text, hc, ht⟩ := h
  · rw [hc]
    rfl
  · rw [hc, loadOptions, ht]

theorem loadResources_of_files {directory : Tree} {files : List (List String × Option String)}
    (ho : directory.Open) (hfiles : InLoadOrder directory files) (hne : files ≠ [])
    (shown : String) :
    loadResources shown (some directory) =
      (files.map fun file => Found.bundle file.1 file.2).foldlM addFound .empty := by
  rw [loadResources, findAt_eq ho hfiles]
  cases files with
  | nil => exact absurd rfl hne
  | cons file rest => rfl

theorem loadResources_of_first {directory : Tree}
    {before after : List (List String × Option String)} {path : List String}
    {text : Option String} {failure : Failure} (ho : directory.Open)
    (hfiles : InLoadOrder directory (before ++ (path, text) :: after))
    (hbefore : ∀ bundle ∈ before, Sources.bundle? bundle.2 ≠ none)
    (hfound : ∀ resources, addFound resources (.bundle path text) = .error failure)
    (shown : String) : loadResources shown (some directory) = .error failure := by
  rw [loadResources_of_files ho hfiles (by simp), List.map_append, List.map_cons]
  exact foldlM_addFound_append hbefore hfound _ _

theorem produce_of_firstFailure {failure : Failure} (hw : sources.Walkable)
    (h : sources.FirstFailure failure) (format : OutputFormat) :
    produce format sources.config sources.shown sources.directory = .error failure := by
  rw [produce]
  cases h with
  | configUnreadable hc => rw [hc]; rfl
  | configInvalid hc ht => rw [hc, loadOptions, ht]; rfl
  | resourcesMissing ho hd => rw [loadOptions_of_configured ho, hd]; rfl
  | bundlesMissing ho hd hb =>
    have hload : loadResources sources.shown sources.directory =
        .error (.bundlesMissing sources.shown) := by
      rw [hd, loadResources, findAt_eq (hw _ hd) hb]
      rfl
    rw [loadOptions_of_configured ho, hload]
    rfl
  | resourcesUnreadable ho hd hb hbefore =>
    rw [loadOptions_of_configured ho, hd,
      loadResources_of_first (hw _ hd) hb hbefore fun _ => rfl]
    rfl
  | bundleInvalid ho hd hb hbefore ht =>
    rw [loadOptions_of_configured ho, hd,
      loadResources_of_first (hw _ hd) hb hbefore fun _ => by rw [addFound, ht]]
    rfl

theorem produce_of_loaded {bundles : List Resources} (hw : sources.Walkable)
    (h : sources.Loaded options bundles) (format : OutputFormat) :
    produce format sources.config sources.shown sources.directory =
      .ok ⟨payload format (compile options (concat bundles)).value,
        (compile options (concat bundles)).notices⟩ := by
  obtain ⟨directory, files, hd, hfiles, hne, hbundles⟩ := h.directory
  have hload : loadResources sources.shown sources.directory = .ok (concat bundles) := by
    rw [hd, loadResources_of_files (hw _ hd) hfiles hne, foldlM_addFound hbundles,
      Record.Resources.empty_append]
  rw [produce, loadOptions_of_configured h.configured, hload]
  rfl

end Produce

structure FailsWith (failure : Failure) (disk : Disk) (run : Outcome × Disk) : Prop where
  exit : run.1.exit = 1
  stdout : run.1.stdout = ""
  stderr : run.1.stderr = "error[" ++ failure.code ++ "]: " ++ failure.message ++ "\n"
  disk : run.2 = disk

def warnings (notices : List Notice) : String :=
  String.join (notices.map fun notice => "warning: " ++ notice.message ++ "\n")

/-- The run prints the rendered tree or writes it to the file that is asked for, and warns of each
notice. Only a file that cannot be written is an error, reported behind the warnings. -/
def Delivers (request : Request) (compiled : Noted Node) (disk : Disk) (run : Outcome × Disk) :
    Prop :=
  let text := payload request.format compiled.value
  match request.out with
  | none =>
    run.1.exit = 0 ∧ run.1.stdout = text ∧ run.1.stderr = warnings compiled.notices ∧ run.2 = disk
  | some path =>
    run.1.stdout = "" ∧ run.2 = (disk.write path text).1 ∧
      if (disk.write path text).2 then run.1.exit = 0 ∧ run.1.stderr = warnings compiled.notices
      else run.1.exit = 1 ∧ run.1.stderr = warnings compiled.notices ++
        (Failure.outputUnwritable path).report

theorem map_warning (notices : List Notice) :
    String.join (notices.map Outcome.warning) = warnings notices := rfl

theorem stderr_of_success (outcome : Outcome) (h : outcome.failure = none) :
    outcome.stderr = warnings outcome.warnings := by
  rw [Outcome.stderr, h, map_warning]
  exact String.append_empty

theorem stderr_failed (notices : List Notice) (failure : Failure) :
    (Outcome.failed notices failure).stderr = warnings notices ++ failure.report := by
  have hreport : String.join [failure.report] = failure.report := by simp [String.join]
  exact congrArg (warnings notices ++ ·) hreport

theorem generate_eq (request : Request) (disk : Disk) :
    generate request disk =
      match produce request.format (request.sources disk).config (request.sources disk).shown
        (request.sources disk).directory with
      | .error failure => (.failed [] failure, disk)
      | .ok product =>
        match request.out with
        | none => (.printed product, disk)
        | some path =>
          match disk.write path product.text with
          | (disk, true) => (.saved product, disk)
          | (disk, false) => (.failed product.warnings (.outputUnwritable path), disk) := by
  unfold generate
  rfl

theorem generate_failsWith {request : Request} {disk : Disk} {failure : Failure}
    (h : produce request.format (request.sources disk).config (request.sources disk).shown
      (request.sources disk).directory = .error failure) :
    FailsWith failure disk (generate request disk) := by
  rw [generate_eq, h]
  exact ⟨rfl, rfl, (stderr_failed [] failure).trans String.empty_append, rfl⟩

theorem generate_delivers {request : Request} {disk : Disk} {compiled : Noted Node}
    (h : produce request.format (request.sources disk).config (request.sources disk).shown
      (request.sources disk).directory =
        .ok ⟨payload request.format compiled.value, compiled.notices⟩) :
    Delivers request compiled disk (generate request disk) := by
  rw [generate_eq, h, Delivers]
  cases request.out with
  | none => exact ⟨rfl, rfl, stderr_of_success _ rfl, rfl⟩
  | some path =>
    simp only
    match hwrite : disk.write path (payload request.format compiled.value) with
    | (written, true) => exact ⟨rfl, rfl, rfl, stderr_of_success _ rfl⟩
    | (written, false) => exact ⟨rfl, rfl, rfl, stderr_failed _ _⟩

/-- A run that finds a flaw reports the first one and does nothing else. Every other run compiles
the bundles of the directory put together in load order, and delivers what that gives. -/
theorem generate_composes (request : Request) (disk : Disk)
    (hw : (request.sources disk).Walkable) :
    ((request.sources disk).Flawed → ∃ failure, (request.sources disk).FirstFailure failure ∧
        FailsWith failure disk (generate request disk)) ∧
      (¬ (request.sources disk).Flawed → ∃ options bundles,
        (request.sources disk).Loaded options bundles ∧
          Delivers request (compile options (concat bundles)) disk (generate request disk)) := by
  constructor
  · intro hflawed
    obtain ⟨failure, hfailure⟩ := hflawed.exists_firstFailure hw
    exact ⟨failure, hfailure, generate_failsWith (produce_of_firstFailure hw hfailure _)⟩
  · intro hsound
    obtain ⟨options, bundles, hloaded⟩ := Sources.exists_loaded hsound hw
    exact ⟨options, bundles, hloaded, generate_delivers (produce_of_loaded hw hloaded _)⟩

def diskOf (resources : Tree) : Disk := ⟨.directory [("res", resources)], [], "/"⟩

def sampleRequest : Request := ⟨"res", none, some "out.json", .json⟩

theorem directory?_diskOf {resources : Tree} {entries : List (String × Disk.Entry)}
    (h : resources.entry = .directory entries) :
    (diskOf resources).directory? "./res" = some resources := by
  have hat : (diskOf resources).root.at? ["res"] = some resources.entry := Disk.Entry.at?_nil
  have hn : Disk.Names (diskOf resources).root.entry [] "res" :=
    ⟨⟨⟨_, rfl⟩, by decide, by decide⟩, by decide⟩
  have hlocate : (diskOf resources).locate "./res" = some (.taken ["res"]) :=
    Disk.locate_eq_some_iff.mpr ⟨by decide, .stay ⟨_, rfl⟩ (.inr rfl) (.down hn (h ▸ hat) .here)⟩
  refine Option.filter_eq_some_iff.mpr
    ⟨Disk.tree?_eq_some_iff.mpr ⟨_, hlocate, hat⟩, ?_⟩
  rw [h]
  rfl

/-- Bundles in and beside a directory of the same name, the first of them ill-formed. -/
def flawedResources : Tree := .directory [
  ("a", .directory [("x.json", .file (some "[[[]]]")), ("y.JSON", .file none)]),
  ("a.json", .file (some "[[[\"Localizable\"]]]")),
  (".json", .file none),
  ("b.json", .leaf (.link "a.json")),
  ("c", .directory [])]

def soundResources : Tree := .directory [
  ("a.json", .file (some "[[[\"Localizable\"]]]")),
  ("a", .directory [
    ("x.json", .file (some "[]")),
    ("deep", .directory [("y.json", .file (some "[[[\"Main\"]]]"))]),
    ("notes.txt", .file none)])]

theorem walkable_diskOf {resources : Tree} {entries : List (String × Disk.Entry)}
    (h : resources.entry = .directory entries) (ho : resources.Open) :
    (sampleRequest.sources (diskOf resources)).Walkable := fun _ hd =>
  Option.some.inj ((directory?_diskOf h).symm.trans hd) ▸ ho

theorem flawedResources_open : flawedResources.Open := by
  have hfile : ∀ text, (Tree.file text).Open := fun _ => Tree.open_leaf nofun
  have hlink : (Tree.leaf (.link "a.json")).Open := Tree.open_leaf nofun
  refine Tree.open_directory ?_
  simp [Tree.open_directory, hfile, hlink]

theorem soundResources_open : soundResources.Open := by
  have hfile : ∀ text, (Tree.file text).Open := fun _ => Tree.open_leaf nofun
  refine Tree.open_directory ?_
  simp [Tree.open_directory, hfile]

def soundBundles : List (List String × Option String) := [
  (["a", "deep", "y.json"], some "[[[\"Main\"]]]"),
  (["a", "x.json"], some "[]"),
  (["a.json"], some "[[[\"Localizable\"]]]")]

theorem soundResources_inLoadOrder : InLoadOrder soundResources soundBundles where
  increasing := by decide
  mem_iff path text := by
    have hbundle : isBundleName "a.json" = true ∧ isBundleName "x.json" = true ∧
        isBundleName "y.json" = true ∧ isBundleName "notes.txt" = false := by decide
    have hentry : soundResources.entry = .directory [
        ("a", .directory [
          ("deep", .directory [("y.json", .file (some "[[[\"Main\"]]]"))]),
          ("notes.txt", .file none),
          ("x.json", .file (some "[]"))]),
        ("a.json", .file (some "[[[\"Localizable\"]]]"))] := rfl
    rw [holdsBundle_iff, hentry]
    simp [mem_findAt_directory, mem_findAt_file, hbundle, or_assoc, soundBundles]

theorem soundResources_not_flawed : ¬ (sampleRequest.sources (diskOf soundResources)).Flawed := by
  have hd : (sampleRequest.sources (diskOf soundResources)).directory = some soundResources :=
    directory?_diskOf rfl
  have hgood : ∀ file ∈ soundBundles, (Sources.bundle? file.2).isSome = true := by decide
  rintro (hc | hc | hnone | ⟨hsome, hb⟩ | ⟨hsome, hb, ht⟩)
  · cases hc
  · cases hc
  · cases hd.symm.trans hnone
  · obtain rfl := Option.some.inj (hd.symm.trans hsome)
    exact hb _ _ ((soundResources_inLoadOrder.mem_iff _ _).mp (List.mem_cons_self ..))
  · obtain rfl := Option.some.inj (hd.symm.trans hsome)
    have hsome := hgood _ ((soundResources_inLoadOrder.mem_iff _ _).mpr hb)
    rw [ht] at hsome
    cases hsome

theorem generate_composes_sample :
    ((sampleRequest.sources (diskOf flawedResources)).Walkable ∧
      (sampleRequest.sources (diskOf flawedResources)).Flawed ∧
      ∃ failure, (sampleRequest.sources (diskOf flawedResources)).FirstFailure failure ∧
        FailsWith failure (diskOf flawedResources)
          (generate sampleRequest (diskOf flawedResources))) ∧
    ((sampleRequest.sources (diskOf soundResources)).Walkable ∧
      ¬ (sampleRequest.sources (diskOf soundResources)).Flawed ∧
      ∃ options bundles, (sampleRequest.sources (diskOf soundResources)).Loaded options bundles ∧
        Delivers sampleRequest (compile options (concat bundles)) (diskOf soundResources)
          (generate sampleRequest (diskOf soundResources))) := by
  constructor
  · have hw := walkable_diskOf rfl flawedResources_open
    have hholds : HoldsBundle flawedResources ["a", "x.json"] (some "[[[]]]") :=
      ⟨rfl, ["a"], "x", by decide, rfl⟩
    have hflawed : (sampleRequest.sources (diskOf flawedResources)).Flawed :=
      .bundle (directory?_diskOf rfl) hholds rfl
    exact ⟨hw, hflawed, (generate_composes sampleRequest _ hw).1 hflawed⟩
  · have hw := walkable_diskOf rfl soundResources_open
    exact ⟨hw, soundResources_not_flawed,
      (generate_composes sampleRequest _ hw).2 soundResources_not_flawed⟩

end Command

end Accessors

import Accessors.Proofs.Command.Generate
import Accessors.Proofs.Command.Payload
import Accessors.Proofs.Disk.Writing

/-!
# Generated trees hold no resources

The JSON of a tree is an object with no member that resources have, so as a bundle it decodes to
nothing. A directory that has grown by such bundles and by directories gives the same resources as
before, in whatever order the new bundles are met. So a run that has succeeded does the same once
more after its own output has been put beside its bundles.
-/

namespace Accessors

open Json

theorem Record.Resources.ofJson_of_unknown {written : List (String × Json)}
    (h : ∀ field ∈ written, field.1 ∉ fieldNames) (room : Nat) :
    ofJson (room + 1) (record written) = some .empty := by
  rw [ofJson, fields?_of_unknown h]
  rfl

namespace Command

open Disk (Entry Tree)
open Disk.Entry (Extends GrownBy)
open Record (Resources)
open Accessors.Symbol (Node)

theorem written_payload (root : Node) : Written root.toJson (payload .json root) := by
  obtain ⟨cs, hcs⟩ := exists_write_object .pretty 0
    (root.fields.map fun field => (some field.1, field.2))
  have hwrite : write .pretty 0 root.toJson = cs ++ ['}'] := by
    rw [Node.toJson_eq]
    exact hcs
  refine ⟨.pretty, ['\n'], Spacing.isBlank_pretty, by decide, ?_⟩
  rw [payload, render, pretty, hwrite, trimEnd_of_not_blank (by decide)]
  exact String.ofList_append.symm

theorem ofText?_of_written {root : Node} {s : String} (h : Written root.toJson s) :
    Resources.ofText? s = some .empty := by
  have hunknown : ∀ name ∈ Node.fieldNames, name ∉ Resources.fieldNames := by decide
  rw [Resources.ofText?, decodeText, read_written root.sound h, Node.toJson_eq]
  exact Resources.ofJson_of_unknown (fun field hf => hunknown _
    (root.keys_fields_sublist.subset (List.mem_map_of_mem hf))) _

def Inert (entry : Entry) : Prop :=
  entry = .directory [] ∨
    ∃ text, entry = .file (some text) ∧ Resources.ofText? text = some .empty

variable {before after : Tree} {shown : String} {resources : Resources}

theorem Found.entry_eq_of_top {found : Found} {entry : Entry}
    (h : entry.top = found.entry.top) : entry = found.entry := by
  cases found <;> cases entry <;> first | exact h | cases h

theorem filter_findAt_of_grownBy {allowed : Entry → Prop}
    (h : GrownBy allowed before.entry after.entry) :
    (findAt [] after.entry).filter (fun found => (before.at? found.path).isSome) =
      findAt [] before.entry := by
  refine eq_of_pairwise_of_mem_iff (fun a b => List.lt_asymm)
    ((pairwise_findAt after.distinct []).filter _) (pairwise_findAt before.distinct [])
    fun found => ?_
  simp only [List.mem_filter, mem_findAt after.distinct, mem_findAt before.distinct,
    List.nil_append, exists_eq_left', Option.isSome_iff_exists]
  constructor
  · rintro ⟨⟨hafter, hnamed⟩, entry, hbefore⟩
    obtain ⟨later, hlater, htop⟩ := h.kept _ _ hbefore
    obtain rfl := Option.some.inj (hlater.symm.trans hafter)
    obtain rfl := Found.entry_eq_of_top htop.symm
    exact ⟨hbefore, hnamed⟩
  · rintro ⟨hbefore, hnamed⟩
    obtain ⟨later, hlater, htop⟩ := h.kept _ _ hbefore
    obtain rfl := Found.entry_eq_of_top htop
    exact ⟨⟨hlater, hnamed⟩, _, hbefore⟩

theorem addFound_of_inert {found : Found} (h : Inert found.entry.top) (resources : Resources) :
    addFound resources found = .ok resources := by
  cases found with
  | sealed path =>
    rcases h with h | ⟨text, h, -⟩ <;> cases h
  | bundle path text =>
    rcases h with h | ⟨text, h, htext⟩
    · cases h
    · obtain rfl := Entry.file.inj h
      rw [addFound, htext]
      exact congrArg Except.ok (Resources.append_empty resources)

def foundIn (directory : Option Tree) : Option (List Found) :=
  directory.map fun directory => findAt [] directory.entry

theorem loadResources_eq_ok_iff {directory : Option Tree} :
    loadResources shown directory = .ok resources ↔
      ∃ found, foundIn directory = some found ∧ found ≠ [] ∧
        found.foldlM addFound .empty = .ok resources := by
  cases directory with
  | none => simp [loadResources, foundIn]
  | some directory =>
    rw [loadResources, foundIn, Option.map_some]
    cases findAt [] directory.entry with
    | nil => simp
    | cons found rest => simp

theorem loadResources_of_grownBy (h : GrownBy Inert before.entry after.entry)
    (hload : loadResources shown (some before) = .ok resources) :
    loadResources shown (some after) = .ok resources := by
  obtain ⟨found, hfound, hne, hfold⟩ := loadResources_eq_ok_iff.mp hload
  obtain rfl : findAt [] before.entry = found := Option.some.inj hfound
  have hfilter := filter_findAt_of_grownBy h
  have hneutral : ∀ found ∈ findAt [] after.entry, (before.at? found.path).isSome = false →
      ∀ resources, addFound resources found = .ok resources := fun found hf hnone resources => by
    obtain ⟨below, rfl, hat, -⟩ := (mem_findAt after.distinct).mp hf
    have hbefore : before.at? found.path = none := by simpa using hnone
    exact addFound_of_inert (h.added _ _ hbefore hat) resources
  refine loadResources_eq_ok_iff.mpr ⟨_, rfl, fun hnil => hne ?_, ?_⟩
  · have hnil : findAt [] after.entry = [] := hnil
    rw [← hfilter, hnil]
    rfl
  · rw [← foldlM_filter_of_neutral hneutral, hfilter]
    exact hfold

def Sources.product (sources : Sources) (format : OutputFormat) : Except Failure Product :=
  produce format sources.config sources.shown sources.directory

variable {request : Request} {disk later : Disk} {root : Tree} {format : OutputFormat}
  {product : Product} {path : String}

theorem product_eq_ok_iff {sources : Sources} :
    sources.product format = .ok product ↔ ∃ options resources,
      loadOptions sources.config = .ok options ∧
        loadResources sources.shown sources.directory = .ok resources ∧
        product = ⟨payload format (compile options resources).value,
          (compile options resources).notices⟩ := by
  rw [Sources.product, produce, bind_eq_ok_iff]
  simp only [bind_eq_ok_iff]
  constructor
  · rintro ⟨options, ho, resources, hr, hp⟩
    exact ⟨options, resources, ho, hr, (Except.ok.inj hp).symm⟩
  · rintro ⟨options, resources, ho, hr, rfl⟩
    exact ⟨options, ho, resources, hr, rfl⟩

theorem loadOptions_of_extends {options : Options}
    (he : Extends Entry.top disk.root.entry root.entry)
    (h : loadOptions (request.sources disk).config = .ok options) :
    loadOptions (request.sources { disk with root }).config = .ok options := by
  unfold Request.sources at h ⊢
  cases hconfig : request.config with
  | none =>
    rw [hconfig] at h
    exact h
  | some path =>
    rw [hconfig] at h
    cases hread : disk.read? path with
    | none =>
      simp only [Option.map_some, hread] at h
      cases h
    | some text =>
      simp only [Option.map_some, hread] at h
      simp only [Option.map_some, Disk.read?_of_extends he hread]
      exact h

theorem product_of_grownBy (h : GrownBy Inert disk.root.entry root.entry)
    (hp : (request.sources disk).product format = .ok product) :
    (request.sources { disk with root }).product format = .ok product := by
  obtain ⟨options, resources, ho, hload, hproduct⟩ := product_eq_ok_iff.mp hp
  refine product_eq_ok_iff.mpr
    ⟨options, resources, loadOptions_of_extends h.kept ho, ?_, hproduct⟩
  cases hdirectory : (request.sources disk).directory with
  | none =>
    rw [hdirectory] at hload
    cases hload
  | some directory =>
    obtain ⟨way, later, hlater, hbefore, hafter⟩ :=
      Disk.exists_directory?_of_extends h.kept hdirectory
    have hload : loadResources (request.sources disk).shown (some directory) = .ok resources :=
      hdirectory ▸ hload
    have hagain := loadResources_of_grownBy (h.at? hbefore hafter) hload
    have hsome : (request.sources { disk with root }).directory = some later := hlater
    rw [hsome]
    exact hagain

def Request.reads (request : Request) (disk : Disk) :
    Option (String × Option String) × Option (List Found) :=
  ((request.sources disk).config, foundIn (request.sources disk).directory)

theorem product_of_reads (h : request.reads later = request.reads disk)
    (hp : (request.sources disk).product format = .ok product) :
    (request.sources later).product format = .ok product := by
  obtain ⟨hconfig, hfound⟩ := Prod.mk.inj h
  obtain ⟨options, resources, ho, hload, hproduct⟩ := product_eq_ok_iff.mp hp
  refine product_eq_ok_iff.mpr ⟨options, resources, hconfig ▸ ho, ?_, hproduct⟩
  rw [loadResources_eq_ok_iff] at hload ⊢
  rw [hfound]
  exact hload

theorem generate_eq_printed (hp : (request.sources disk).product request.format = .ok product)
    (hout : request.out = none) : generate request disk = (.printed product, disk) := by
  rw [Sources.product] at hp
  rw [generate_eq, hp, hout]

theorem generate_eq_saved (hp : (request.sources disk).product request.format = .ok product)
    (hout : request.out = some path) (hw : disk.write path product.text = (later, true)) :
    generate request disk = (.saved product, later) := by
  rw [Sources.product] at hp
  rw [generate_eq, hp, hout]
  simp only [hw]

theorem exists_product_of_exit (h : (generate request disk).1.exit = 0) :
    ∃ product, (request.sources disk).product request.format = .ok product ∧
      ((request.out = none ∧ generate request disk = (.printed product, disk)) ∨
        ∃ path later, request.out = some path ∧
          disk.write path product.text = (later, true) ∧
          generate request disk = (.saved product, later)) := by
  cases hp : (request.sources disk).product request.format with
  | error failure =>
    rw [Sources.product] at hp
    rw [generate_eq, hp] at h
    cases h
  | ok product =>
    refine ⟨product, rfl, ?_⟩
    cases hout : request.out with
    | none => exact .inl ⟨rfl, generate_eq_printed hp hout⟩
    | some path =>
      match hw : disk.write path product.text with
      | (later, true) => exact .inr ⟨path, later, rfl, hw, generate_eq_saved hp hout hw⟩
      | (later, false) =>
        rw [Sources.product] at hp
        rw [generate_eq, hp, hout] at h
        simp only [hw] at h
        cases h

def delivered (request : Request) (run : Outcome × Disk) : Option String :=
  match request.out with
  | none => some run.1.stdout
  | some path => run.2.read? path

/-- The JSON of the tree that a request compiles, as it is printed if that is asked for. -/
def jsonOf (request : Request) (disk : Disk) : String :=
  (generate { request with out := none, format := .json } disk).1.stdout

/-- On the later disk the request has the same outcome as before. It delivers the same text again
and leaves that disk as it is. -/
structure Repeats (request : Request) (disk later : Disk) : Prop where
  outcome : (generate request later).1 = (generate request disk).1
  unchanged : (generate request later).2 = later
  delivered : ∃ text, delivered request (generate request disk) = some text ∧
    delivered request (generate request later) = some text

theorem repeats_of_product (hexit : (generate request disk).1.exit = 0)
    (he : Extends Entry.top (generate request disk).2.root.entry root.entry)
    (hlater : later = { (generate request disk).2 with root })
    (hp : ∀ product, (request.sources disk).product request.format = .ok product →
      (request.sources later).product request.format = .ok product) :
    Repeats request disk later := by
  obtain ⟨product, hproduct, ⟨hout, hrun⟩ | ⟨path, written, hout, hw, hrun⟩⟩ :=
    exists_product_of_exit hexit
  · have hagain := generate_eq_printed (hp product hproduct) hout
    have hdelivered : ∀ disk, delivered request (Outcome.printed product, disk) =
        some product.text := fun disk => by rw [delivered, hout]; rfl
    refine ⟨by rw [hrun, hagain], by rw [hagain], product.text, ?_, ?_⟩
    · rw [hrun, hdelivered]
    · rw [hagain, hdelivered]
  · rw [hrun] at he hlater
    have hwrite : later.write path product.text = (later, true) :=
      hlater ▸ Disk.write_again hw he
    have hagain := generate_eq_saved (hp product hproduct) hout hwrite
    have hdelivered : ∀ disk : Disk, disk.read? path = some product.text →
        delivered request (Outcome.saved product, disk) = some product.text :=
      fun disk hread => by rw [delivered, hout]; exact hread
    have hread := Disk.read?_of_write hw
    refine ⟨by rw [hrun, hagain], by rw [hagain], product.text, ?_, ?_⟩
    · rw [hrun, hdelivered written hread]
    · rw [hagain, hdelivered later (hlater ▸ Disk.read?_of_extends he hread)]

theorem ofText?_jsonOf (hexit : (generate request disk).1.exit = 0) :
    Resources.ofText? (jsonOf request disk) = some .empty := by
  obtain ⟨product, hproduct, -⟩ := exists_product_of_exit hexit
  obtain ⟨options, resources, ho, hr, -⟩ := product_eq_ok_iff.mp hproduct
  have hprinted : generate { request with out := none, format := .json } disk =
      (.printed ⟨payload .json (compile options resources).value,
        (compile options resources).notices⟩, disk) :=
    generate_eq_printed (product_eq_ok_iff.mpr ⟨options, resources, ho, hr, rfl⟩) rfl
  rw [jsonOf, hprinted]
  exact ofText?_of_written (written_payload _)

/-- The run does not write over what it reads: that is as it was before, or the output is JSON in a
file that was not there. -/
def Spares (request : Request) (disk : Disk) : Prop :=
  request.reads (generate request disk).2 = request.reads disk ∨
    request.format = .json ∧ ∀ path, request.out = some path →
      ∀ way, (generate request disk).2.locate path = some (.taken way) → disk.root.at? way = none

theorem spares_of_out_eq_none (hout : request.out = none) : Spares request disk := by
  refine .inl ?_
  rw [generate_eq, hout]
  split <;> rfl

theorem product_of_spares (hexit : (generate request disk).1.exit = 0)
    (hspares : Spares request disk)
    (hp : (request.sources disk).product request.format = .ok product) :
    (request.sources (generate request disk).2).product request.format = .ok product := by
  rcases hspares with hreads | ⟨hformat, hnew⟩
  · exact product_of_reads hreads hp
  obtain ⟨written, hwritten, ⟨-, hrun⟩ | ⟨path, later, hout, hw, hrun⟩⟩ :=
    exists_product_of_exit hexit
  · rw [hrun]
    exact hp
  have hnew := hnew path hout
  rw [hrun] at hnew ⊢
  obtain ⟨options, resources, -, -, rfl⟩ := product_eq_ok_iff.mp hwritten
  have hinert : ∀ entry, entry = .directory [] ∨ entry = .file (some (payload request.format
      (compile options resources).value)) → Inert entry := by
    rintro entry (rfl | rfl)
    · exact .inl rfl
    · exact .inr ⟨_, rfl, hformat ▸ ofText?_of_written (written_payload _)⟩
  rw [Disk.eq_of_write hw]
  exact product_of_grownBy ((Disk.grownBy_of_write hw hnew).mono hinert) hp

/-- A generated tree holds no resources, however deep it is and in whatever layout it is written.
So a request that has succeeded and spared what it reads has the same outcome and delivers the same
text when it is made again, be it right afterwards, with the JSON of the tree where the request has
written it, or after this JSON has been put into a new file, inside the directory of the resources
or elsewhere. -/
theorem generate_inert :
    (∀ (root : Node) (s : String), Written root.toJson s →
        Resources.ofText? s = some .empty) ∧
      ∀ (request : Request) (disk : Disk), (generate request disk).1.exit = 0 →
        Spares request disk → Repeats request disk (generate request disk).2 ∧
          ∀ way later, (generate request disk).2.Adds way (jsonOf request disk) later →
            Repeats request disk later := by
  refine ⟨fun _ _ => ofText?_of_written, fun request disk hexit hspares => ⟨?_, ?_⟩⟩
  · exact repeats_of_product hexit (.refl _ _) rfl fun product hp =>
      product_of_spares hexit hspares hp
  · rintro way later ⟨hnone, root, hput, rfl⟩
    have hgrown : GrownBy Inert (generate request disk).2.root.entry root.entry :=
      .put (.inr ⟨_, rfl, ofText?_jsonOf hexit⟩) hput hnone
    exact repeats_of_product hexit hgrown.kept rfl fun product hp =>
      product_of_grownBy hgrown (product_of_spares hexit hspares hp)

def bundleDisk : Disk := diskOf (.directory [("a.json", .file (some "\x7b\x7d"))])

def bundleDiskWith (text : String) : Disk :=
  diskOf (.directory [("a.json", .file (some "\x7b\x7d")), ("out.json", .file (some text))])

def printRequest : Request := ⟨"res", none, none, .json⟩

def saveRequest : Request := ⟨"res", none, some "res/out.json", .json⟩

theorem bundleDisk_names : Disk.Names bundleDisk.root.entry [] "res" :=
  ⟨⟨⟨_, rfl⟩, by decide, by decide⟩, by decide⟩

theorem bundleDisk_product :
    ∃ product, (printRequest.sources bundleDisk).product .json = .ok product := by
  have hfound : foundIn (bundleDisk.directory? "./res") =
      some [.bundle ["a.json"] (some "\x7b\x7d")] := by
    have hname : isBundleName "a.json" = true := by decide
    rw [bundleDisk, directory?_diskOf rfl, foundIn, Option.map_some]
    show some (findAt [] (.directory [("a.json", .file (some "\x7b\x7d"))])) = _
    simp [findAt, findBelow, inOrder, hname]
  have hempty : Resources.ofText? "\x7b\x7d" = some .empty := by decide
  have hload : loadResources (printRequest.sources bundleDisk).shown
      (printRequest.sources bundleDisk).directory = .ok .empty := by
    refine loadResources_eq_ok_iff.mpr ⟨_, hfound, List.cons_ne_nil _ _, ?_⟩
    simp only [List.foldlM_cons, List.foldlM_nil, addFound, hempty]
    rfl
  exact ⟨_, product_eq_ok_iff.mpr ⟨.default, .empty, rfl, hload, rfl⟩⟩

theorem bundleDisk_writable :
    bundleDisk.writablePlace? "res/out.json" = some ["res", "out.json"] := by
  have hin : Disk.Names bundleDisk.root.entry ["res"] "out.json" :=
    ⟨⟨⟨_, rfl⟩, by decide, by decide⟩, by decide⟩
  exact Disk.writablePlace?_eq_some_iff.mpr (.inr (Disk.locate_eq_some_iff.mpr
    ⟨by decide, .down bundleDisk_names rfl (.free hin rfl)⟩))

theorem bundleDisk_put (text : String) :
    Entry.put (.file (some text)) ["res", "out.json"] bundleDisk.root =
      some (bundleDiskWith text).root := by
  have hlt : ¬ "out.json" < "a.json" := by decide
  have hentry : (bundleDiskWith text).root.entry = .directory [("res", .directory
      [("a.json", .file (some "\x7b\x7d")), ("out.json", .file (some text))])] := by
    simp [bundleDiskWith, diskOf, Tree.directory, Tree.file, Tree.leaf, Entry.top, collectEntries,
      insertEntry, hlt]
  rw [Entry.put_eq_some_iff, hentry]
  rfl

theorem bundleDisk_write (text : String) :
    bundleDisk.write "res/out.json" text = (bundleDiskWith text, true) := by
  have hres : Disk.follow bundleDisk.root.entry Disk.linkLimit [] ["res"] = some (.taken ["res"]) :=
    Disk.follow_of_leads (.down bundleDisk_names rfl .here)
  have hmade : Disk.makeDirectories bundleDisk.root [] ["res"] = (bundleDisk.root, true) :=
    Disk.makeDirectories_there bundleDisk_names.toOnward rfl hres []
  exact Disk.write_eq_true_iff.mpr ⟨by decide, bundleDisk.root, ["res", "out.json"], _, hmade,
    bundleDisk_writable, bundleDisk_put text, rfl⟩

theorem generate_inert_sample :
    (∃ later, (generate printRequest bundleDisk).2.Adds ["res", "out.json"]
        (jsonOf printRequest bundleDisk) later ∧ Repeats printRequest bundleDisk later) ∧
      Repeats saveRequest bundleDisk (generate saveRequest bundleDisk).2 := by
  obtain ⟨product, hproduct⟩ := bundleDisk_product
  constructor
  · have hrun : generate printRequest bundleDisk = (.printed product, bundleDisk) :=
      generate_eq_printed hproduct rfl
    have hexit : (generate printRequest bundleDisk).1.exit = 0 := by rw [hrun]; rfl
    have hspares : Spares printRequest bundleDisk := spares_of_out_eq_none rfl
    have hadds : (generate printRequest bundleDisk).2.Adds ["res", "out.json"]
        (jsonOf printRequest bundleDisk) (bundleDiskWith (jsonOf printRequest bundleDisk)) := by
      rw [hrun]
      exact ⟨rfl, _, bundleDisk_put _, rfl⟩
    exact ⟨_, hadds, (generate_inert.2 _ _ hexit hspares).2 _ _ hadds⟩
  · have hrun : generate saveRequest bundleDisk = (.saved product, bundleDiskWith product.text) :=
      generate_eq_saved hproduct rfl (bundleDisk_write _)
    have hexit : (generate saveRequest bundleDisk).1.exit = 0 := by rw [hrun]; rfl
    have hspares : Spares saveRequest bundleDisk := .inr ⟨rfl, fun path hout way hl => by
      obtain rfl : "res/out.json" = path := Option.some.inj hout
      rw [hrun] at hl
      have hplace : (bundleDiskWith product.text).locate "res/out.json" =
          some (.taken ["res", "out.json"]) :=
        Disk.locate_of_put bundleDisk_writable (bundleDisk_put _)
      obtain rfl := Disk.Place.taken.inj (Option.some.inj (hplace.symm.trans hl))
      rfl⟩
    exact (generate_inert.2 _ _ hexit hspares).1

end Command

end Accessors

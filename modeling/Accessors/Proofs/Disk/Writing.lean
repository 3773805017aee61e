import Accessors.Proofs.Disk.Following

/-!
# Writing again

Writing a file makes the directories on its way and puts the file where the path leads. In a tree
that has grown since, the directories are there, the path leads to the file, and writing the same
text changes nothing.
-/

namespace Accessors.Disk

open Entry (Extends GrownBy)

inductive Making (root : Tree) (here : List String) (step : String) : Prop
  | blocked (h : ∀ rest, makeDirectories root here (step :: rest) = (root, false))
  | up (hd : HasDirectory root.entry here) (hs : step = "..")
  | made {grown} (ho : Onward root.entry here step) (hnone : root.at? (here ++ [step]) = none)
      (hput : Entry.put (.directory []) (here ++ [step]) root = some grown)
  | there {place found} (ho : Onward root.entry here step)
      (hat : root.at? (here ++ [step]) = some found)
      (hf : follow root.entry linkLimit here [step] = some (.taken place))

variable {root grown made after : Tree} {here place steps : List String} {step : String}
  {found : Entry}

theorem makeDirectories_up (hd : HasDirectory root.entry here) (rest : List String) :
    makeDirectories root here (".." :: rest) = makeDirectories root here.dropLast rest := by
  obtain ⟨entries, hhere⟩ := hd
  rw [makeDirectories, Tree.at?, hhere]
  simp only [if_true]

theorem makeDirectories_onward (ho : Onward root.entry here step) (rest : List String) :
    makeDirectories root here (step :: rest) =
      match root.at? (here ++ [step]) with
      | none =>
        match Entry.put (.directory []) (here ++ [step]) root with
        | some grown => makeDirectories grown (here ++ [step]) rest
        | none => (root, false)
      | some _ =>
        match follow root.entry linkLimit here [step] with
        | some (.taken place) => makeDirectories root place rest
        | _ => (root, false) := by
  obtain ⟨entries, hhere⟩ := ho.directory
  rw [makeDirectories, Tree.at?, Tree.at?, hhere, Entry.at?_concat hhere]
  exact (if_neg ho.up).trans (if_neg ho.short)

theorem makeDirectories_made (ho : Onward root.entry here step)
    (hnone : root.at? (here ++ [step]) = none)
    (hput : Entry.put (.directory []) (here ++ [step]) root = some grown) (rest : List String) :
    makeDirectories root here (step :: rest) = makeDirectories grown (here ++ [step]) rest := by
  rw [makeDirectories_onward ho, hnone, hput]

theorem makeDirectories_there (ho : Onward root.entry here step)
    (hat : root.at? (here ++ [step]) = some found)
    (hf : follow root.entry linkLimit here [step] = some (.taken place)) (rest : List String) :
    makeDirectories root here (step :: rest) = makeDirectories root place rest := by
  rw [makeDirectories_onward ho, hat, hf]

theorem makeDirectories_of_not_hasDirectory (hd : ¬ HasDirectory root.entry here)
    (rest : List String) : makeDirectories root here (step :: rest) = (root, false) := by
  rw [makeDirectories]
  split
  · next entries hhere => exact absurd ⟨entries, hhere⟩ hd
  · rfl

theorem makeDirectories_of_long (hup : step ≠ "..") (hlong : nameLimit < step.utf8ByteSize)
    (rest : List String) : makeDirectories root here (step :: rest) = (root, false) := by
  rw [makeDirectories]
  split
  · simp only [if_neg hup, if_pos hlong]
  · rfl

theorem exists_making (root : Tree) (here : List String) (step : String) :
    Making root here step := by
  by_cases hd : ¬ HasDirectory root.entry here
  · exact .blocked (makeDirectories_of_not_hasDirectory hd)
  replace hd := Classical.not_not.mp hd
  by_cases hup : step = ".."
  · exact .up hd hup
  by_cases hlong : nameLimit < step.utf8ByteSize
  · exact .blocked (makeDirectories_of_long hup hlong)
  have ho : Onward root.entry here step := ⟨hd, hup, hlong⟩
  cases hat : root.at? (here ++ [step]) with
  | none =>
    cases hput : Entry.put (.directory []) (here ++ [step]) root with
    | none => exact .blocked fun rest => by rw [makeDirectories_onward ho, hat, hput]
    | some grown => exact .made ho hat hput
  | some found =>
    match hf : follow root.entry linkLimit here [step] with
    | some (.taken place) => exact .there ho hat hf
    | some (.free place) => exact .blocked fun rest => by rw [makeDirectories_onward ho, hat, hf]
    | none => exact .blocked fun rest => by rw [makeDirectories_onward ho, hat, hf]

theorem makeDirectories_grows (root : Tree) (here steps : List String) :
    GrownBy (· = .directory []) root.entry (makeDirectories root here steps).1.entry := by
  induction steps generalizing root here with
  | nil => exact .refl _ _
  | cons step rest ih =>
    cases exists_making root here step with
    | blocked h => exact (h rest).symm ▸ .refl _ _
    | up hd hs =>
      subst hs
      exact (makeDirectories_up hd rest).symm ▸ ih root here.dropLast
    | made ho hnone hput =>
      have hgrown : GrownBy (· = .directory []) root.entry _ := .put rfl hput hnone
      rw [makeDirectories_made ho hnone hput]
      exact hgrown.trans (ih _ _)
    | there ho hat hf => exact (makeDirectories_there ho hat hf rest).symm ▸ ih root _

theorem extends_of_made (hm : makeDirectories root here steps = (made, true))
    (he : Extends Entry.shape made.entry after.entry) :
    Extends Entry.shape root.entry after.entry := by
  have hgrown := (makeDirectories_grows root here steps).kept.shape
  rw [hm] at hgrown
  exact hgrown.trans he

/-- Where all directories of a way have been made, none is made again. -/
theorem makeDirectories_again (hm : makeDirectories root here steps = (made, true))
    (hproper : ∀ step ∈ steps, ¬ (step = "" ∨ step = "."))
    (he : Extends Entry.shape made.entry after.entry) :
    makeDirectories after here steps = (after, true) := by
  induction steps generalizing root here with
  | nil => rfl
  | cons step rest ih =>
    obtain ⟨hstep, hrest⟩ := List.forall_mem_cons.mp hproper
    have hgrown := extends_of_made hm he
    cases exists_making root here step with
    | blocked h => cases (h rest).symm.trans hm
    | up hd hs =>
      subst hs
      rw [makeDirectories_up (hd.of_extends hgrown)]
      exact ih ((makeDirectories_up hd rest).symm.trans hm) hrest
    | made ho hnone hput =>
      have hm := (makeDirectories_made ho hnone hput rest).symm.trans hm
      have hn : Names after.entry here step := ⟨ho.of_extends hgrown, hstep⟩
      -- The directory that was made is a step down now.
      obtain ⟨later, hlater⟩ := (extends_of_made hm he).exists_directory (Entry.at?_put hput)
      rw [makeDirectories_there hn.toOnward hlater (follow_of_leads (.down hn hlater .here))]
      exact ih hm hrest
    | there ho hat hf =>
      obtain ⟨later, hlater, -⟩ := hgrown _ _ hat
      have hfollow := follow_of_leads ((leads_of_follow hf).of_extends hgrown nofun)
      rw [makeDirectories_there (ho.of_extends hgrown) hlater hfollow]
      exact ih ((makeDirectories_there ho hat hf rest).symm.trans hm) hrest

variable {disk written : Disk} {path text : String} {way : List String}

theorem writablePlace?_eq_some_iff :
    disk.writablePlace? path = some way ↔
      (disk.locate path = some (.taken way) ∧ ∃ held, disk.root.at? way = some (.file held)) ∨
        disk.locate path = some (.free way) := by
  unfold writablePlace?
  cases disk.locate path with
  | none => simp
  | some place =>
    cases place with
    | free other => simp
    | taken other =>
      constructor
      · intro h
        dsimp only at h
        split at h
        · next held hat =>
          obtain rfl := Option.some.inj h
          exact .inl ⟨rfl, held, hat⟩
        · cases h
      · rintro (⟨hplace, held, hat⟩ | hplace)
        · obtain rfl := Place.taken.inj (Option.some.inj hplace)
          simp only [hat]
        · cases hplace

theorem write_eq_true_iff :
    disk.write path text = (written, true) ↔
      isPath path = true ∧ ∃ made way root,
        makeDirectories disk.root (disk.start path) (parentSteps path) = (made, true) ∧
          ({ disk with root := made } : Disk).writablePlace? path = some way ∧
          Entry.put (.file (some text)) way made = some root ∧ written = { disk with root } := by
  constructor
  · intro h
    unfold write at h
    split at h
    · next hp =>
      split at h
      · cases h
      · next made hmade =>
        dsimp only at h
        split at h
        · next root hput =>
          obtain ⟨way, hplace, hput⟩ := Option.bind_eq_some_iff.mp hput
          exact ⟨hp, made, way, root, hmade, hplace, hput, (Prod.mk.inj h).1.symm⟩
        · cases h
    · cases h
  · rintro ⟨hp, made, way, root, hmade, hplace, hput, rfl⟩
    simp only [write, hp, if_true, hmade, hplace, Option.bind_some, hput]

theorem at?_of_writablePlace? (h : disk.writablePlace? path = some way) :
    disk.root.at? way = none ∨ ∃ held, disk.root.at? way = some (.file held) := by
  rcases writablePlace?_eq_some_iff.mp h with ⟨-, hfile⟩ | hfree
  · exact .inr hfile
  · exact .inl (at?_of_leads_free (locate_eq_some_iff.mp hfree).2)

theorem eq_of_write (hw : disk.write path text = (written, true)) :
    written = { disk with root := written.root } := by
  obtain ⟨-, made, way, root, -, -, -, rfl⟩ := write_eq_true_iff.mp hw
  rfl

theorem locate_of_put (hw : disk.writablePlace? path = some way)
    (hput : Entry.put (.file (some text)) way disk.root = some root) :
    ({ disk with root } : Disk).locate path = some (.taken way) := by
  have he := Entry.extends_put_file hput (at?_of_writablePlace? hw)
  rcases writablePlace?_eq_some_iff.mp hw with ⟨hl, -⟩ | hl
  · exact locate_of_extends he hl nofun
  · exact locate_of_extends he hl fun other ho => ⟨_, Place.free.inj ho ▸ Entry.at?_put hput⟩

theorem read?_of_write (hw : disk.write path text = (written, true)) :
    written.read? path = some text := by
  obtain ⟨-, made, way, root, -, hplace, hput, rfl⟩ := write_eq_true_iff.mp hw
  have hlocate := locate_of_put hplace hput
  exact read?_eq_some_iff.mpr ⟨way, hlocate, Entry.at?_put hput⟩

theorem parentSteps_proper (path : String) :
    ∀ step ∈ parentSteps path, ¬ (step = "" ∨ step = ".") := by
  intro step hs
  have hkept := (List.mem_filter.mp (List.dropLast_subset _ hs)).2
  rintro (rfl | rfl) <;> exact absurd hkept (by decide)

/-- Writing the same text again changes nothing, however the tree has grown in the meantime. -/
theorem write_again (hw : disk.write path text = (written, true))
    (he : Extends Entry.top written.root.entry grown.entry) :
    ({ written with root := grown } : Disk).write path text =
      ({ written with root := grown }, true) := by
  obtain ⟨hp, made, way, root, hmade, hplace, hput, rfl⟩ := write_eq_true_iff.mp hw
  have hroot := Entry.extends_put_file hput (at?_of_writablePlace? hplace)
  have hfile : grown.at? way = some (.file (some text)) := he.file (Entry.at?_put hput)
  have hlocate := locate_of_put hplace hput
  have hagain := makeDirectories_again hmade (parentSteps_proper path) (hroot.trans he.shape)
  have hwritable : ({ disk with root := grown } : Disk).writablePlace? path = some way :=
    writablePlace?_eq_some_iff.mpr (.inl ⟨locate_of_extends he.shape hlocate nofun, _, hfile⟩)
  exact write_eq_true_iff.mpr
    ⟨hp, grown, way, grown, hagain, hwritable, Entry.put_eq_self hfile, rfl⟩

theorem grownBy_of_write (hw : disk.write path text = (written, true))
    (hnew : ∀ way, written.locate path = some (.taken way) → disk.root.at? way = none) :
    GrownBy (fun entry => entry = .directory [] ∨ entry = .file (some text))
      disk.root.entry written.root.entry := by
  obtain ⟨-, made, way, root, hmade, hplace, hput, rfl⟩ := write_eq_true_iff.mp hw
  have hgrown := makeDirectories_grows disk.root (disk.start path) (parentSteps path)
  rw [hmade] at hgrown
  have hlocate := locate_of_put hplace hput
  have hnone : made.at? way = none := by
    rcases at?_of_writablePlace? hplace with hnone | ⟨held, hheld⟩
    · exact hnone
    -- A file that was there before would be one of the directories that have been made.
    · cases hgrown.added way _ (hnew way hlocate) hheld
  exact (hgrown.mono fun _ => .inl).trans (.put (.inr rfl) hput hnone)

/-- The second disk is the first with a new file, whose directory was there. -/
def Adds (before : Disk) (path : List String) (text : String) (after : Disk) : Prop :=
  before.root.at? path = none ∧
    ∃ root, Entry.put (.file (some text)) path before.root = some root ∧
      after = { before with root }

end Accessors.Disk

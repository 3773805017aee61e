import Accessors.Disk.Basic
import Accessors.Proofs.Disk.Growth

/-!
# Following a path

A step of a path stays, goes up, goes down into a directory, goes through a link, reaches another
entry or a free name, or leads nowhere. A path that leads to an entry leads to it in every tree that
extends the first, so what could be read of a disk can be read after it has grown.
-/

namespace Accessors.Disk

open Entry (Extends)

def Place.path : Place → List String
  | .taken path => path
  | .free path => path

def HasDirectory (root : Entry) (here : List String) : Prop :=
  ∃ entries, root.at? here = some (.directory entries)

structure Onward (root : Entry) (here : List String) (step : String) : Prop where
  directory : HasDirectory root here
  up : step ≠ ".."
  short : ¬ nameLimit < step.utf8ByteSize

structure Names (root : Entry) (here : List String) (step : String) : Prop
    extends Onward root here step where
  stay : ¬ (step = "" ∨ step = ".")

inductive Turn (root : Entry) (here : List String) (step : String) : Prop
  | astray (h : ∀ links rest, follow root links here (step :: rest) = none)
  | stay (hd : HasDirectory root here) (hs : step = "" ∨ step = ".")
  | up (hd : HasDirectory root here) (hs : step = "..")
  | down {below} (hn : Names root here step)
      (hat : root.at? (here ++ [step]) = some (.directory below))
  | link {target} (hn : Names root here step)
      (hat : root.at? (here ++ [step]) = some (.link target))
  | other {found} (hn : Names root here step) (hat : root.at? (here ++ [step]) = some found)
      (hdir : ∀ entries, found ≠ .directory entries) (hlink : ∀ target, found ≠ .link target)
  | free (hn : Names root here step) (hat : root.at? (here ++ [step]) = none)

/-- The steps of a path lead from a directory to a place, through so many links at most. -/
inductive Leads (root : Entry) : Nat → List String → List String → Place → Prop
  | here {links here} : Leads root links here [] (.taken here)
  | stay {links here step rest place} (hd : HasDirectory root here) (hs : step = "" ∨ step = ".")
      (h : Leads root links here rest place) : Leads root links here (step :: rest) place
  | up {links here rest place} (hd : HasDirectory root here)
      (h : Leads root links here.dropLast rest place) : Leads root links here (".." :: rest) place
  | down {links here step rest place below} (hn : Names root here step)
      (hat : root.at? (here ++ [step]) = some (.directory below))
      (h : Leads root links (here ++ [step]) rest place) :
      Leads root links here (step :: rest) place
  | link {links here step rest place target} (hn : Names root here step)
      (hat : root.at? (here ++ [step]) = some (.link target))
      (h : Leads root links (if isAbsolute target then [] else here) (steps target ++ rest) place) :
      Leads root (links + 1) here (step :: rest) place
  | other {links here step found} (hn : Names root here step)
      (hat : root.at? (here ++ [step]) = some found)
      (hdir : ∀ entries, found ≠ .directory entries) (hlink : ∀ target, found ≠ .link target) :
      Leads root links here [step] (.taken (here ++ [step]))
  | free {links here step} (hn : Names root here step) (hat : root.at? (here ++ [step]) = none) :
      Leads root links here [step] (.free (here ++ [step]))

variable {root before after : Entry} {links : Nat} {here path : List String} {step : String}
  {place : Place}

theorem HasDirectory.of_extends (h : HasDirectory before here)
    (he : Extends Entry.shape before after) : HasDirectory after here := by
  obtain ⟨entries, hhere⟩ := h
  exact he.exists_directory hhere

theorem Onward.of_extends (h : Onward before here step) (he : Extends Entry.shape before after) :
    Onward after here step :=
  { h with directory := h.directory.of_extends he }

theorem Names.of_extends (h : Names before here step) (he : Extends Entry.shape before after) :
    Names after here step :=
  { h with toOnward := h.toOnward.of_extends he }

theorem follow_stay (hd : HasDirectory root here) (hs : step = "" ∨ step = ".")
    (rest : List String) :
    follow root links here (step :: rest) = follow root links here rest := by
  obtain ⟨entries, hhere⟩ := hd
  rw [follow, hhere]
  simp only [if_pos hs]

theorem follow_up (hd : HasDirectory root here) (rest : List String) :
    follow root links here (".." :: rest) = follow root links here.dropLast rest := by
  obtain ⟨entries, hhere⟩ := hd
  have hstay : ¬ (".." = "" ∨ ".." = ".") := by decide
  rw [follow, hhere]
  simp only [if_neg hstay, if_true]

theorem follow_name (hn : Names root here step) (rest : List String) :
    follow root links here (step :: rest) =
      match root.at? (here ++ [step]) with
      | some (.directory _) => follow root links (here ++ [step]) rest
      | some (.link target) =>
        if links = 0 then none
        else follow root (links - 1) (if isAbsolute target then [] else here) (steps target ++ rest)
      | some _ => if rest.isEmpty then some (.taken (here ++ [step])) else none
      | none => if rest.isEmpty then some (.free (here ++ [step])) else none := by
  obtain ⟨entries, hhere⟩ := hn.directory
  rw [follow, hhere, Entry.at?_concat hhere]
  exact (if_neg hn.stay).trans ((if_neg hn.up).trans (if_neg hn.short))

theorem follow_down {below : List (String × Entry)} (hn : Names root here step)
    (hat : root.at? (here ++ [step]) = some (.directory below)) (rest : List String) :
    follow root links here (step :: rest) = follow root links (here ++ [step]) rest := by
  rw [follow_name hn, hat]

theorem follow_link {target : String} (hn : Names root here step)
    (hat : root.at? (here ++ [step]) = some (.link target)) (rest : List String) :
    follow root (links + 1) here (step :: rest) =
      follow root links (if isAbsolute target then [] else here) (steps target ++ rest) := by
  rw [follow_name hn, hat]
  rfl

theorem follow_link_zero {target : String} (hn : Names root here step)
    (hat : root.at? (here ++ [step]) = some (.link target)) (rest : List String) :
    follow root 0 here (step :: rest) = none := by
  rw [follow_name hn, hat]
  rfl

theorem follow_other {found : Entry} (hn : Names root here step)
    (hat : root.at? (here ++ [step]) = some found) (hdir : ∀ entries, found ≠ .directory entries)
    (hlink : ∀ target, found ≠ .link target) (rest : List String) :
    follow root links here (step :: rest) =
      if rest.isEmpty then some (.taken (here ++ [step])) else none := by
  rw [follow_name hn, hat]
  cases found with
  | directory entries => exact absurd rfl (hdir entries)
  | link target => exact absurd rfl (hlink target)
  | _ => rfl

theorem follow_free (hn : Names root here step) (hat : root.at? (here ++ [step]) = none)
    (rest : List String) :
    follow root links here (step :: rest) =
      if rest.isEmpty then some (.free (here ++ [step])) else none := by
  rw [follow_name hn, hat]

theorem follow_of_not_hasDirectory (hd : ¬ HasDirectory root here) (rest : List String) :
    follow root links here (step :: rest) = none := by
  rw [follow]
  split
  · next entries hhere => exact absurd ⟨entries, hhere⟩ hd
  · rfl

theorem follow_of_long (hstay : ¬ (step = "" ∨ step = ".")) (hup : step ≠ "..")
    (hlong : nameLimit < step.utf8ByteSize) (rest : List String) :
    follow root links here (step :: rest) = none := by
  rw [follow]
  split
  · simp only [if_neg hstay, if_neg hup, if_pos hlong]
  · rfl

theorem exists_turn (root : Entry) (here : List String) (step : String) : Turn root here step := by
  by_cases hd : ¬ HasDirectory root here
  · exact .astray fun _ => follow_of_not_hasDirectory hd
  replace hd := Classical.not_not.mp hd
  by_cases hstay : step = "" ∨ step = "."
  · exact .stay hd hstay
  by_cases hup : step = ".."
  · exact .up hd hup
  by_cases hlong : nameLimit < step.utf8ByteSize
  · exact .astray fun _ => follow_of_long hstay hup hlong
  have hn : Names root here step := ⟨⟨hd, hup, hlong⟩, hstay⟩
  cases hat : root.at? (here ++ [step]) with
  | none => exact .free hn hat
  | some found =>
    cases found with
    | directory below => exact .down hn hat
    | link target => exact .link hn hat
    | _ => exact .other hn hat nofun nofun

theorem leads_of_follow {links : Nat} {here path : List String}
    (hf : follow root links here path = some place) : Leads root links here path place := by
  cases path with
  | nil =>
    obtain rfl : Place.taken here = place := by simpa [follow] using hf
    exact .here
  | cons step rest =>
    cases exists_turn root here step with
    | astray h => cases (h links rest).symm.trans hf
    | stay hd hs => exact .stay hd hs (leads_of_follow ((follow_stay hd hs rest).symm.trans hf))
    | up hd hs =>
      subst hs
      exact .up hd (leads_of_follow ((follow_up hd rest).symm.trans hf))
    | down hn hat => exact .down hn hat (leads_of_follow ((follow_down hn hat rest).symm.trans hf))
    | link hn hat =>
      cases links with
      | zero => cases (follow_link_zero hn hat rest).symm.trans hf
      | succ links =>
        exact .link hn hat (leads_of_follow ((follow_link hn hat rest).symm.trans hf))
    | other hn hat hdir hlink =>
      obtain ⟨hrest, hplace⟩ :=
        Option.ite_none_right_eq_some.mp ((follow_other hn hat hdir hlink rest).symm.trans hf)
      obtain rfl := List.isEmpty_iff.mp hrest
      exact Option.some.inj hplace ▸ .other hn hat hdir hlink
    | free hn hat =>
      obtain ⟨hrest, hplace⟩ :=
        Option.ite_none_right_eq_some.mp ((follow_free hn hat rest).symm.trans hf)
      obtain rfl := List.isEmpty_iff.mp hrest
      exact Option.some.inj hplace ▸ .free hn hat
termination_by (links, path.length)

theorem follow_of_leads (h : Leads root links here path place) :
    follow root links here path = some place := by
  induction h with
  | here => simp [follow]
  | stay hd hs _ ih => exact (follow_stay hd hs _).trans ih
  | up hd _ ih => exact (follow_up hd _).trans ih
  | down hn hat _ ih => exact (follow_down hn hat _).trans ih
  | link hn hat _ ih => exact (follow_link hn hat _).trans ih
  | other hn hat hdir hlink => exact follow_other hn hat hdir hlink []
  | free hn hat => exact follow_free hn hat []

theorem follow_eq_some_iff :
    follow root links here path = some place ↔ Leads root links here path place :=
  ⟨leads_of_follow, follow_of_leads⟩

theorem at?_of_leads_free {way : List String} (h : Leads root links here path (.free way)) :
    root.at? way = none := by
  generalize hplace : Place.free way = place at h
  induction h with
  | here => cases hplace
  | stay _ _ _ ih => exact ih hplace
  | up _ _ ih => exact ih hplace
  | down _ _ _ ih => exact ih hplace
  | link _ _ _ ih => exact ih hplace
  | other => cases hplace
  | free _ hat =>
    obtain rfl := Place.free.inj hplace
    exact hat

theorem Leads.of_extends (he : Extends Entry.shape before after)
    (h : Leads before links here path place)
    (hfree : ∀ way, place = .free way → ∃ text, after.at? way = some (.file text)) :
    Leads after links here path (.taken place.path) := by
  induction h with
  | here => exact .here
  | stay hd hs _ ih => exact .stay (hd.of_extends he) hs (ih hfree)
  | up hd _ ih => exact .up (hd.of_extends he) (ih hfree)
  | down hn hat _ ih =>
    obtain ⟨later, hlater⟩ := he.exists_directory hat
    exact .down (hn.of_extends he) hlater (ih hfree)
  | link hn hat _ ih => exact .link (hn.of_extends he) (he.link hat) (ih hfree)
  | other hn hat hdir hlink =>
    obtain ⟨later, hlater, hdir, hlink⟩ := he.exists_other hat hdir hlink
    exact .other (hn.of_extends he) hlater hdir hlink
  | free hn hat =>
    obtain ⟨text, htext⟩ := hfree _ rfl
    exact .other (hn.of_extends he) htext nofun nofun

variable {disk : Disk} {later : Tree} {path text : String}

theorem locate_eq_some_iff :
    disk.locate path = some place ↔ isPath path = true ∧
      Leads disk.root.entry linkLimit (disk.start path) (steps path) place := by
  rw [locate, ← follow_eq_some_iff]
  split
  · next hp => exact ⟨fun h => ⟨hp, h⟩, fun h => h.2⟩
  · next hp => exact ⟨nofun, fun h => absurd h.1 hp⟩

theorem locate_of_extends (he : Extends Entry.shape disk.root.entry later.entry)
    (hl : disk.locate path = some place)
    (hfree : ∀ way, place = .free way → ∃ text, later.at? way = some (.file text)) :
    ({ disk with root := later } : Disk).locate path = some (.taken place.path) := by
  obtain ⟨hp, hleads⟩ := locate_eq_some_iff.mp hl
  exact locate_eq_some_iff.mpr ⟨hp, hleads.of_extends he hfree⟩

theorem tree?_eq_some_iff {tree : Tree} :
    disk.tree? path = some tree ↔
      ∃ way, disk.locate path = some (.taken way) ∧ disk.root.at? way = some tree.entry := by
  rw [tree?]
  constructor
  · intro h
    split at h
    · next way hl => exact ⟨way, hl, Tree.below?_eq_some_iff.mp h⟩
    · cases h
  · rintro ⟨way, hl, hat⟩
    rw [hl]
    exact Tree.below?_eq_some_iff.mpr hat

theorem read?_eq_some_iff :
    disk.read? path = some text ↔
      ∃ way, disk.locate path = some (.taken way) ∧
        disk.root.at? way = some (.file (some text)) := by
  rw [read?]
  constructor
  · intro h
    split at h
    · next held hentry =>
      obtain ⟨tree, htree, hheld⟩ := Option.map_eq_some_iff.mp hentry
      obtain ⟨way, hl, hat⟩ := tree?_eq_some_iff.mp htree
      exact ⟨way, hl, hat.trans (by rw [hheld, h])⟩
    · cases h
  · rintro ⟨way, hl, hat⟩
    have htree : (disk.tree? path).map Tree.entry = some (.file (some text)) := by
      rw [tree?, hl]
      exact (Tree.map_entry_below? way disk.root).trans hat
    rw [htree]

theorem read?_of_extends (he : Extends Entry.top disk.root.entry later.entry)
    (h : disk.read? path = some text) :
    ({ disk with root := later } : Disk).read? path = some text := by
  obtain ⟨way, hl, hat⟩ := read?_eq_some_iff.mp h
  exact read?_eq_some_iff.mpr ⟨way, locate_of_extends he.shape hl nofun, he.file hat⟩

theorem exists_directory?_of_extends {directory : Tree}
    (he : Extends Entry.top disk.root.entry later.entry)
    (h : disk.directory? path = some directory) :
    ∃ way found, ({ disk with root := later } : Disk).directory? path = some found ∧
      disk.root.at? way = some directory.entry ∧ later.at? way = some found.entry := by
  obtain ⟨htree, hdirectory⟩ := Option.filter_eq_some_iff.mp h
  obtain ⟨way, hl, hat⟩ := tree?_eq_some_iff.mp htree
  obtain ⟨entry, hentry, htop⟩ := he way _ hat
  obtain ⟨found, hfound, rfl⟩ :=
    Option.map_eq_some_iff.mp ((Tree.map_entry_below? way later).trans hentry)
  have hlook : found.entry.isDirectory = true := by
    rw [← Entry.isDirectory_top, htop, Entry.isDirectory_top]
    exact hdirectory
  have hlater : ({ disk with root := later } : Disk).tree? path = some found :=
    tree?_eq_some_iff.mpr ⟨way, locate_of_extends he.shape hl nofun, hentry⟩
  exact ⟨way, found, Option.filter_eq_some_iff.mpr ⟨hlater, hlook⟩, hat, hentry⟩

end Accessors.Disk

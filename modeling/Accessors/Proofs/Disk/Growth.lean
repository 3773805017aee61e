import Accessors.Disk.Tree

/-!
# Trees that grow

A tree extends another if it has an entry wherever the other has one, and the two are alike. It has
grown from the other if all else in it is of an allowed kind. Putting an entry where there was none
makes a tree grow, and what stands somewhere already may be put there again without any change.
-/

namespace Accessors.Disk

namespace Entry

variable {new before after entry : Entry} {root grown : Tree} {entries : List (String × Entry)}
  {name : String} {place path below : List String}

theorem exists_of_graft_cons (h : graft new (name :: place) before = some after) :
    ∃ entries inner, before = .directory entries ∧ after = .directory (enter name inner entries) ∧
      (place = [] ∧ inner = new.top ∨
        ∃ held, entries.lookup name = some held ∧ graft new place held = some inner) := by
  cases before with
  | directory entries =>
    cases place with
    | nil => exact ⟨entries, new.top, rfl, (Option.some.inj h).symm, .inl ⟨rfl, rfl⟩⟩
    | cons next place =>
      obtain ⟨inner, hinner, rfl⟩ := Option.map_eq_some_iff.mp h
      obtain ⟨held, hl, hinner⟩ := Option.bind_eq_some_iff.mp hinner
      exact ⟨entries, inner, rfl, rfl, .inr ⟨held, hl, hinner⟩⟩
  | _ => cases place <;> cases h

theorem eq_of_graft_nil (h : graft new [] before = some after) : after = new.top := by
  simpa [graft] using h.symm

theorem graft_directory_cons {held inner : Entry} (hl : entries.lookup name = some held)
    (h : graft new place held = some inner) :
    graft new (name :: place) (.directory entries) =
      some (.directory (enter name inner entries)) := by
  cases place with
  | nil =>
    obtain rfl := eq_of_graft_nil h
    rfl
  | cons next place =>
    show ((entries.lookup name).bind _).map _ = _
    rw [hl, Option.bind_some, h]
    rfl

theorem at?_graft_append (h : graft new place before = some after) (below : List String) :
    after.at? (place ++ below) = new.top.at? below := by
  induction place generalizing before after with
  | nil =>
    obtain rfl := eq_of_graft_nil h
    rfl
  | cons name place ih =>
    obtain ⟨entries, inner, rfl, rfl, ⟨rfl, rfl⟩ | ⟨held, -, hinner⟩⟩ := exists_of_graft_cons h
    · rw [List.singleton_append, at?_directory, lookup_enter, if_pos rfl]
      rfl
    · rw [List.cons_append, at?_directory, lookup_enter, if_pos rfl]
      exact ih hinner

theorem at?_put_append (h : put new place root = some grown) (below : List String) :
    grown.at? (place ++ below) = new.top.at? below :=
  at?_graft_append (put_eq_some_iff.mp h) below

theorem at?_put (h : put new place root = some grown) : grown.at? place = some new.top := by
  have hat := at?_put_append h []
  rwa [List.append_nil, at?_nil] at hat

theorem at?_graft_of_not_isPrefix (h : graft new place before = some after)
    (hn : ¬ place <+: path) : (after.at? path).map top = (before.at? path).map top := by
  induction place generalizing before after path with
  | nil => exact absurd List.nil_prefix hn
  | cons name place ih =>
    obtain ⟨entries, inner, rfl, rfl, hinner⟩ := exists_of_graft_cons h
    cases path with
    | nil => rfl
    | cons step path =>
      rw [at?_directory, at?_directory, lookup_enter]
      by_cases hstep : step = name
      · subst hstep
        rw [List.cons_prefix_cons, not_and] at hn
        rcases hinner with ⟨rfl, -⟩ | ⟨held, hl, hinner⟩
        · exact absurd List.nil_prefix (hn rfl)
        · rw [if_pos rfl, hl]
          exact ih hinner (hn rfl)
      · rw [if_neg hstep]

theorem at?_put_of_not_isPrefix (h : put new place root = some grown) (hn : ¬ place <+: path) :
    (grown.at? path).map top = (root.at? path).map top :=
  at?_graft_of_not_isPrefix (put_eq_some_iff.mp h) hn

theorem graft_eq_self (h : before.at? place = some entry.top) :
    graft entry place before = some before := by
  induction place generalizing before with
  | nil =>
    obtain rfl : before = entry.top := Option.some.inj (at?_nil.symm.trans h)
    simp [graft]
  | cons name place ih =>
    obtain ⟨entries, rfl⟩ := exists_directory_of_at? h
    obtain ⟨held, hl, hat⟩ := Option.bind_eq_some_iff.mp h
    rw [graft_directory_cons hl (ih hat), enter_eq_self hl]

theorem put_eq_self (h : root.at? place = some entry.top) : put entry place root = some root :=
  put_eq_some_iff.mpr (graft_eq_self h)

/-- What matters of an entry to a path that goes on. -/
def shape : Entry → Entry
  | .directory _ => .directory []
  | .file _ => .file none
  | entry => entry

theorem shape_top (entry : Entry) : entry.top.shape = entry.shape := by
  cases entry <;> rfl

/-- Whatever is in the first tree is in the second as well, and looks alike. -/
def Extends (look : Entry → Entry) (before after : Entry) : Prop :=
  ∀ path entry, before.at? path = some entry →
    ∃ later, after.at? path = some later ∧ look later = look entry

variable {look : Entry → Entry} {between : Entry}

theorem Extends.refl (look : Entry → Entry) (entry : Entry) : Extends look entry entry :=
  fun _ found h => ⟨found, h, rfl⟩

theorem Extends.trans (h : Extends look before between) (h' : Extends look between after) :
    Extends look before after := by
  intro path entry hat
  obtain ⟨later, hlater, hlook⟩ := h path entry hat
  obtain ⟨last, hlast, hlook'⟩ := h' path later hlater
  exact ⟨last, hlast, hlook'.trans hlook⟩

theorem Extends.shape (h : Extends top before after) : Extends shape before after := by
  intro path entry hat
  obtain ⟨later, hlater, htop⟩ := h path entry hat
  exact ⟨later, hlater, by rw [← shape_top later, htop, shape_top]⟩

theorem Extends.at? (h : Extends look before after) {later : Entry}
    (hb : before.at? path = some entry) (ha : after.at? path = some later) :
    Extends look entry later := by
  intro below found hf
  obtain ⟨last, hlast, hlook⟩ := h (path ++ below) found (by rw [at?_append, hb]; exact hf)
  rw [at?_append, ha] at hlast
  exact ⟨last, hlast, hlook⟩

theorem Extends.exists_directory (h : Extends Entry.shape before after)
    {entries : List (String × Entry)} (hb : before.at? path = some (.directory entries)) :
    ∃ later, after.at? path = some (.directory later) := by
  obtain ⟨later, hlater, hshape⟩ := h path _ hb
  cases later with
  | directory later => exact ⟨later, hlater⟩
  | _ => cases hshape

theorem Extends.same (h : Extends look before after) (hb : before.at? path = some entry)
    (hlook : ∀ later, look later = look entry → later = entry) : after.at? path = some entry := by
  obtain ⟨later, hlater, he⟩ := h path entry hb
  rw [hlater, hlook later he]

theorem Extends.link (h : Extends Entry.shape before after) {target : String}
    (hb : before.at? path = some (.link target)) : after.at? path = some (.link target) := by
  refine h.same hb fun later hshape => ?_
  cases later with
  | link other => exact hshape
  | _ => cases hshape

theorem Extends.exists_other (h : Extends Entry.shape before after)
    (hb : before.at? path = some entry) (hdir : ∀ entries, entry ≠ .directory entries)
    (hlink : ∀ target, entry ≠ .link target) :
    ∃ later, after.at? path = some later ∧ (∀ entries, later ≠ .directory entries) ∧
      ∀ target, later ≠ .link target := by
  obtain ⟨later, hlater, hshape⟩ := h path _ hb
  refine ⟨later, hlater, ?_, ?_⟩
  · rintro entries rfl
    cases entry with
    | directory others => exact hdir others rfl
    | _ => cases hshape
  · rintro target rfl
    cases entry with
    | link other => exact hlink other rfl
    | _ => cases hshape

theorem Extends.file (h : Extends top before after) {text : Option String}
    (hb : before.at? path = some (.file text)) : after.at? path = some (.file text) := by
  refine h.same hb fun later htop => ?_
  cases later with
  | file other => exact htop
  | _ => cases htop

/-- The second tree has all of the first, and all else in it is allowed. -/
structure GrownBy (allowed : Entry → Prop) (before after : Entry) : Prop where
  kept : Extends top before after
  added : ∀ path entry, before.at? path = none → after.at? path = some entry → allowed entry.top

namespace GrownBy

variable {allowed : Entry → Prop}

theorem refl (allowed : Entry → Prop) (entry : Entry) : GrownBy allowed entry entry where
  kept := .refl _ _
  added := fun _ _ hnone hsome => nomatch hnone.symm.trans hsome

theorem trans (h : GrownBy allowed before between) (h' : GrownBy allowed between after) :
    GrownBy allowed before after where
  kept := h.kept.trans h'.kept
  added := fun path entry hnone hsome => by
    cases hbetween : between.at? path with
    | none => exact h'.added path entry hbetween hsome
    | some found =>
      obtain ⟨later, hlater, htop⟩ := h'.kept path found hbetween
      obtain rfl := Option.some.inj (hlater.symm.trans hsome)
      exact htop ▸ h.added path found hnone hbetween

theorem mono {others : Entry → Prop} (h : GrownBy allowed before after)
    (hall : ∀ entry, allowed entry → others entry) : GrownBy others before after where
  kept := h.kept
  added := fun path entry hnone hsome => hall _ (h.added path entry hnone hsome)

theorem at? (h : GrownBy allowed before after) {later : Entry}
    (hb : before.at? path = some entry) (ha : after.at? path = some later) :
    GrownBy allowed entry later where
  kept := h.kept.at? hb ha
  added := fun below found hnone hsome => by
    refine h.added (path ++ below) found ?_ ?_
    · rw [at?_append, hb]
      exact hnone
    · rw [at?_append, ha]
      exact hsome

theorem put (hnew : allowed new.top) (h : Entry.put new place root = some grown)
    (hnone : root.at? place = none) : GrownBy allowed root.entry grown.entry where
  kept := fun path entry hat => by
    have hn : ¬ place <+: path := by
      rintro ⟨below, rfl⟩
      rw [at?_append, show root.entry.at? place = none from hnone] at hat
      cases hat
    have htop := at?_put_of_not_isPrefix h hn
    rw [Tree.at?, Tree.at?, hat] at htop
    exact Option.map_eq_some_iff.mp htop
  added := fun path entry hbefore hafter => by
    by_cases hn : place <+: path
    · obtain ⟨below, rfl⟩ := hn
      have hbelow : new.top.at? below = some entry := (at?_put_append h below).symm.trans hafter
      cases below with
      | nil =>
        obtain rfl := Option.some.inj (at?_nil.symm.trans hbelow)
        exact (top_top new).symm ▸ hnew
      | cons name below => cases at?_top_cons.symm.trans hbelow
    · have htop := at?_put_of_not_isPrefix h hn
      rw [Tree.at?, Tree.at?, hbefore, hafter] at htop
      cases htop

end GrownBy

theorem extends_put_file {text : Option String} (h : put (.file text) place root = some grown)
    (hplace : root.at? place = none ∨ ∃ held, root.at? place = some (.file held)) :
    Extends shape root.entry grown.entry := by
  rcases hplace with hnone | ⟨held, hheld⟩
  · have hgrown : GrownBy (fun _ => True) root.entry grown.entry := .put trivial h hnone
    exact hgrown.kept.shape
  · intro path entry hat
    by_cases hn : place <+: path
    · obtain ⟨below, rfl⟩ := hn
      rw [at?_append, show root.entry.at? place = _ from hheld] at hat
      cases below with
      | nil =>
        obtain rfl := Option.some.inj (at?_nil.symm.trans hat)
        exact ⟨.file text, by rw [List.append_nil]; exact at?_put h, rfl⟩
      | cons name below => cases hat
    · have htop := at?_put_of_not_isPrefix h hn
      rw [Tree.at?, Tree.at?, hat] at htop
      obtain ⟨later, hlater, htop⟩ := Option.map_eq_some_iff.mp htop
      exact ⟨later, hlater, by rw [← shape_top later, htop, shape_top]⟩

theorem at?_concat (h : entry.at? path = some (.directory entries)) (name : String) :
    entry.at? (path ++ [name]) = entries.lookup name := by
  rw [at?_append, h, Option.bind_some, at?_directory]
  cases entries.lookup name with
  | none => rfl
  | some found => exact at?_nil

end Entry

end Accessors.Disk

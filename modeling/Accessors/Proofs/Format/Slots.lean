import Accessors.Proofs.Format.Positions
import Accessors.Proofs.Format.Unification

/-!
# Slots of a text without references

A part with a position is meant for the slot before that number, and the parts without one are meant
for the slots from the first one on. Where no position is out of range and no slot is meant for two
specifiers, the layout is this assignment: it ends with the last slot that is meant for one, and the
slots that are meant for none are unresolved. Otherwise there is none.
-/

namespace Accessors.Format

open Argument (Meets)
open Record (PluralRule)

def unpositioned (parts : List Part) : List Specifier := parts.filterMap fun
  | .specifier none specifier => some specifier
  | _ => none

def positions (parts : List Part) : List Nat := parts.filterMap fun
  | .specifier (some position) _ => some position
  | _ => none

def largestPosition (parts : List Part) : Nat := (positions parts).foldr max 0

/-- The parts mean the slot for the specifier. -/
def Assigns (parts : List Part) (slot : Nat) (specifier : Specifier) : Prop :=
  Part.specifier (some (slot + 1)) specifier ∈ parts ∨
    (unpositioned parts)[slot]? = some specifier

/-- No position is out of range, and no slot is meant for two specifiers. -/
structure Consistent (parts : List Part) : Prop where
  inRange : ∀ position ∈ positions parts, position ≤ 256
  unique : ∀ slot a b, Assigns parts slot a → Assigns parts slot b → a = b

section Parts

variable {done rest : List Part} {position slot : Nat} {specifier given : Specifier}

theorem mem_positions_iff :
    position ∈ positions done ↔ ∃ specifier, Part.specifier (some position) specifier ∈ done := by
  simp only [positions, List.mem_filterMap]
  constructor
  · rintro ⟨part, hp, he⟩
    split at he
    · exact ⟨_, Option.some.inj he ▸ hp⟩
    · cases he
  · rintro ⟨specifier, hp⟩
    exact ⟨_, hp, rfl⟩

theorem largestPosition_le_iff {bound : Nat} :
    largestPosition done ≤ bound ↔ ∀ position ∈ positions done, position ≤ bound :=
  ⟨fun h _ hp => (List.le_max_of_le hp le_rfl).trans h, fun h => List.max_le_of_forall_le _ _ h⟩

theorem length_unpositioned_le (parts : List Part) : (unpositioned parts).length ≤ parts.length :=
  List.length_filterMap_le _ _

theorem unpositioned_append :
    unpositioned (done ++ rest) = unpositioned done ++ unpositioned rest :=
  List.filterMap_append

theorem positions_append : positions (done ++ rest) = positions done ++ positions rest :=
  List.filterMap_append

theorem largestPosition_append :
    largestPosition (done ++ rest) = max (largestPosition done) (largestPosition rest) := by
  refine eq_of_forall_ge_iff fun bound => ?_
  simp only [max_le_iff, largestPosition_le_iff, positions_append, List.forall_mem_append]

theorem largestPosition_positioned :
    largestPosition [.specifier (some position) specifier] = position := Nat.max_zero position

theorem unpositioned_append_positioned :
    unpositioned (done ++ [.specifier (some position) specifier]) = unpositioned done := by
  rw [unpositioned_append]
  exact List.append_nil _

theorem length_unpositioned_append_unpositioned :
    (unpositioned (done ++ [.specifier none specifier])).length =
      (unpositioned done).length + 1 := by
  rw [unpositioned_append, List.length_append]
  rfl

theorem Assigns.append (h : Assigns done slot specifier) :
    Assigns (done ++ rest) slot specifier := by
  rcases h with h | h
  · exact .inl (List.mem_append_left _ h)
  · refine .inr ?_
    rw [unpositioned_append]
    exact List.getElem?_append_left (List.getElem?_eq_some_iff.mp h).1 |>.trans h

theorem Consistent.of_append (h : Consistent (done ++ rest)) : Consistent done where
  inRange := fun position hp =>
    h.inRange position (by rw [positions_append]; exact List.mem_append_left _ hp)
  unique := fun slot a b ha hb => h.unique slot a b ha.append hb.append

theorem assigns_append_positioned :
    Assigns (done ++ [.specifier (some position) given]) slot specifier ↔
      Assigns done slot specifier ∨ position = slot + 1 ∧ specifier = given := by
  simp only [Assigns, unpositioned_append_positioned, List.mem_append, List.mem_singleton,
    Part.specifier.injEq, Option.some.injEq]
  grind

theorem assigns_append_unpositioned :
    Assigns (done ++ [.specifier none given]) slot specifier ↔
      Assigns done slot specifier ∨ slot = (unpositioned done).length ∧ specifier = given := by
  have hone : unpositioned [.specifier none given] = [given] := rfl
  simp only [Assigns, unpositioned_append, hone, List.mem_append, List.mem_singleton,
    Part.specifier.injEq, reduceCtorEq, false_and, or_false]
  grind

theorem slotOf_eq_ok_iff : slotOf position = .ok slot ↔ position = slot + 1 ∧ position ≤ 256 := by
  unfold slotOf positionBound
  split
  · next h =>
    refine ⟨nofun, fun ⟨hs, hle⟩ => ?_⟩
    omega
  · next h =>
    rw [Except.ok.injEq]
    omega

end Parts

def Slots.held (slots : Slots) (slot : Nat) : Option Argument := slots[slot]?.join

structure Placed (argument : Argument) (slot : Nat) (slots result : Slots) : Prop where
  length : result.length = max slots.length (slot + 1)
  others : ∀ other, other ≠ slot → result.held other = slots.held other
  here : Meets (slots.held slot) (some argument) (result.held slot)

section Place

variable {argument : Argument} {number slot : Nat} {slots result : Slots}

theorem held_cons_succ {first : Option Argument} :
    Slots.held (first :: slots) (slot + 1) = slots.held slot := by
  simp [Slots.held]

theorem held_nil : Slots.held [] slot = none := rfl

theorem Placed.cons {first : Option Argument} (h : Placed argument slot slots result) :
    Placed argument (slot + 1) (first :: slots) (first :: result) where
  length := by
    have := h.length
    simp only [List.length_cons]
    omega
  others := by
    intro other hne
    cases other with
    | zero => rfl
    | succ other =>
      rw [held_cons_succ, held_cons_succ]
      exact h.others other (by omega)
  here := by
    rw [held_cons_succ, held_cons_succ]
    exact h.here

theorem Placed.nil_cons (h : Placed argument slot [] result) :
    Placed argument (slot + 1) [] (none :: result) where
  length := by
    have := h.length
    simp only [List.length_cons, List.length_nil] at this ⊢
    omega
  others := by
    intro other hne
    cases other with
    | zero => rfl
    | succ other => exact held_cons_succ.trans (h.others other (by omega))
  here := by
    rw [held_cons_succ]
    exact h.here

theorem placed_of_place (h : place number argument slot slots = .ok result) :
    Placed argument slot slots result := by
  induction slot generalizing number slots result with
  | zero =>
    match slots with
    | [] =>
      obtain rfl := Except.ok.inj h
      exact ⟨rfl, fun | 0, hne => absurd rfl hne | _ + 1, _ => rfl, .right⟩
    | none :: rest =>
      obtain rfl := Except.ok.inj h
      refine ⟨by simp, fun | 0, hne => absurd rfl hne | _ + 1, _ => rfl, .right⟩
    | some held :: rest =>
      rw [place] at h
      split at h
      · next unified hunify =>
        obtain rfl := Except.ok.inj h
        refine ⟨by simp, fun | 0, hne => absurd rfl hne | _ + 1, _ => rfl, .both hunify⟩
      · cases h
  | succ slot ih =>
    cases slots with
    | nil =>
      obtain ⟨placed, hplace, rfl⟩ := map_eq_ok_iff.mp h
      exact (ih hplace).nil_cons
    | cons first rest =>
      obtain ⟨placed, hplace, rfl⟩ := map_eq_ok_iff.mp h
      exact (ih hplace).cons

theorem conflict_of_place {e : FormatError} (h : place number argument slot slots = .error e) :
    ∃ held, slots.held slot = some held ∧ held.unify argument = none := by
  induction slot generalizing number slots with
  | zero =>
    match slots with
    | [] => cases h
    | none :: rest => cases h
    | some held :: rest =>
      rw [place] at h
      split at h
      · cases h
      · next hunify => exact ⟨held, rfl, hunify⟩
  | succ slot ih =>
    cases slots with
    | nil =>
      obtain ⟨held, hheld, -⟩ := ih (map_eq_error_iff.mp h)
      cases hheld
    | cons first rest =>
      obtain ⟨held, hheld, hunify⟩ := ih (map_eq_error_iff.mp h)
      exact ⟨held, held_cons_succ.trans hheld, hunify⟩

end Place

inductive Part.IsPlain : Part → Prop
  | positioned {position : Nat} {specifier : Specifier} (positive : 0 < position)
      (concrete : specifier ≠ .any) : IsPlain (.specifier (some position) specifier)
  | unpositioned {specifier : Specifier} (concrete : specifier ≠ .any) :
      IsPlain (.specifier none specifier)

/-- The slots hold what the parts mean them for, and nothing else. -/
structure FilledBy (owner : Option String) (done : List Part) (next : Nat) (slots : Slots) :
    Prop where
  next : next = (unpositioned done).length
  length : slots.length = max (largestPosition done) (unpositioned done).length
  inRange : ∀ position ∈ positions done, position ≤ 256
  held_iff : ∀ slot argument, slots.held slot = some argument ↔
    ∃ specifier, argument = ⟨owner, specifier⟩ ∧ Assigns done slot specifier

section Fill

variable {resolve : String → Except FormatError (List Argument)} {owner : Option String}
  {done rest : List Part} {part : Part} {next slot other : Nat} {slots result : Slots}
  {specifier given : Specifier} {argument : Argument} {state : Nat × Slots} {e : FormatError}

theorem unify_owned {a b : Specifier} {c : Argument} (ha : a ≠ .any) (hb : b ≠ .any) :
    (⟨owner, a⟩ : Argument).unify ⟨owner, b⟩ = some c ↔ a = b ∧ c = ⟨owner, a⟩ := by
  rw [Argument.unify_eq_some_iff, Specifier.unify_eq_some_iff, Argument.unifyNames_eq_some_iff]
  obtain ⟨name, specifier⟩ := c
  simp only [ha, hb, false_and, or_false, true_and, Argument.mk.injEq]
  grind

theorem Assigns.concrete (hplain : ∀ part ∈ done, part.IsPlain)
    (h : Assigns done slot specifier) : specifier ≠ .any := by
  have hmem : ∃ position, Part.specifier position specifier ∈ done := by
    rcases h with h | h
    · exact ⟨_, h⟩
    · obtain ⟨part, hp, he⟩ := List.mem_filterMap.mp (List.mem_of_getElem? h)
      split at he
      · exact ⟨_, Option.some.inj he ▸ hp⟩
      · cases he
  obtain ⟨position, hp⟩ := hmem
  cases hplain _ hp with
  | positioned _ concrete => exact concrete
  | unpositioned concrete => exact concrete

theorem FilledBy.consistent (h : FilledBy owner done next slots) : Consistent done where
  inRange := h.inRange
  unique := by
    intro slot a b ha hb
    have hheld := (h.held_iff slot _).mpr ⟨a, rfl, ha⟩
    have hheld' := (h.held_iff slot _).mpr ⟨b, rfl, hb⟩
    exact (Argument.mk.inj (Option.some.inj (hheld.symm.trans hheld'))).2

theorem FilledBy.held_placed (h : FilledBy owner done next slots)
    (hplain : ∀ part ∈ done, part.IsPlain) (hgiven : given ≠ .any)
    (hplaced : Placed ⟨owner, given⟩ slot slots result) :
    result.held other = some argument ↔ ∃ specifier, argument = ⟨owner, specifier⟩ ∧
      (Assigns done other specifier ∨ other = slot ∧ specifier = given) := by
  by_cases hother : other = slot
  · subst hother
    have hhere := hplaced.here
    have hgivenHere : result.held other = some ⟨owner, given⟩ ∧
        ∀ specifier, Assigns done other specifier → specifier = given := by
      generalize hbefore : slots.held other = before, result.held other = after at hhere
      cases hhere with
      | right =>
        refine ⟨rfl, fun specifier ha => ?_⟩
        cases hbefore.symm.trans ((h.held_iff other _).mpr ⟨specifier, rfl, ha⟩)
      | both hunify =>
        obtain ⟨held, rfl, hheld⟩ := (h.held_iff other _).mp hbefore
        obtain ⟨rfl, rfl⟩ := (unify_owned (hheld.concrete hplain) hgiven).mp hunify
        exact ⟨rfl, fun specifier ha => h.consistent.unique other specifier held ha hheld⟩
    rw [hgivenHere.1]
    constructor
    · rintro ⟨⟩
      exact ⟨given, rfl, .inr ⟨rfl, rfl⟩⟩
    · rintro ⟨specifier, rfl, ha | ⟨-, rfl⟩⟩
      · rw [hgivenHere.2 specifier ha]
      · rfl
  · rw [hplaced.others other hother, h.held_iff]
    simp only [hother, false_and, or_false]

theorem filled_of_fillPart (h : FilledBy owner done next slots)
    (hdone : ∀ part ∈ done, part.IsPlain) (hpart : part.IsPlain)
    (hfill : fillPart resolve owner next slots part = .ok state) :
    FilledBy owner (done ++ [part]) state.1 state.2 := by
  cases hpart with
  | @positioned position given positive concrete =>
    obtain ⟨slot, hslot, hfill⟩ := bind_eq_ok_iff.mp hfill
    obtain ⟨placed, hplace, ⟨⟩⟩ := bind_eq_ok_iff.mp hfill
    obtain ⟨rfl, hle⟩ := slotOf_eq_ok_iff.mp hslot
    have hplaced := placed_of_place hplace
    refine ⟨?_, ?_, ?_, fun other argument => ?_⟩
    · rw [unpositioned_append_positioned]
      exact h.next
    · rw [hplaced.length, h.length, unpositioned_append_positioned, largestPosition_append,
        largestPosition_positioned]
      exact max_right_comm _ _ _
    · rw [positions_append]
      exact List.forall_mem_append.mpr ⟨h.inRange, List.forall_mem_singleton.mpr hle⟩
    · rw [h.held_placed hdone concrete hplaced]
      simp only [assigns_append_positioned, Nat.add_right_cancel_iff, @eq_comm _ other slot]
  | @unpositioned given concrete =>
    obtain ⟨placed, hplace, ⟨⟩⟩ := bind_eq_ok_iff.mp hfill
    have hplaced := placed_of_place hplace
    refine ⟨?_, ?_, ?_, fun slot argument => ?_⟩
    · rw [length_unpositioned_append_unpositioned, h.next]
    · rw [hplaced.length, h.length, length_unpositioned_append_unpositioned,
        largestPosition_append, h.next]
      show max (max _ _) _ = max (max _ 0) _
      omega
    · rw [positions_append]
      exact List.forall_mem_append.mpr ⟨h.inRange, List.forall_mem_nil _⟩
    · rw [h.held_placed hdone concrete hplaced]
      simp only [assigns_append_unpositioned, h.next]

theorem FilledBy.exists_clash {number : Nat} (h : FilledBy owner done next slots)
    (hdone : ∀ part ∈ done, part.IsPlain) (hgiven : given ≠ .any)
    (hplace : place number ⟨owner, given⟩ slot slots = .error e) :
    ∃ earlier, earlier ≠ given ∧ Assigns done slot earlier := by
  obtain ⟨held, hheld, hunify⟩ := conflict_of_place hplace
  obtain ⟨earlier, rfl, hassigns⟩ := (h.held_iff slot held).mp hheld
  refine ⟨earlier, fun he => ?_, hassigns⟩
  rw [(unify_owned (hassigns.concrete hdone) hgiven).mpr ⟨he, rfl⟩] at hunify
  cases hunify

theorem inconsistent_of_fillPart (h : FilledBy owner done next slots)
    (hdone : ∀ part ∈ done, part.IsPlain) (hpart : part.IsPlain)
    (hfill : fillPart resolve owner next slots part = .error e) :
    ¬ Consistent (done ++ [part]) := by
  intro hconsistent
  cases hpart with
  | @positioned position given positive concrete =>
    have hle : position ≤ 256 :=
      hconsistent.inRange position (mem_positions_iff.mpr ⟨given, by simp⟩)
    obtain ⟨slot, rfl⟩ : ∃ slot, position = slot + 1 := ⟨position - 1, by omega⟩
    have hslot : slotOf (slot + 1) = .ok slot := slotOf_eq_ok_iff.mpr ⟨rfl, hle⟩
    rcases bind_eq_error_iff.mp hfill with hrefused | ⟨other, hother, hfill⟩
    · cases hslot.symm.trans hrefused
    obtain rfl := Except.ok.inj (hslot.symm.trans hother)
    rcases bind_eq_error_iff.mp hfill with hplace | ⟨placed, -, hfill⟩
    · obtain ⟨earlier, hne, hassigns⟩ := h.exists_clash hdone concrete hplace
      exact hne (hconsistent.unique _ _ _ hassigns.append
        (assigns_append_positioned.mpr (.inr ⟨rfl, rfl⟩)))
    · cases hfill
  | @unpositioned given concrete =>
    rcases bind_eq_error_iff.mp hfill with hplace | ⟨placed, -, hfill⟩
    · obtain ⟨earlier, hne, hassigns⟩ := h.exists_clash hdone concrete hplace
      exact hne (hconsistent.unique _ _ _ hassigns.append
        (assigns_append_unpositioned.mpr (.inr ⟨h.next, rfl⟩)))
    · cases hfill

theorem filledBy_nil : FilledBy owner [] 0 [] :=
  ⟨rfl, rfl, List.forall_mem_nil _, fun slot argument => by simp [held_nil, Assigns, unpositioned]⟩

theorem fill_cases (resolve : String → Except FormatError (List Argument))
    (h : FilledBy owner done next slots) (hdone : ∀ part ∈ done, part.IsPlain)
    (hrest : ∀ part ∈ rest, part.IsPlain) :
    (∃ last result, fill resolve owner rest next slots = .ok result ∧
        FilledBy owner (done ++ rest) last result) ∨
      ∃ e, fill resolve owner rest next slots = .error e ∧ ¬ Consistent (done ++ rest) := by
  induction rest generalizing done next slots with
  | nil => exact .inl ⟨next, slots, rfl, by rwa [List.append_nil]⟩
  | cons part rest ih =>
    obtain ⟨hpart, hrest⟩ := List.forall_mem_cons.mp hrest
    rw [fill_cons, List.append_cons]
    cases hfill : fillPart resolve owner next slots part with
    | error e =>
      exact .inr ⟨e, rfl, fun hc => inconsistent_of_fillPart h hdone hpart hfill hc.of_append⟩
    | ok state =>
      exact ih (filled_of_fillPart h hdone hpart hfill)
        (List.forall_mem_append.mpr ⟨hdone, List.forall_mem_singleton.mpr hpart⟩) hrest

/-- The arguments are those that the parts mean their slots for. -/
structure LaidOut (owner : Option String) (parts : List Part) (found : List Argument) : Prop where
  length : found.length = max (largestPosition parts) (unpositioned parts).length
  assigned : ∀ slot specifier, Assigns parts slot specifier →
    found[slot]? = some ⟨owner, specifier⟩
  unassigned : ∀ slot, slot < found.length → (∀ specifier, ¬ Assigns parts slot specifier) →
    found[slot]? = some ⟨none, .any⟩

theorem FilledBy.laidOut (h : FilledBy owner done next slots) :
    LaidOut owner done (slots.map (·.getD .unresolved)) where
  length := by rw [List.length_map, h.length]
  assigned := by
    intro slot specifier hassigns
    have hheld := (h.held_iff slot _).mpr ⟨specifier, rfl, hassigns⟩
    rw [List.getElem?_map, Option.join_eq_some_iff.mp hheld]
    rfl
  unassigned := by
    intro slot hlt hnone
    rw [List.length_map] at hlt
    have hslot := List.getElem?_eq_getElem hlt
    rw [List.getElem?_map, hslot]
    cases hheld : slots[slot] with
    | none => rfl
    | some argument =>
      rw [hheld] at hslot
      obtain ⟨specifier, -, hassigns⟩ :=
        (h.held_iff slot argument).mp (Option.join_eq_some_iff.mpr hslot)
      exact absurd hassigns (hnone specifier)

theorem LaidOut.unnamed {found : List Argument} (h : LaidOut none done found) :
    ∀ argument ∈ found, argument.name = none := by
  intro argument ha
  obtain ⟨slot, hlt, rfl⟩ := List.getElem_of_mem ha
  have hslot := List.getElem?_eq_getElem hlt
  by_cases hassigned : ∃ specifier, Assigns done slot specifier
  · obtain ⟨specifier, hassigns⟩ := hassigned
    rw [Option.some.inj (hslot.symm.trans (h.assigned slot specifier hassigns))]
  · rw [Option.some.inj (hslot.symm.trans (h.unassigned slot hlt fun specifier ha =>
      hassigned ⟨specifier, ha⟩))]

theorem layout_cases (resolve : String → Except FormatError (List Argument))
    (owner : Option String) (hplain : ∀ part ∈ done, part.IsPlain) :
    (∃ found, layout resolve owner done = .ok found ∧ Consistent done ∧
        LaidOut owner done found) ∨
      ∃ e, layout resolve owner done = .error e ∧ ¬ Consistent done := by
  unfold layout
  have hnil : FilledBy owner [] 0 [] := filledBy_nil
  rcases fill_cases resolve hnil (List.forall_mem_nil _) hplain with
    ⟨last, result, hfill, hfilled⟩ | ⟨e, hfill, hinconsistent⟩
  · exact .inl ⟨_, by rw [hfill]; rfl, hfilled.consistent, hfilled.laidOut⟩
  · exact .inr ⟨e, by rw [hfill]; rfl, hinconsistent⟩

end Fill

section Range

variable {resolve : String → Except FormatError (List Argument)} {owner : Option String}
  {parts : List Part} {position next : Nat} {specifier : Specifier} {slots result : Slots}

theorem inRange_of_fill (h : fill resolve owner parts next slots = .ok result)
    (hp : Part.specifier (some position) specifier ∈ parts) : position ≤ 256 := by
  induction parts generalizing next slots with
  | nil => cases hp
  | cons part rest ih =>
    rw [fill_cons] at h
    obtain ⟨state, hpart, hrest⟩ := bind_eq_ok_iff.mp h
    rcases List.mem_cons.mp hp with rfl | hp
    · obtain ⟨slot, hslot, -⟩ := bind_eq_ok_iff.mp hpart
      exact (slotOf_eq_ok_iff.mp hslot).2
    · exact ih hrest hp

theorem exists_error_of_position (hp : Part.specifier (some position) specifier ∈ parts)
    (hrange : 256 < position) : ∃ e, layout resolve owner parts = .error e := by
  cases h : layout resolve owner parts with
  | error e => exact ⟨e, rfl⟩
  | ok found =>
    obtain ⟨slots, hfill, -⟩ := bind_eq_ok_iff.mp h
    exact absurd (inRange_of_fill hfill hp) (Nat.not_le.mpr hrange)

end Range

theorem isPlain_of_mem_parts {value : String} (h : ∀ name, ¬ References (parts value) name) :
    ∀ part ∈ parts value, part.IsPlain := by
  intro part hp
  match part with
  | .specifier (some position) specifier =>
    obtain ⟨concrete, positive⟩ := specifier_of_mem_parts hp
    exact .positioned (positive position rfl) concrete
  | .specifier none specifier => exact .unpositioned (specifier_of_mem_parts hp).1
  | .reference position name => exact absurd ⟨position, hp⟩ (h name)

theorem FormatError.IsPlacement.code {e : FormatError} (h : e.IsPlacement) :
    e.code = "STRINGS_FORMAT_POSITION" ∨ e.code = "STRINGS_FORMAT_CONFLICT" := by
  cases e with
  | positionOutOfRange => exact .inl rfl
  | argumentConflict => exact .inr rfl
  | _ => exact h.elim

def referenced (rules : Option (Dictionary PluralRule)) :
    String → Except FormatError (List Argument) :=
  match rules with
  | none => fun name => .error (.referenceWithoutRules name)
  | some rules => resolve rules []

theorem arguments_eq_layout (value : String) (rules : Option (Dictionary PluralRule)) :
    arguments value rules = layout (referenced rules) none (parts value) := by
  cases rules <;> rfl

theorem exists_layout_arguments (value : String) (rules : Option (Dictionary PluralRule)) :
    ∃ resolve, arguments value rules = layout resolve none (parts value) :=
  ⟨_, arguments_eq_layout value rules⟩

/-- A text without references has arguments just if its parts are consistent, whatever rules there
are. They are laid out as the parts say, they have no names, and they are no more than the largest
position or the number of parts. -/
theorem arguments_slots (value : String) (rules : Option (Dictionary PluralRule))
    (h : ∀ name, ¬ References (parts value) name) :
    ((∃ found, arguments value rules = .ok found) ↔ Consistent (parts value)) ∧
      (∀ found, arguments value rules = .ok found →
        LaidOut none (parts value) found ∧ (∀ argument ∈ found, argument.name = none) ∧
          found.length ≤ max 256 (parts value).length) ∧
      ∀ e, arguments value rules = .error e →
        e.code = "STRINGS_FORMAT_POSITION" ∨ e.code = "STRINGS_FORMAT_CONFLICT" := by
  obtain ⟨resolve, harguments⟩ := exists_layout_arguments value rules
  rw [harguments]
  have hcode : ∀ e, layout resolve none (parts value) = .error e →
      e.code = "STRINGS_FORMAT_POSITION" ∨ e.code = "STRINGS_FORMAT_CONFLICT" := by
    intro e he
    rcases error_of_layout he with hplacement | ⟨name, hr, -⟩
    · exact hplacement.code
    · exact absurd hr (h name)
  rcases layout_cases resolve none (isPlain_of_mem_parts h) with
    ⟨found, hok, hconsistent, hlaid⟩ | ⟨e, herror, hinconsistent⟩
  · refine ⟨⟨fun _ => hconsistent, fun _ => ⟨found, hok⟩⟩, fun other hother => ?_, hcode⟩
    obtain rfl := Except.ok.inj (hok.symm.trans hother)
    refine ⟨hlaid, hlaid.unnamed, ?_⟩
    rw [hlaid.length]
    exact max_le_max (largestPosition_le_iff.mpr hconsistent.inRange) (length_unpositioned_le _)
  · refine ⟨⟨fun ⟨found, hok⟩ => ?_, fun hc => absurd hc hinconsistent⟩, fun found hok => ?_, hcode⟩
    · cases herror.symm.trans hok
    · cases herror.symm.trans hok

theorem arguments_slots_interleaved :
    (∀ name, ¬ References (parts "%3$@: %d of %1$d") name) ∧
      arguments "%3$@: %d of %1$d" none =
        .ok [⟨none, .int⟩, ⟨none, .any⟩, ⟨none, .object⟩] ∧
      Consistent (parts "%3$@: %d of %1$d") ∧
      LaidOut none (parts "%3$@: %d of %1$d")
        [⟨none, .int⟩, ⟨none, .any⟩, ⟨none, .object⟩] := by
  have hparts : parts "%3$@: %d of %1$d" =
      [.specifier (some 3) .object, .specifier none .int, .specifier (some 1) .int] := by cbv
  have hreferences : ∀ name, ¬ References (parts "%3$@: %d of %1$d") name := by
    rintro name ⟨position, hp⟩
    simp [hparts] at hp
  have hok : arguments "%3$@: %d of %1$d" none =
      .ok [⟨none, .int⟩, ⟨none, .any⟩, ⟨none, .object⟩] := by cbv
  obtain ⟨hiff, hlaid, -⟩ := arguments_slots "%3$@: %d of %1$d" none hreferences
  exact ⟨hreferences, hok, hiff.mp ⟨_, hok⟩, (hlaid _ hok).1⟩

end Accessors.Format

import Mathlib
import Accessors.Format.Resolution
import Accessors.Proofs.Traversal

/-!
# References between plural rules

A rule refers to the names in the texts of its cases. Where the resolution of a name succeeds, every
name that can be reached from it has a rule that counts, and none of them lies on a cycle. Where it
fails on a cycle, the names it reports are a walk that ends at a name met before; where it fails on
a name without a rule, that name can be reached.
-/

namespace Accessors

namespace Format

open Record (PluralRule)
open Relation (ReflTransGen TransGen)

def References (parts : List Part) (name : String) : Prop :=
  ∃ position, Part.reference position name ∈ parts

def FormatError.IsPlacement : FormatError → Prop
  | .positionOutOfRange _ => True
  | .argumentConflict .. => True
  | _ => False

theorem isPlacement_of_place {number distance : Nat} {argument : Argument} {slots : Slots}
    {e : FormatError} (h : place number argument distance slots = .error e) : e.IsPlacement := by
  induction distance generalizing number slots with
  | zero =>
    match slots with
    | [] => cases h
    | none :: rest => cases h
    | some held :: rest =>
      rw [place] at h
      split at h
      · cases h
      · obtain rfl := Except.error.inj h
        trivial
  | succ distance ih =>
    cases slots with
    | nil => exact ih (map_eq_error_iff.mp h)
    | cons slot rest => exact ih (map_eq_error_iff.mp h)

theorem isPlacement_of_placeAll {arguments : List Argument} {start : Nat} {slots : Slots}
    {e : FormatError} (h : placeAll arguments start slots = .error e) : e.IsPlacement := by
  induction arguments generalizing start slots with
  | nil => cases h
  | cons argument rest ih =>
    rcases bind_eq_error_iff.mp h with hplace | ⟨next, -, hrest⟩
    · exact isPlacement_of_place hplace
    · exact ih hrest

theorem isPlacement_of_slotOf {position : Nat} {e : FormatError}
    (h : slotOf position = .error e) : e.IsPlacement := by
  unfold slotOf at h
  split at h
  · obtain rfl := Except.error.inj h
    trivial
  · cases h

section Fill

variable {resolve : String → Except FormatError (List Argument)} {owner : Option String}
  {part : Part} {rest parts : List Part} {next : Nat} {slots : Slots}

def fillPart (resolve : String → Except FormatError (List Argument)) (owner : Option String)
    (next : Nat) (slots : Slots) : Part → Except FormatError (Nat × Slots)
  | .specifier (some position) specifier => do
    let slot ← slotOf position
    let slots ← place 1 ⟨owner, specifier⟩ slot slots
    return (next, slots)
  | .specifier none specifier => do
    let slots ← place 1 ⟨owner, specifier⟩ next slots
    return (next + 1, slots)
  | .reference (some position) name => do
    let arguments ← resolve name
    let slot ← slotOf position
    let slots ← placeAll arguments slot slots
    return (next, slots)
  | .reference none name => do
    let arguments ← resolve name
    let slots ← placeAll arguments next slots
    return (next + arguments.length, slots)

theorem fill_cons (part : Part) (rest : List Part) (next : Nat) (slots : Slots) :
    fill resolve owner (part :: rest) next slots =
      fillPart resolve owner next slots part >>= fun state =>
        fill resolve owner rest state.1 state.2 := by
  match part with
  | .specifier (some position) specifier => simp [fill, fillPart]
  | .specifier none specifier => simp [fill, fillPart]
  | .reference (some position) name => simp [fill, fillPart]
  | .reference none name => simp [fill, fillPart]

theorem resolved_of_fillPart {position : Option Nat} {name : String} {state : Nat × Slots}
    (h : fillPart resolve owner next slots (.reference position name) = .ok state) :
    ∃ arguments, resolve name = .ok arguments := by
  cases position <;>
    obtain ⟨arguments, hresolve, -⟩ := bind_eq_ok_iff.mp h <;> exact ⟨arguments, hresolve⟩

theorem error_of_fillPart {e : FormatError}
    (h : fillPart resolve owner next slots part = .error e) :
    e.IsPlacement ∨ ∃ name, References [part] name ∧ resolve name = .error e := by
  match part with
  | .specifier (some position) specifier =>
    rcases bind_eq_error_iff.mp h with h | ⟨slot, -, h⟩
    · exact .inl (isPlacement_of_slotOf h)
    · rcases bind_eq_error_iff.mp h with h | ⟨placed, -, h⟩
      · exact .inl (isPlacement_of_place h)
      · cases h
  | .specifier none specifier =>
    rcases bind_eq_error_iff.mp h with h | ⟨placed, -, h⟩
    · exact .inl (isPlacement_of_place h)
    · cases h
  | .reference (some position) name =>
    rcases bind_eq_error_iff.mp h with h | ⟨arguments, -, h⟩
    · exact .inr ⟨name, ⟨_, List.mem_singleton_self _⟩, h⟩
    · rcases bind_eq_error_iff.mp h with h | ⟨slot, -, h⟩
      · exact .inl (isPlacement_of_slotOf h)
      · rcases bind_eq_error_iff.mp h with h | ⟨placed, -, h⟩
        · exact .inl (isPlacement_of_placeAll h)
        · cases h
  | .reference none name =>
    rcases bind_eq_error_iff.mp h with h | ⟨arguments, -, h⟩
    · exact .inr ⟨name, ⟨_, List.mem_singleton_self _⟩, h⟩
    · rcases bind_eq_error_iff.mp h with h | ⟨placed, -, h⟩
      · exact .inl (isPlacement_of_placeAll h)
      · cases h

theorem resolved_of_fill {result : Slots}
    (h : fill resolve owner parts next slots = .ok result) {name : String}
    (hr : References parts name) : ∃ arguments, resolve name = .ok arguments := by
  obtain ⟨position, hp⟩ := hr
  induction parts generalizing next slots with
  | nil => cases hp
  | cons part rest ih =>
    rw [fill_cons] at h
    obtain ⟨state, hpart, hrest⟩ := bind_eq_ok_iff.mp h
    rcases List.mem_cons.mp hp with rfl | hp
    · exact resolved_of_fillPart hpart
    · exact ih hrest hp

theorem error_of_fill {e : FormatError} (h : fill resolve owner parts next slots = .error e) :
    e.IsPlacement ∨ ∃ name, References parts name ∧ resolve name = .error e := by
  induction parts generalizing next slots with
  | nil => cases h
  | cons part rest ih =>
    rw [fill_cons] at h
    rcases bind_eq_error_iff.mp h with hpart | ⟨state, -, hrest⟩
    · refine (error_of_fillPart hpart).imp_right ?_
      rintro ⟨name, ⟨position, hp⟩, he⟩
      exact ⟨name, ⟨position, List.mem_cons.mpr (.inl (List.mem_singleton.mp hp))⟩, he⟩
    · refine (ih hrest).imp_right ?_
      rintro ⟨name, ⟨position, hp⟩, he⟩
      exact ⟨name, ⟨position, List.mem_cons_of_mem _ hp⟩, he⟩

theorem resolved_of_layout {arguments : List Argument}
    (h : layout resolve owner parts = .ok arguments) {name : String} (hr : References parts name) :
    ∃ arguments, resolve name = .ok arguments := by
  obtain ⟨slots, hfill, -⟩ := bind_eq_ok_iff.mp h
  exact resolved_of_fill hfill hr

theorem error_of_layout {e : FormatError} (h : layout resolve owner parts = .error e) :
    e.IsPlacement ∨ ∃ name, References parts name ∧ resolve name = .error e := by
  rcases bind_eq_error_iff.mp h with hfill | ⟨slots, -, h⟩
  · exact error_of_fill hfill
  · cases h

end Fill

variable {rules : Dictionary PluralRule} {visited : List String} {name : String}

/-- Some text of the rule of the first name refers to the second. -/
def Refers (rules : Dictionary PluralRule) (name reference : String) : Prop :=
  ∃ rule, rules.get? name = some rule ∧
    ∃ text ∈ rule.cases.entries, References (parts text.2) reference

/-- The name has a rule of the kind that is understood, and the value type is one specifier. -/
def Countable (rules : Dictionary PluralRule) (name : String) : Prop :=
  ∃ rule, rules.get? name = some rule ∧ rule.specType = PluralRule.countType ∧
    ∃ position specifier, parts ("%" ++ rule.valueType) = [.specifier position specifier]

theorem countSpecifier?_eq_some {valueType : String} {specifier : Specifier}
    (h : countSpecifier? valueType = some specifier) :
    ∃ position, parts ("%" ++ valueType) = [.specifier position specifier] := by
  unfold countSpecifier? at h
  split at h
  · next position held hparts => exact ⟨position, Option.some.inj h ▸ hparts⟩
  · cases h

structure FormatError.IsLocal (e : FormatError) : Prop where
  notCyclic : e.code ≠ "STRINGS_REFERENCE_CYCLIC"
  notMissing : e.code ≠ "STRINGS_REFERENCE_MISSING"

theorem FormatError.IsPlacement.isLocal {e : FormatError} (h : e.IsPlacement) : e.IsLocal := by
  cases e with
  | positionOutOfRange | argumentConflict => constructor <;> simp [code]
  | _ => exact h.elim

theorem resolve_ok {arguments : List Argument}
    (h : resolve rules visited name = .ok arguments) :
    name ∉ visited ∧ Countable rules name ∧ ∀ reference, Refers rules name reference →
      ∃ arguments, resolve rules (visited ++ [name]) reference = .ok arguments := by
  rw [resolve] at h
  split at h
  · cases h
  next hnew =>
  split at h
  · cases h
  next rule hrule =>
  split at h
  · cases h
  next htype =>
  split at h
  · cases h
  next specifier hvalue =>
  refine ⟨by simpa using hnew, ?_, ?_⟩
  · obtain ⟨position, hparts⟩ := countSpecifier?_eq_some hvalue
    exact ⟨rule, hrule, Decidable.not_not.mp htype, position, specifier, hparts⟩
  · rintro reference ⟨other, hother, text, ht, hr⟩
    obtain rfl := Option.some.inj (hrule.symm.trans hother)
    obtain ⟨before, after, hstep⟩ := exists_ok_of_foldlM h ht
    obtain ⟨alternative, hlayout, -⟩ := bind_eq_ok_iff.mp hstep
    exact resolved_of_layout hlayout hr

theorem resolve_error {e : FormatError} (h : resolve rules visited name = .error e) :
    (name ∈ visited ∧ e = .referenceCyclic (visited ++ [name])) ∨
      (rules.get? name = none ∧ e = .referenceMissing name) ∨ e.IsLocal ∨
      name ∉ visited ∧ ∃ reference, Refers rules name reference ∧
        resolve rules (visited ++ [name]) reference = .error e := by
  rw [resolve] at h
  split at h
  · next hmet => exact .inl ⟨by simpa using hmet, (Except.error.inj h).symm⟩
  next hnew =>
  split at h
  · next hrule => exact .inr (.inl ⟨hrule, (Except.error.inj h).symm⟩)
  next rule hrule =>
  refine .inr (.inr ?_)
  split at h
  · obtain rfl := Except.error.inj h
    exact .inl (by constructor <;> simp [FormatError.code])
  split at h
  · obtain rfl := Except.error.inj h
    exact .inl (by constructor <;> simp [FormatError.code])
  obtain ⟨text, ht, before, hstep⟩ := exists_error_of_foldlM h
  rcases bind_eq_error_iff.mp hstep with hlayout | ⟨alternative, -, hunify⟩
  · refine (error_of_layout hlayout).imp FormatError.IsPlacement.isLocal ?_
    rintro ⟨reference, hr, he⟩
    exact ⟨by simpa using hnew, reference, ⟨rule, hrule, text, ht, hr⟩, he⟩
  · split at hunify
    · cases hunify
    · obtain rfl := Except.error.inj hunify
      exact .inl (by constructor <;> simp [FormatError.code])

theorem resolve_reached {arguments : List Argument} {reached : String}
    (hr : ReflTransGen (Refers rules) name reached)
    (h : resolve rules visited name = .ok arguments) :
    ∃ further arguments, resolve rules (visited ++ further) reached = .ok arguments := by
  induction hr with
  | refl => exact ⟨[], arguments, by rwa [List.append_nil]⟩
  | @tail middle last _ hlast ih =>
    obtain ⟨further, held, hmiddle⟩ := ih
    obtain ⟨arguments, hok⟩ := (resolve_ok hmiddle).2.2 last hlast
    exact ⟨further ++ [middle], arguments, by rwa [← List.append_assoc]⟩

theorem not_cyclic_of_resolve {arguments : List Argument}
    (h : resolve rules visited name = .ok arguments) : ¬ TransGen (Refers rules) name name := by
  intro hcycle
  obtain ⟨reference, hrefers, hback⟩ := TransGen.head'_iff.mp hcycle
  obtain ⟨held, hreference⟩ := (resolve_ok h).2.2 reference hrefers
  obtain ⟨further, arguments, hname⟩ := resolve_reached hback hreference
  exact (resolve_ok hname).1 (List.mem_append_left _ (List.mem_append_right _
    (List.mem_singleton_self name)))

/-- The names are a walk along references whose last name alone was met before. -/
structure ClosesCycle (rules : Dictionary PluralRule) (start : String) (chain : List String) :
    Prop where
  starts : chain.head? = some start
  walks : chain.IsChain (Refers rules)
  closes : ∃ front last, chain = front ++ [last] ∧ front.Nodup ∧ last ∈ front

theorem walk_of_cyclic {visited : List String} {name : String} {e : FormatError}
    (hd : visited.Nodup) (h : resolve rules visited name = .error e)
    (hcode : e.code = "STRINGS_REFERENCE_CYCLIC") :
    ∃ walk, e = .referenceCyclic (visited ++ name :: walk) ∧
      (name :: walk).IsChain (Refers rules) ∧
      ∃ front last, visited ++ name :: walk = front ++ [last] ∧ front.Nodup ∧ last ∈ front := by
  rcases resolve_error h with ⟨hmet, rfl⟩ | ⟨-, rfl⟩ | hlocal | ⟨hnew, reference, hrefers, he⟩
  · exact ⟨[], rfl, List.isChain_singleton name, visited, name, rfl, hd, hmet⟩
  · simp [FormatError.code] at hcode
  · exact absurd hcode hlocal.notCyclic
  · have hnext : (visited ++ [name]).Nodup :=
      List.nodup_append.mpr ⟨hd, List.nodup_singleton name, fun a ha b hb hab =>
        hnew (List.mem_singleton.mp hb ▸ hab ▸ ha)⟩
    obtain ⟨walk, rfl, hwalk, hcloses⟩ := walk_of_cyclic hnext he hcode
    rw [List.append_assoc, List.singleton_append] at hcloses ⊢
    exact ⟨reference :: walk, rfl, List.isChain_cons_cons.mpr ⟨hrefers, hwalk⟩, hcloses⟩
termination_by (unvisited rules visited).length
decreasing_by
  obtain ⟨rule, hrule, -⟩ := hrefers
  exact length_unvisited_lt (by simpa using hnew) hrule

theorem reached_of_missing {visited : List String} {name : String} {e : FormatError}
    (h : resolve rules visited name = .error e) (hcode : e.code = "STRINGS_REFERENCE_MISSING") :
    ∃ missing, e = .referenceMissing missing ∧ ReflTransGen (Refers rules) name missing ∧
      rules.get? missing = none := by
  rcases resolve_error h with ⟨-, rfl⟩ | ⟨hrule, rfl⟩ | hlocal | ⟨hnew, reference, hrefers, he⟩
  · simp [FormatError.code] at hcode
  · exact ⟨name, rfl, .refl, hrule⟩
  · exact absurd hcode hlocal.notMissing
  · obtain ⟨missing, rfl, hreached, hnone⟩ := reached_of_missing he hcode
    exact ⟨missing, rfl, .head hrefers hreached, hnone⟩
termination_by (unvisited rules visited).length
decreasing_by
  obtain ⟨rule, hrule, -⟩ := hrefers
  exact length_unvisited_lt (by simpa using hnew) hrule

/-- A name that is resolved reaches only names that count and lie on no cycle. A name that is not
resolved for a cycle reaches the one that is reported, and one that is not resolved for a missing
rule reaches the name without it. -/
theorem resolve_graph (rules : Dictionary PluralRule) (name : String) :
    (∀ arguments, resolve rules [] name = .ok arguments →
        ∀ reached, ReflTransGen (Refers rules) name reached →
          Countable rules reached ∧ ¬ TransGen (Refers rules) reached reached) ∧
      (∀ e, resolve rules [] name = .error e → e.code = "STRINGS_REFERENCE_CYCLIC" →
        ∃ chain, e = .referenceCyclic chain ∧
          e.message = "Cyclic plural reference: " ++ " -> ".intercalate chain ∧
          ClosesCycle rules name chain) ∧
      (∀ e, resolve rules [] name = .error e → e.code = "STRINGS_REFERENCE_MISSING" →
        ∃ missing, e = .referenceMissing missing ∧
          e.message = s!"Plural reference \"{missing}\" is not defined." ∧
          ReflTransGen (Refers rules) name missing ∧ rules.get? missing = none) := by
  refine ⟨fun arguments h reached hr => ?_, fun e h hcode => ?_, fun e h hcode => ?_⟩
  · obtain ⟨further, held, hreached⟩ := resolve_reached hr h
    exact ⟨(resolve_ok hreached).2.1, not_cyclic_of_resolve hreached⟩
  · obtain ⟨walk, rfl, hwalk, hcloses⟩ := walk_of_cyclic List.nodup_nil h hcode
    exact ⟨name :: walk, rfl, rfl, rfl, hwalk, hcloses⟩
  · obtain ⟨missing, rfl, hreached, hnone⟩ := reached_of_missing h hcode
    exact ⟨missing, rfl, rfl, hreached, hnone⟩

def sampleRules : Dictionary PluralRule := .ofList [
  ("files", ⟨PluralRule.countType, "d",
    .ofList [("one", "a file"), ("other", "%d of %#@folders@")]⟩),
  ("folders", ⟨PluralRule.countType, "lu", .ofList [("other", "%lu folders")]⟩),
  ("loop", ⟨PluralRule.countType, "d", .ofList [("one", "%d times"), ("other", "%1$#@back@")]⟩),
  ("back", ⟨PluralRule.countType, "d", .ofList [("other", "%#@loop@")]⟩),
  ("open", ⟨PluralRule.countType, "d", .ofList [("other", "%#@nowhere@")]⟩)]

theorem resolve_graph_sample :
    resolve sampleRules [] "files" = .ok [⟨some "files", .int⟩, ⟨some "folders", .uint⟩] ∧
      Countable sampleRules "files" ∧ ¬ TransGen (Refers sampleRules) "files" "files" ∧
      resolve sampleRules [] "loop" = .error (.referenceCyclic ["loop", "back", "loop"]) ∧
      ClosesCycle sampleRules "loop" ["loop", "back", "loop"] ∧
      resolve sampleRules [] "open" = .error (.referenceMissing "nowhere") ∧
      ReflTransGen (Refers sampleRules) "open" "nowhere" := by
  have hfiles : resolve sampleRules [] "files" =
      .ok [⟨some "files", .int⟩, ⟨some "folders", .uint⟩] := by cbv
  have hloop : resolve sampleRules [] "loop" =
      .error (.referenceCyclic ["loop", "back", "loop"]) := by cbv
  have hopen : resolve sampleRules [] "open" = .error (.referenceMissing "nowhere") := by cbv
  obtain ⟨hcounts, hacyclic⟩ := (resolve_graph sampleRules "files").1 _ hfiles "files" .refl
  obtain ⟨chain, hchain, -, hcloses⟩ := (resolve_graph sampleRules "loop").2.1 _ hloop rfl
  obtain ⟨missing, hmissing, -, hreached, -⟩ := (resolve_graph sampleRules "open").2.2 _ hopen rfl
  obtain rfl := FormatError.referenceCyclic.inj hchain
  obtain rfl := FormatError.referenceMissing.inj hmissing
  exact ⟨hfiles, hcounts, hacyclic, hloop, hcloses, hopen, hreached⟩

end Format

end Accessors

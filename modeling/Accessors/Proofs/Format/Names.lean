import Accessors.Proofs.Format.Resolution
import Accessors.Proofs.Format.Unification

/-!
# Names of arguments

A property that unification keeps holds of all arguments of a text if the specifiers have it and
what the references stand for. So the arguments of a format string have their names from plural
rules: whatever is placed and unified on the way, only the rules of the entry name an argument.
-/

namespace Accessors.Format

open Record (PluralRule)

structure Argument.Stable (q : Argument → Prop) : Prop where
  unify : ∀ {a b c : Argument}, q a → q b → a.unify b = some c → q c
  unresolved : q .unresolved

def Argument.Named (p : String → Prop) (argument : Argument) : Prop :=
  ∀ name, argument.name = some name → p name

def Slots.All (q : Argument → Prop) (slots : Slots) : Prop :=
  ∀ slot ∈ slots, ∀ argument, slot = some argument → q argument

theorem Argument.stable_named (p : String → Prop) : Argument.Stable (Argument.Named p) where
  unify := by
    intro a b c ha hb h name hname
    rcases (origin_of_unify h).2 with ho | ho
    · exact ha name (ho ▸ hname)
    · exact hb name (ho ▸ hname)
  unresolved := nofun

section

variable {q : Argument → Prop} (hq : Argument.Stable q) {argument : Argument}
  {arguments : List Argument} {slots result : Slots}

include hq

theorem Argument.Stable.meets {x y z : Option Argument} (hx : ∀ a, x = some a → q a)
    (hy : ∀ b, y = some b → q b) (h : Argument.Meets x y z) : ∀ c, z = some c → q c := by
  rintro c rfl
  cases h with
  | left => exact hx c rfl
  | right => exact hy c rfl
  | both unify => exact hq.unify (hx _ rfl) (hy _ rfl) unify

theorem Argument.Stable.unifyAll {as bs cs : List Argument} (ha : ∀ a ∈ as, q a)
    (hb : ∀ b ∈ bs, q b) (h : Argument.unifyAll as bs = some cs) : ∀ c ∈ cs, q c := by
  intro c hc
  obtain ⟨i, hi⟩ := List.mem_iff_getElem?.mp hc
  exact hq.meets (fun a hai => ha a (List.mem_of_getElem? hai))
    (fun b hbi => hb b (List.mem_of_getElem? hbi)) (meets_of_unifyAll h i) c hi

theorem all_place {number distance : Nat} (hargument : q argument) (hs : slots.All q)
    (h : place number argument distance slots = .ok result) : result.All q := by
  induction distance generalizing number slots result with
  | zero =>
    match slots with
    | [] =>
      obtain rfl := Except.ok.inj h
      rintro _ hm _ rfl
      exact Option.some.inj (List.mem_singleton.mp hm) ▸ hargument
    | none :: rest =>
      obtain rfl := Except.ok.inj h
      refine List.forall_mem_cons.mpr ⟨?_, (List.forall_mem_cons.mp hs).2⟩
      rintro _ ⟨⟩
      exact hargument
    | some held :: rest =>
      obtain ⟨hheld, hrest⟩ := List.forall_mem_cons.mp hs
      rw [place] at h
      split at h
      · next unified hunify =>
        obtain rfl := Except.ok.inj h
        refine List.forall_mem_cons.mpr ⟨?_, hrest⟩
        rintro _ ⟨⟩
        exact hq.unify (hheld held rfl) hargument hunify
      · cases h
  | succ distance ih =>
    cases slots with
    | nil =>
      obtain ⟨rest, hrest, rfl⟩ := map_eq_ok_iff.mp h
      refine List.forall_mem_cons.mpr ⟨?_, ih (List.forall_mem_nil _) hrest⟩
      rintro _ ⟨⟩
    | cons slot slots =>
      obtain ⟨rest, hrest, rfl⟩ := map_eq_ok_iff.mp h
      obtain ⟨hslot, hslots⟩ := List.forall_mem_cons.mp hs
      exact List.forall_mem_cons.mpr ⟨hslot, ih hslots hrest⟩

theorem all_placeAll {start : Nat} (harguments : ∀ argument ∈ arguments, q argument)
    (hs : slots.All q) (h : placeAll arguments start slots = .ok result) : result.All q := by
  induction arguments generalizing start slots with
  | nil => exact Except.ok.inj h ▸ hs
  | cons argument rest ih =>
    obtain ⟨next, hplace, hrest⟩ := bind_eq_ok_iff.mp h
    obtain ⟨hargument, hothers⟩ := List.forall_mem_cons.mp harguments
    exact ih hothers (all_place hq hargument hs hplace) hrest

variable {resolve : String → Except FormatError (List Argument)} {owner : Option String}
  {parts : List Part} (howner : ∀ specifier, q ⟨owner, specifier⟩)
  (hresolve : ∀ name arguments, References parts name → resolve name = .ok arguments →
    ∀ argument ∈ arguments, q argument)

include howner hresolve

theorem all_fillPart {part : Part} (hpart : part ∈ parts) {next : Nat} {state : Nat × Slots}
    (hs : slots.All q) (h : fillPart resolve owner next slots part = .ok state) :
    state.2.All q := by
  match part with
  | .specifier (some position) specifier =>
    obtain ⟨slot, -, h⟩ := bind_eq_ok_iff.mp h
    obtain ⟨placed, hplace, ⟨⟩⟩ := bind_eq_ok_iff.mp h
    exact all_place hq (howner specifier) hs hplace
  | .specifier none specifier =>
    obtain ⟨placed, hplace, ⟨⟩⟩ := bind_eq_ok_iff.mp h
    exact all_place hq (howner specifier) hs hplace
  | .reference (some position) name =>
    obtain ⟨arguments, harguments, h⟩ := bind_eq_ok_iff.mp h
    obtain ⟨slot, -, h⟩ := bind_eq_ok_iff.mp h
    obtain ⟨placed, hplace, ⟨⟩⟩ := bind_eq_ok_iff.mp h
    exact all_placeAll hq (hresolve name arguments ⟨_, hpart⟩ harguments) hs hplace
  | .reference none name =>
    obtain ⟨arguments, harguments, h⟩ := bind_eq_ok_iff.mp h
    obtain ⟨placed, hplace, ⟨⟩⟩ := bind_eq_ok_iff.mp h
    exact all_placeAll hq (hresolve name arguments ⟨_, hpart⟩ harguments) hs hplace

theorem all_fill {rest : List Part} (hrest : rest ⊆ parts) {next : Nat} (hs : slots.All q)
    (h : fill resolve owner rest next slots = .ok result) : result.All q := by
  induction rest generalizing next slots with
  | nil => exact Except.ok.inj h ▸ hs
  | cons part rest ih =>
    rw [fill_cons] at h
    obtain ⟨state, hpart, hfill⟩ := bind_eq_ok_iff.mp h
    obtain ⟨hmem, hothers⟩ := List.cons_subset.mp hrest
    exact ih hothers (all_fillPart hq howner hresolve hmem hs hpart) hfill

theorem all_layout (h : layout resolve owner parts = .ok arguments) :
    ∀ argument ∈ arguments, q argument := by
  obtain ⟨slots, hfill, ⟨⟩⟩ := bind_eq_ok_iff.mp h
  have hempty : Slots.All q [] := List.forall_mem_nil _
  have hs : slots.All q :=
    all_fill hq howner hresolve (List.Subset.refl parts) hempty hfill
  intro argument ha
  obtain ⟨slot, hm, rfl⟩ := List.mem_map.mp ha
  cases slot with
  | none => exact hq.unresolved
  | some held => exact hs _ hm held rfl

end

theorem all_resolve {rules : Dictionary PluralRule} {q : String → Argument → Prop}
    (hq : ∀ name, Argument.Stable (q name))
    (howner : ∀ name rule specifier, rules.get? name = some rule → q name ⟨some name, specifier⟩)
    (hrefers : ∀ name reference argument, Refers rules name reference →
      q reference argument → q name argument)
    {visited : List String} {name : String} {arguments : List Argument}
    (h : resolve rules visited name = .ok arguments) : ∀ argument ∈ arguments, q name argument := by
  rw [resolve] at h
  split at h
  · cases h
  next hnew =>
  split at h
  · cases h
  next rule hrule =>
  split at h
  · cases h
  split at h
  · cases h
  next specifier hvalue =>
  have hlt : (unvisited rules (visited ++ [name])).length < (unvisited rules visited).length :=
    length_unvisited_lt hnew hrule
  refine foldlM_preserves (fun arguments : List Argument => ∀ argument ∈ arguments, q name argument)
    ?_ ?_ h
  · intro argument ha
    exact List.mem_singleton.mp ha ▸ howner name rule specifier hrule
  · intro text ht before after hstep hbefore
    obtain ⟨alternative, hlayout, hunify⟩ := bind_eq_ok_iff.mp hstep
    have halternative : ∀ argument ∈ alternative, q name argument :=
      all_layout (hq name) (fun specifier => howner name rule specifier hrule)
        (fun reference held hr hheld argument ha =>
          hrefers name reference argument ⟨rule, hrule, text, ht, hr⟩
            (all_resolve hq howner hrefers hheld argument ha)) hlayout
    split at hunify
    · next unified hunified =>
      obtain rfl := Except.ok.inj hunify
      exact (hq name).unifyAll hbefore halternative hunified
    · cases hunify
termination_by (unvisited rules visited).length
decreasing_by exact hlt

theorem named_resolve {rules : Dictionary PluralRule} {visited : List String} {name : String}
    {arguments : List Argument} (h : resolve rules visited name = .ok arguments) :
    ∀ argument ∈ arguments, argument.Named (· ∈ rules.keys) := by
  refine all_resolve (q := fun _ => Argument.Named (· ∈ rules.keys))
    (fun _ => Argument.stable_named _) ?_ (fun _ _ _ _ hargument => hargument) h
  rintro name rule specifier hrule _ ⟨⟩
  exact Dictionary.mem_keys_iff.mpr ⟨rule, hrule⟩

theorem named_arguments {value : String} {rules : Option (Dictionary PluralRule)}
    {arguments : List Argument} (h : Format.arguments value rules = .ok arguments) :
    ∀ argument ∈ arguments, argument.Named fun name =>
      ∃ held, rules = some held ∧ name ∈ held.keys := by
  refine all_layout (Argument.stable_named _) ?_ ?_ h
  · rintro specifier _ ⟨⟩
  · intro name found _ hfound argument ha inner hinner
    cases rules with
    | none => cases hfound
    | some held => exact ⟨held, rfl, named_resolve hfound argument ha inner hinner⟩

end Accessors.Format

import Accessors.Proofs.Format.Resolution

/-!
# What a resolution depends on

Where two resolvers give the same for every name that a text refers to, they lay it out alike. So
the resolution of a name depends only on the rules that the name can reach, and the names on the way
to it matter just if one of them can be reached: then it is met again, and the resolution fails on a
cycle; otherwise they change nothing.
-/

namespace Accessors.Format

open Record (PluralRule)
open Relation (ReflTransGen TransGen)

section Follows

variable {α β : Type} {excused : FormatError → Prop}

/-- The second run ends like the first, or with an error that is excused. -/
def Follows (excused : FormatError → Prop) (x y : Except FormatError α) : Prop :=
  y = x ∨ ∃ e, y = .error e ∧ excused e

theorem Follows.refl (x : Except FormatError α) : Follows excused x x := .inl rfl

theorem Follows.bind {x y : Except FormatError α} {f g : α → Except FormatError β}
    (h : Follows excused x y) (hnext : ∀ a, Follows excused (f a) (g a)) :
    Follows excused (x >>= f) (y >>= g) := by
  rcases h with rfl | ⟨e, rfl, he⟩
  · cases y with
    | error e => exact .refl _
    | ok a => exact hnext a
  · exact .inr ⟨e, rfl, he⟩

theorem Follows.foldlM {f g : β → α → Except FormatError β} {items : List α} (b : β)
    (h : ∀ item ∈ items, ∀ b, Follows excused (f b item) (g b item)) :
    Follows excused (items.foldlM f b) (items.foldlM g b) := by
  induction items generalizing b with
  | nil => exact .refl _
  | cons first rest ih =>
    rw [List.foldlM_cons, List.foldlM_cons]
    exact (h first (List.mem_cons_self ..) b).bind fun next =>
      ih next fun item hi => h item (List.mem_cons_of_mem _ hi)

variable {resolve resolve' : String → Except FormatError (List Argument)} {owner : Option String}
  {parts : List Part}

theorem follows_fillPart (part : Part) (next : Nat) (slots : Slots)
    (h : ∀ name, References [part] name → Follows excused (resolve name) (resolve' name)) :
    Follows excused (fillPart resolve owner next slots part)
      (fillPart resolve' owner next slots part) := by
  match part with
  | .specifier (some _) _ => exact .refl _
  | .specifier none _ => exact .refl _
  | .reference (some position) name =>
    exact (h name ⟨some position, List.mem_singleton_self _⟩).bind fun _ => .refl _
  | .reference none name =>
    exact (h name ⟨none, List.mem_singleton_self _⟩).bind fun _ => .refl _

theorem follows_fill (next : Nat) (slots : Slots)
    (h : ∀ name, References parts name → Follows excused (resolve name) (resolve' name)) :
    Follows excused (fill resolve owner parts next slots)
      (fill resolve' owner parts next slots) := by
  induction parts generalizing next slots with
  | nil => exact .refl _
  | cons part rest ih =>
    have hpart : ∀ name, References [part] name → Follows excused (resolve name) (resolve' name) :=
      fun name ⟨position, hp⟩ =>
        h name ⟨position, List.mem_cons.mpr (.inl (List.mem_singleton.mp hp))⟩
    have hrest : ∀ name, References rest name → Follows excused (resolve name) (resolve' name) :=
      fun name ⟨position, hp⟩ => h name ⟨position, List.mem_cons_of_mem _ hp⟩
    rw [fill_cons, fill_cons]
    exact (follows_fillPart part next slots hpart).bind fun state => ih state.1 state.2 hrest

theorem follows_layout
    (h : ∀ name, References parts name → Follows excused (resolve name) (resolve' name)) :
    Follows excused (layout resolve owner parts) (layout resolve' owner parts) :=
  (follows_fill 0 [] h).bind fun _ => .refl _

end Follows

variable {rules others : Dictionary PluralRule} {visited visited' : List String} {name : String}
  {excused : FormatError → Prop} {arguments : List Argument}

theorem resolve_of_mem (h : name ∈ visited) :
    resolve rules visited name = .error (.referenceCyclic (visited ++ [name])) := by
  rw [resolve, dif_pos (by simpa using h)]

theorem resolve_of_none (hnew : name ∉ visited) (hrule : rules.get? name = none) :
    resolve rules visited name = .error (.referenceMissing name) := by
  rw [resolve, dif_neg (by simpa using hnew)]
  split
  · rfl
  · next rule h => cases hrule.symm.trans h

def resolveRule (resolve : String → Except FormatError (List Argument)) (name : String)
    (rule : PluralRule) : Except FormatError (List Argument) :=
  if rule.specType ≠ PluralRule.countType then .error (.ruleUnsupported name rule.specType)
  else
    match countSpecifier? rule.valueType with
    | none => .error (.valueTypeInvalid name rule.valueType)
    | some specifier =>
      rule.cases.entries.foldlM (fun arguments (category, text) => do
        let alternative ← layout resolve (some name) (parts text)
        match Argument.unifyAll arguments alternative with
        | some unified => return unified
        | none => throw (.casesConflict name category)) [⟨some name, specifier⟩]

theorem resolve_of_some {rule : PluralRule} (hnew : name ∉ visited)
    (hrule : rules.get? name = some rule) :
    resolve rules visited name = resolveRule (resolve rules (visited ++ [name])) name rule := by
  rw [resolve, dif_neg (by simpa using hnew)]
  split
  · next h => cases hrule.symm.trans h
  · next held h =>
    obtain rfl := Option.some.inj (hrule.symm.trans h)
    rfl

theorem follows_resolveRule {resolve resolve' : String → Except FormatError (List Argument)}
    {rule : PluralRule}
    (h : ∀ text ∈ rule.cases.entries, ∀ reference, References (parts text.2) reference →
      Follows excused (resolve reference) (resolve' reference)) :
    Follows excused (resolveRule resolve name rule) (resolveRule resolve' name rule) := by
  unfold resolveRule
  split
  · exact .refl _
  · split
    · exact .refl _
    · exact Follows.foldlM _ fun text ht _ => (follows_layout (h text ht)).bind fun _ => .refl _

theorem follows_resolve (hnew : name ∉ visited) (hnew' : name ∉ visited')
    (hrule : others.get? name = rules.get? name)
    (h : ∀ reference, Refers rules name reference →
      Follows excused (resolve rules (visited ++ [name]) reference)
        (resolve others (visited' ++ [name]) reference)) :
    Follows excused (resolve rules visited name) (resolve others visited' name) := by
  cases hget : rules.get? name with
  | none =>
    rw [resolve_of_none hnew hget, resolve_of_none hnew' (hrule.trans hget)]
    exact .refl _
  | some rule =>
    rw [resolve_of_some hnew hget, resolve_of_some hnew' (hrule.trans hget)]
    exact follows_resolveRule fun text ht reference hr => h reference ⟨rule, hget, text, ht, hr⟩

/-- Each name on the way is new, so what a resolution leads to can be taken before it. -/
theorem resolution_induct (rules : Dictionary PluralRule) {motive : List String → String → Prop}
    (step : ∀ visited name, (name ∉ visited → ∀ reference, Refers rules name reference →
      motive (visited ++ [name]) reference) → motive visited name) (visited : List String)
    (name : String) : motive visited name :=
  step visited name fun _hnew reference _ =>
    resolution_induct rules step (visited ++ [name]) reference
termination_by (unvisited rules visited).length
decreasing_by
  next hrefers =>
  obtain ⟨rule, hrule, -⟩ := hrefers
  exact length_unvisited_lt (by simpa using _hnew) hrule

theorem resolve_congr
    (h : ∀ reached, ReflTransGen (Refers rules) name reached →
      others.get? reached = rules.get? reached) (visited : List String) :
    resolve others visited name = resolve rules visited name := by
  induction visited, name using resolution_induct rules with
  | step visited name ih =>
    by_cases hmet : name ∈ visited
    · rw [resolve_of_mem hmet, resolve_of_mem hmet]
    have hfollows : Follows (fun _ => False) (resolve rules visited name)
        (resolve others visited name) :=
      follows_resolve hmet hmet (h name .refl) fun reference hrefers =>
        .inl (ih hmet reference hrefers fun reached hr => h reached (.head hrefers hr))
    rcases hfollows with heq | ⟨_, _, hfalse⟩
    · exact heq
    · exact hfalse.elim

def FormatError.IsCyclic (e : FormatError) : Prop := e.code = "STRINGS_REFERENCE_CYCLIC"

/-- With other names on the way a name that is resolved is resolved alike, or a cycle is found. -/
theorem follows_visited (h : resolve rules visited name = .ok arguments) (visited' : List String) :
    Follows FormatError.IsCyclic (resolve rules visited name) (resolve rules visited' name) := by
  induction visited, name using resolution_induct rules generalizing arguments
    visited' with
  | step visited name ih =>
    obtain ⟨hnew, -, hreferences⟩ := resolve_ok h
    by_cases hmet : name ∈ visited'
    · exact .inr ⟨_, resolve_of_mem hmet, rfl⟩
    refine follows_resolve hnew hmet rfl fun reference hrefers => ?_
    obtain ⟨held, hheld⟩ := hreferences reference hrefers
    exact ih hnew reference hrefers hheld (visited' ++ [name])

theorem not_mem_of_resolve (h : resolve rules visited name = .ok arguments) {reached : String}
    (hr : ReflTransGen (Refers rules) name reached) : reached ∉ visited := by
  obtain ⟨further, held, hreached⟩ := resolve_reached hr h
  exact fun hmet => (resolve_ok hreached).1 (List.mem_append_left further hmet)

theorem reached_of_cyclic {e : FormatError} (h : resolve rules visited name = .error e)
    (he : e.IsCyclic) :
    ∃ reached, ReflTransGen (Refers rules) name reached ∧
      (reached ∈ visited ∨ TransGen (Refers rules) reached reached) := by
  induction visited, name using resolution_induct rules with
  | step visited name ih =>
    rcases resolve_error h with ⟨hmet, -⟩ | ⟨-, rfl⟩ | hlocal | ⟨hnew, reference, hrefers, herror⟩
    · exact ⟨name, .refl, .inl hmet⟩
    · simp [FormatError.IsCyclic, FormatError.code] at he
    · exact absurd he hlocal.notCyclic
    · obtain ⟨reached, hr, hmet | hcycle⟩ := ih hnew reference hrefers herror
      · rcases List.mem_append.mp hmet with hmet | hself
        · exact ⟨reached, .head hrefers hr, .inl hmet⟩
        · obtain rfl := List.mem_singleton.mp hself
          exact ⟨reached, .refl, .inr (TransGen.head' hrefers hr)⟩
      · exact ⟨reached, .head hrefers hr, .inr hcycle⟩

/-- A name that is resolved on its own is resolved alike with any names on the way that it cannot
reach, and is found to be cyclic with any others. Rules that the name cannot reach do not matter to
its resolution, whatever that ends in. -/
theorem resolve_reachable (rules : Dictionary PluralRule) (name : String) :
    (∀ arguments, resolve rules [] name = .ok arguments → ∀ visited,
        ((∀ reached, ReflTransGen (Refers rules) name reached → reached ∉ visited) →
          resolve rules visited name = .ok arguments) ∧
        ((∃ reached, ReflTransGen (Refers rules) name reached ∧ reached ∈ visited) →
          ∃ e, resolve rules visited name = .error e ∧ e.code = "STRINGS_REFERENCE_CYCLIC")) ∧
      ∀ others, (∀ reached, ReflTransGen (Refers rules) name reached →
          others.get? reached = rules.get? reached) →
        ∀ visited, resolve others visited name = resolve rules visited name := by
  refine ⟨fun arguments h visited => ⟨fun hapart => ?_, fun ⟨reached, hr, hmet⟩ => ?_⟩,
    fun others hsame visited => resolve_congr hsame visited⟩
  · rcases follows_visited h visited with heq | ⟨e, he, hcyclic⟩
    · exact heq.trans h
    · obtain ⟨reached, hr, hmet | hcycle⟩ := reached_of_cyclic he hcyclic
      · exact absurd hmet (hapart reached hr)
      · obtain ⟨further, held, hreached⟩ := resolve_reached hr h
        exact absurd hcycle (not_cyclic_of_resolve hreached)
  · rcases follows_visited h visited with heq | hcyclic
    · exact absurd hmet (not_mem_of_resolve (heq.trans h) hr)
    · exact hcyclic

theorem refers_files {reference : String} :
    Refers sampleRules "files" reference ↔ reference = "folders" := by
  have hrule : sampleRules.get? "files" = some ⟨PluralRule.countType, "d",
    .ofList [("one", "a file"), ("other", "%d of %#@folders@")]⟩ := by decide
  have hone : parts "a file" = [] := by cbv
  have hother : parts "%d of %#@folders@" =
    [.specifier none .int, .reference none "folders"] := by cbv
  have hcases : (Dictionary.ofList [("one", "a file"), ("other", "%d of %#@folders@")]).entries =
    [("one", "a file"), ("other", "%d of %#@folders@")] := by decide
  constructor
  · rintro ⟨rule, hr, text, ht, position, hp⟩
    obtain rfl := Option.some.inj (hrule.symm.trans hr)
    rw [hcases, List.mem_cons, List.mem_singleton] at ht
    rcases ht with rfl | rfl
    · simp [hone] at hp
    · have hplace : position = none ∧ reference = "folders" := by simpa [hother] using hp
      exact hplace.2
  · rintro rfl
    exact ⟨_, hrule, ("other", "%d of %#@folders@"), by simp [hcases], none, by simp [hother]⟩

theorem not_refers_folders {reference : String} : ¬ Refers sampleRules "folders" reference := by
  have hrule : sampleRules.get? "folders" = some ⟨PluralRule.countType, "lu",
    .ofList [("other", "%lu folders")]⟩ := by decide
  have hother : parts "%lu folders" = [.specifier none .uint] := by cbv
  have hcases : (Dictionary.ofList [("other", "%lu folders")]).entries =
    [("other", "%lu folders")] := by decide
  rintro ⟨rule, hr, text, ht, position, hp⟩
  obtain rfl := Option.some.inj (hrule.symm.trans hr)
  rw [hcases, List.mem_singleton] at ht
  subst ht
  simp [hother] at hp

theorem reached_files {reached : String} (hr : ReflTransGen (Refers sampleRules) "files" reached) :
    reached = "files" ∨ reached = "folders" := by
  induction hr with
  | refl => exact .inl rfl
  | tail _ hlast ih =>
    rcases ih with rfl | rfl
    · exact .inr (refers_files.mp hlast)
    · exact absurd hlast not_refers_folders

def changedRules : Dictionary PluralRule := sampleRules.insert "loop" ⟨"other", "d", .empty⟩

theorem resolve_reachable_sample :
    resolve sampleRules [] "files" = .ok [⟨some "files", .int⟩, ⟨some "folders", .uint⟩] ∧
      (∀ reached, ReflTransGen (Refers sampleRules) "files" reached → reached ∉ ["loop"]) ∧
      resolve sampleRules ["loop"] "files" =
        .ok [⟨some "files", .int⟩, ⟨some "folders", .uint⟩] ∧
      (∃ reached, ReflTransGen (Refers sampleRules) "files" reached ∧ reached ∈ ["folders"]) ∧
      (∃ e, resolve sampleRules ["folders"] "files" = .error e ∧
        e.code = "STRINGS_REFERENCE_CYCLIC") ∧
      (∀ reached, ReflTransGen (Refers sampleRules) "files" reached →
        changedRules.get? reached = sampleRules.get? reached) ∧
      resolve changedRules [] "files" = resolve sampleRules [] "files" := by
  have hfiles : resolve sampleRules [] "files" =
      .ok [⟨some "files", .int⟩, ⟨some "folders", .uint⟩] := by cbv
  have hapart : ∀ reached, ReflTransGen (Refers sampleRules) "files" reached →
      reached ∉ ["loop"] := fun reached hr => by
    rcases reached_files hr with rfl | rfl <;> decide
  have hmet : ∃ reached, ReflTransGen (Refers sampleRules) "files" reached ∧
      reached ∈ ["folders"] :=
    ⟨"folders", .single (refers_files.mpr rfl), List.mem_singleton_self _⟩
  have hsame : ∀ reached, ReflTransGen (Refers sampleRules) "files" reached →
      changedRules.get? reached = sampleRules.get? reached :=
    fun reached hr => by
      rw [changedRules, Dictionary.get?_insert, if_neg]
      rcases reached_files hr with rfl | rfl <;> decide
  obtain ⟨hresolved, hothers⟩ := resolve_reachable sampleRules "files"
  exact ⟨hfiles, hapart, (hresolved _ hfiles ["loop"]).1 hapart, hmet,
    (hresolved _ hfiles ["folders"]).2 hmet, hsame, hothers _ hsame []⟩

end Accessors.Format

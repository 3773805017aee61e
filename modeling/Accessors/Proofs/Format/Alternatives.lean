import Accessors.Proofs.Format.Names
import Accessors.Proofs.Format.Positions
import Accessors.Proofs.Format.Reachability

/-!
# What a plural rule stands for

A resolution joins the count of a rule with the layouts of the texts of its cases: it gives the
least list that has all that these have, and fails if one of them does or if they contradict each
other. So the count comes first, every other argument that a placeholder uses has its name from a
rule on the way, and the categories, which decide just the order of the cases, do not matter.
-/

namespace Accessors

namespace Record.PluralRule

def texts (rule : PluralRule) : List String := rule.cases.entries.map Prod.snd

def relabel (rename : String → String) (rule : PluralRule) : PluralRule :=
  { rule with cases := .ofList (rule.cases.entries.map fun entry => (rename entry.1, entry.2)) }

variable {rename : String → String} {rule : PluralRule} {text : String}

theorem relabel_id (rule : PluralRule) : rule.relabel id = rule := by
  have hcases : rule.cases.entries.map (fun entry => (id entry.1, entry.2)) = rule.cases.entries :=
    List.map_id' _
  have hsame : Dictionary.ofList rule.cases.entries = rule.cases :=
    Dictionary.ext (collectEntries_eq_self rule.cases.increasing)
  rw [relabel, hcases, hsame]

theorem mem_texts_relabel (hrename : Set.InjOn rename { category | category ∈ rule.cases.keys }) :
    text ∈ (rule.relabel rename).texts ↔ text ∈ rule.texts := by
  constructor
  · intro h
    obtain ⟨entry, he, rfl⟩ := List.mem_map.mp h
    obtain ⟨source, hsource, rfl⟩ := List.mem_map.mp (mem_collectEntries he)
    exact List.mem_map.mpr ⟨source, hsource, rfl⟩
  · intro h
    obtain ⟨source, hsource, rfl⟩ := List.mem_map.mp h
    have hkeys : (rule.cases.entries.map fun entry => (rename entry.1, entry.2)).map Prod.fst =
        rule.cases.keys.map rename := by
      simp [Dictionary.keys]
    have hnodup : (rule.cases.keys.map rename).Nodup :=
      rule.cases.increasing.nodup.map_on fun _ ha _ hb hab => hrename ha hb hab
    exact List.mem_map.mpr ⟨_, mem_collectEntries_of_nodup (hkeys ▸ hnodup)
      (List.mem_map_of_mem hsource), rfl⟩

end Record.PluralRule

namespace Format

open Record (PluralRule)
open Relation (ReflTransGen)

section Cases

variable {lay : String → Except FormatError (List Argument)} {conflict : String → FormatError}
  {resolve resolve' : String → Except FormatError (List Argument)} {name category text : String}
  {texts : List String} {rule other : PluralRule} {start list next found : List Argument}

def layouts (lay : String → Except FormatError (List Argument)) (texts : List String) :
    List (List Argument) := texts.filterMap fun text => (lay text).toOption

theorem layouts_cons (h : lay text = .ok list) :
    layouts lay (text :: texts) = list :: layouts lay texts := by
  rw [layouts, List.filterMap_cons, h]
  rfl

theorem mem_layouts_iff : list ∈ layouts lay texts ↔ ∃ text ∈ texts, lay text = .ok list := by
  simp only [layouts, List.mem_filterMap]
  refine exists_congr fun text => and_congr_right fun _ => ?_
  cases lay text <;> simp [Except.toOption]

theorem unifyCase_eq_ok_iff :
    (do
      let alternative ← lay text
      match Argument.unifyAll start alternative with
      | some unified => return unified
      | none => throw (conflict category)) = Except.ok next ↔
      ∃ list, lay text = .ok list ∧ Argument.unifyAll start list = some next := by
  rw [bind_eq_ok_iff]
  refine exists_congr fun list => and_congr_right fun _ => ?_
  cases Argument.unifyAll start list with
  | none => exact ⟨nofun, nofun⟩
  | some unified => exact ⟨fun h => congrArg some (Except.ok.inj h), fun h =>
      congrArg Except.ok (Option.some.inj h)⟩

theorem foldlM_cases_eq_ok_iff (lay : String → Except FormatError (List Argument))
    (conflict : String → FormatError) {entries : List (String × String)} :
    entries.foldlM (fun arguments (category, text) => do
        let alternative ← lay text
        match Argument.unifyAll arguments alternative with
        | some unified => return unified
        | none => throw (conflict category)) start = .ok found ↔
      (∀ text ∈ entries.map Prod.snd, ∃ list, lay text = .ok list) ∧
        (layouts lay (entries.map Prod.snd)).foldlM Argument.unifyAll start = some found := by
  induction entries generalizing start with
  | nil => simp [layouts, pure, Except.pure]
  | cons entry rest ih =>
    rw [List.foldlM_cons, List.map_cons, List.forall_mem_cons]
    constructor
    · intro h
      obtain ⟨next, hcase, hrest⟩ := bind_eq_ok_iff.mp h
      obtain ⟨list, hlay, hunify⟩ := unifyCase_eq_ok_iff.mp hcase
      obtain ⟨hall, hfold⟩ := ih.mp hrest
      refine ⟨⟨⟨list, hlay⟩, hall⟩, ?_⟩
      rw [layouts_cons hlay, List.foldlM_cons, hunify]
      exact hfold
    · rintro ⟨⟨⟨list, hlay⟩, hall⟩, hfold⟩
      rw [layouts_cons hlay, List.foldlM_cons, Option.bind_eq_bind,
        Option.bind_eq_some_iff] at hfold
      obtain ⟨next, hunify, hfold⟩ := hfold
      exact bind_eq_ok_iff.mpr
        ⟨next, unifyCase_eq_ok_iff.mpr ⟨list, hlay, hunify⟩, ih.mpr ⟨hall, hfold⟩⟩

def Contributes (resolve : String → Except FormatError (List Argument)) (name : String)
    (rule : PluralRule) (specifier : Specifier) (list : List Argument) : Prop :=
  list = [⟨some name, specifier⟩] ∨
    ∃ text ∈ rule.texts, layout resolve (some name) (parts text) = .ok list

theorem resolveRule_eq_ok_iff :
    resolveRule resolve name rule = .ok found ↔
      rule.specType = PluralRule.countType ∧
        ∃ specifier, countSpecifier? rule.valueType = some specifier ∧
          (∀ text ∈ rule.texts, ∃ list, layout resolve (some name) (parts text) = .ok list) ∧
          Argument.LeastBound (Contributes resolve name rule specifier) found := by
  have hlists : ∀ specifier, Contributes resolve name rule specifier = fun list =>
      list ∈ [⟨some name, specifier⟩] ::
        layouts (fun text => layout resolve (some name) (parts text)) rule.texts :=
    fun specifier => by
    funext list
    rw [List.mem_cons, mem_layouts_iff, Contributes]
  unfold resolveRule
  by_cases htype : rule.specType = PluralRule.countType
  · rw [if_neg (not_not_intro htype)]
    cases hvalue : countSpecifier? rule.valueType with
    | none => exact ⟨nofun, fun ⟨_, _, h, _⟩ => nomatch h⟩
    | some specifier =>
      refine (foldlM_cases_eq_ok_iff (fun text => layout resolve (some name) (parts text))
        (.casesConflict name)).trans ?_
      rw [Argument.foldlM_unifyAll_eq_some_iff (Argument.Joins.single _)]
      constructor
      · rintro ⟨hall, hjoins⟩
        refine ⟨htype, specifier, rfl, hall, ?_⟩
        rw [hlists, Argument.leastBound_iff_joins]
        exact hjoins.congr fun list => List.mem_cons.symm
      · rintro ⟨-, held, ⟨⟩, hall, hleast⟩
        rw [hlists, Argument.leastBound_iff_joins] at hleast
        exact ⟨hall, hleast.congr fun list => List.mem_cons⟩
  · rw [if_pos htype]
    exact ⟨nofun, fun h => absurd h.1 htype⟩

theorem follows_iff {α : Type} {x y : Except FormatError α} :
    Follows (fun _ => True) x y ↔ ∀ a, y = .ok a → x = .ok a := by
  constructor
  · rintro (rfl | ⟨e, rfl, -⟩) a ha
    · exact ha
    · cases ha
  · intro h
    cases y with
    | error e => exact .inr ⟨e, rfl, trivial⟩
    | ok a => exact .inl (h a rfl).symm

theorem layout_eq_ok_iff {owner : Option String} {parts : List Part}
    (h : ∀ reference, References parts reference → ∀ list,
      resolve' reference = .ok list ↔ resolve reference = .ok list) :
    layout resolve' owner parts = .ok found ↔ layout resolve owner parts = .ok found :=
  ⟨follows_iff.mp (follows_layout fun reference hr => follows_iff.mpr fun list =>
      (h reference hr list).mp) found,
    follows_iff.mp (follows_layout fun reference hr => follows_iff.mpr fun list =>
      (h reference hr list).mpr) found⟩

theorem resolveRule_congr (htype : other.specType = rule.specType)
    (hvalue : other.valueType = rule.valueType)
    (htexts : ∀ text, text ∈ other.texts ↔ text ∈ rule.texts)
    (h : ∀ text ∈ rule.texts, ∀ reference, References (parts text) reference → ∀ list,
      resolve' reference = .ok list ↔ resolve reference = .ok list) :
    resolveRule resolve' name other = .ok found ↔ resolveRule resolve name rule = .ok found := by
  have hlayout : ∀ text ∈ rule.texts, ∀ list,
      layout resolve' (some name) (parts text) = .ok list ↔
        layout resolve (some name) (parts text) = .ok list :=
    fun text ht list => layout_eq_ok_iff (h text ht)
  have hall : (∀ text ∈ other.texts, ∃ list, layout resolve' (some name) (parts text) = .ok list) ↔
      ∀ text ∈ rule.texts, ∃ list, layout resolve (some name) (parts text) = .ok list :=
    forall_congr' fun text => by
      rw [htexts]
      exact imp_congr_right fun ht => exists_congr (hlayout text ht)
  have hlists : ∀ specifier, Contributes resolve' name other specifier =
      Contributes resolve name rule specifier := fun specifier => by
    funext list
    refine congrArg _ (propext (exists_congr fun text => ?_))
    rw [htexts]
    exact and_congr_right fun ht => hlayout text ht list
  rw [resolveRule_eq_ok_iff, resolveRule_eq_ok_iff, htype, hvalue, hall]
  simp only [hlists]

end Cases

variable {rules others : Dictionary PluralRule} {visited : List String} {name : String}
  {found : List Argument}

theorem resolve_eq_ok_iff :
    resolve rules visited name = .ok found ↔
      name ∉ visited ∧ ∃ rule, rules.get? name = some rule ∧
        resolveRule (resolve rules (visited ++ [name])) name rule = .ok found := by
  by_cases hmet : name ∈ visited
  · rw [resolve_of_mem hmet]
    exact ⟨nofun, fun h => absurd hmet h.1⟩
  cases hrule : rules.get? name with
  | none =>
    rw [resolve_of_none hmet hrule]
    exact ⟨nofun, fun ⟨_, _, h, _⟩ => nomatch h⟩
  | some rule =>
    rw [resolve_of_some hmet hrule]
    exact ⟨fun h => ⟨hmet, rule, rfl, h⟩, fun ⟨_, held, hheld, h⟩ => Option.some.inj hheld ▸ h⟩

/-- The rules have the same names, and under each name the same texts in other categories. -/
def Relabels (rules others : Dictionary PluralRule) : Prop :=
  ∀ name, ∃ rename : String → String,
    others.get? name = (rules.get? name).map (PluralRule.relabel rename) ∧
      ∀ rule, rules.get? name = some rule →
        Set.InjOn rename { category | category ∈ rule.cases.keys }

theorem resolve_relabel (h : Relabels rules others) (visited : List String) (name : String)
    (found : List Argument) :
    resolve others visited name = .ok found ↔ resolve rules visited name = .ok found := by
  induction visited, name using resolution_induct rules generalizing found with
  | step visited name ih =>
    rw [resolve_eq_ok_iff, resolve_eq_ok_iff]
    refine and_congr_right fun hnew => ?_
    obtain ⟨rename, hother, hrename⟩ := h name
    cases hrule : rules.get? name with
    | none =>
      rw [hother, hrule]
      exact ⟨fun ⟨_, h, _⟩ => (nomatch h), fun ⟨_, h, _⟩ => (nomatch h)⟩
    | some rule =>
      have hsame : resolveRule (resolve others (visited ++ [name])) name (rule.relabel rename) =
            .ok found ↔
          resolveRule (resolve rules (visited ++ [name])) name rule = .ok found :=
        resolveRule_congr rfl rfl (fun text => PluralRule.mem_texts_relabel (hrename rule hrule))
          fun text ht reference hr list => by
            obtain ⟨entry, he, rfl⟩ := List.mem_map.mp ht
            exact ih hnew reference ⟨rule, hrule, entry, he, hr⟩ list
      rw [hother, hrule]
      simpa using hsame

def Argument.Sourced (p : String → Prop) (argument : Argument) : Prop :=
  argument.specifier ≠ .any → ∃ name, argument.name = some name ∧ p name

theorem Argument.stable_sourced (p : String → Prop) : Argument.Stable (Argument.Sourced p) where
  unify := by
    intro a b c ha hb h hc
    obtain ⟨hac, hbc⟩ := within_of_unify h
    rcases (origin_of_unify h).1 with ho | ho
    · obtain ⟨name, hname, hp⟩ := ha (ho ▸ hc)
      exact ⟨name, hac.name name hname, hp⟩
    · obtain ⟨name, hname, hp⟩ := hb (ho ▸ hc)
      exact ⟨name, hbc.name name hname, hp⟩
  unresolved := fun h => absurd rfl h

theorem sourced_resolve (h : resolve rules visited name = .ok found) :
    ∀ argument ∈ found, argument.Sourced (ReflTransGen (Refers rules) name) := by
  refine all_resolve (q := fun name => Argument.Sourced (ReflTransGen (Refers rules) name))
    (fun _ => Argument.stable_sourced _) (fun name _ _ _ _ => ⟨name, rfl, .refl⟩) ?_ h
  intro name reference argument hrefers hsourced hne
  obtain ⟨held, hheld, hreached⟩ := hsourced hne
  exact ⟨held, hheld, .head hrefers hreached⟩

theorem countSpecifier?_ne_any {valueType : String} {specifier : Specifier}
    (h : countSpecifier? valueType = some specifier) : specifier ≠ .any := by
  obtain ⟨position, hparts⟩ := countSpecifier?_eq_some h
  have hmem : Part.specifier position specifier ∈ parts ("%" ++ valueType) :=
    hparts ▸ List.mem_singleton_self _
  exact (specifier_of_mem_parts hmem).1

theorem count_of_leastBound {lists : List Argument → Prop} {specifier : Specifier}
    (hne : specifier ≠ .any) (hcount : lists [⟨some name, specifier⟩])
    (h : Argument.LeastBound lists found) : found[0]? = some ⟨some name, specifier⟩ := by
  obtain ⟨⟨held, kind⟩, hc, hw⟩ :=
    Argument.unifyAll_eq_right_iff.mp (h.upper _ hcount) 0 _ rfl
  obtain rfl : kind = specifier := hw.specifier hne
  obtain rfl : held = some name := hw.name name rfl
  exact hc

/-- A name that was not met is resolved just if its rule counts and all texts of its cases are laid
out and agree, and then to the least of the bounds of the count and the layouts. The count is the
first argument; whatever argument a placeholder uses is named after a name that can be reached. The
categories of the cases do not matter. -/
theorem resolve_result (rules : Dictionary PluralRule) (visited : List String) (name : String) :
    (∀ found, resolve rules visited name = .ok found ↔
        name ∉ visited ∧ ∃ rule specifier, rules.get? name = some rule ∧
          rule.specType = PluralRule.countType ∧
          countSpecifier? rule.valueType = some specifier ∧
          (∀ text ∈ rule.texts, ∃ list,
            layout (resolve rules (visited ++ [name])) (some name) (parts text) = .ok list) ∧
          Argument.LeastBound
            (Contributes (resolve rules (visited ++ [name])) name rule specifier) found) ∧
      (∀ found, resolve rules visited name = .ok found →
        (∃ rule specifier, rules.get? name = some rule ∧
          countSpecifier? rule.valueType = some specifier ∧ specifier ≠ .any ∧
          found[0]? = some ⟨some name, specifier⟩) ∧
        ∀ argument ∈ found, argument.specifier ≠ .any →
          ∃ held, argument.name = some held ∧ ReflTransGen (Refers rules) name held) ∧
      ∀ others, Relabels rules others → ∀ found,
        resolve others visited name = .ok found ↔ resolve rules visited name = .ok found := by
  refine ⟨fun found => ?_, fun found h => ⟨?_, sourced_resolve h⟩,
    fun others h found => resolve_relabel h visited name found⟩
  · rw [resolve_eq_ok_iff]
    refine and_congr_right fun _ => exists_congr fun rule => ?_
    rw [resolveRule_eq_ok_iff]
    exact ⟨fun ⟨hrule, htype, specifier, h⟩ => ⟨specifier, hrule, htype, h⟩,
      fun ⟨specifier, hrule, htype, h⟩ => ⟨hrule, htype, specifier, h⟩⟩
  · obtain ⟨-, rule, hrule, h⟩ := resolve_eq_ok_iff.mp h
    obtain ⟨-, specifier, hvalue, -, hleast⟩ := resolveRule_eq_ok_iff.mp h
    have hne := countSpecifier?_ne_any hvalue
    exact ⟨rule, specifier, hrule, hvalue, hne, count_of_leastBound hne (.inl rfl) hleast⟩

def filesRule : PluralRule :=
  ⟨PluralRule.countType, "d", .ofList [("one", "a file"), ("other", "%d of %#@folders@")]⟩

def laterCategory (category : String) : String := if category = "one" then "zero" else category

def relabelledRules : Dictionary PluralRule :=
  sampleRules.insert "files" (filesRule.relabel laterCategory)

theorem relabels_sample : Relabels sampleRules relabelledRules := by
  have hfiles : sampleRules.get? "files" = some filesRule := by decide
  have hkeys : filesRule.cases.keys = ["one", "other"] := by decide
  intro name
  rw [relabelledRules, Dictionary.get?_insert]
  by_cases hname : name = "files"
  · subst hname
    refine ⟨laterCategory, by rw [if_pos rfl, hfiles]; rfl, fun rule hrule => ?_⟩
    obtain rfl := Option.some.inj (hfiles.symm.trans hrule)
    intro a ha b hb hab
    have hcategory : ∀ category, category ∈ filesRule.cases.keys →
        category = "one" ∨ category = "other" := by simp [hkeys]
    rcases hcategory a ha with rfl | rfl <;> rcases hcategory b hb with rfl | rfl <;>
      revert hab <;> decide
  · refine ⟨id, ?_, fun rule _ => Set.injOn_id _⟩
    rw [if_neg hname]
    cases sampleRules.get? name with
    | none => rfl
    | some rule => exact congrArg some (PluralRule.relabel_id rule).symm

theorem resolve_result_files :
    resolve sampleRules [] "files" = .ok [⟨some "files", .int⟩, ⟨some "folders", .uint⟩] ∧
      Relabels sampleRules relabelledRules ∧
      (relabelledRules.get? "files").map (fun rule => rule.cases.keys) = some ["other", "zero"] ∧
      resolve relabelledRules [] "files" = .ok [⟨some "files", .int⟩, ⟨some "folders", .uint⟩] ∧
      ∃ held, some "folders" = some held ∧ ReflTransGen (Refers sampleRules) "files" held := by
  have hfiles : resolve sampleRules [] "files" =
      .ok [⟨some "files", .int⟩, ⟨some "folders", .uint⟩] := by cbv
  obtain ⟨-, hresult, hrelabel⟩ := resolve_result sampleRules [] "files"
  exact ⟨hfiles, relabels_sample, by decide, (hrelabel _ relabels_sample _).mpr hfiles,
    (hresult _ hfiles).2 ⟨some "folders", .uint⟩ (by simp) (by decide)⟩

end Format

end Accessors

import Accessors.Proofs.Format.Names
import Accessors.Proofs.Namespace.Strings

/-!
# Names of parameters

A parameter is named by the identifier of its argument's name or by its place. An identifier is only
given if it was not given before, but the name of a place is given in any case. So two parameters of
a function share a name just where the identifier of a plural rule is the name of a later place.
-/

namespace Accessors.Namespace

open Format (Argument)
open Identifier (ofName)
open Record (PluralRule StringEntry StringTable)
open Accessors.Symbol (Leaf Node Parameter)

def placeName (index : Nat) : String := s!"value{index + 1}"

theorem toList_placeName (index : Nat) :
    (placeName index).toList = "value".toList ++ Nat.toDigits 10 (index + 1) := by
  simp [placeName, toString, Nat.repr]

theorem placeName_ne (index : Nat) : placeName index ≠ "" := by
  intro h
  have hlist := congrArg String.toList h
  rw [toList_placeName] at hlist
  cases hlist

theorem placeName_injective {i j : Nat} (h : placeName i = placeName j) : i = j := by
  have hlist := congrArg String.toList h
  rw [toList_placeName, toList_placeName] at hlist
  have := toDigits_injective (List.append_cancel_left hlist)
  omega

section

variable {used : List String} {index : Nat} {argument : Argument} {arguments : List Argument}

theorem parameterName_cases (used : List String) (index : Nat) (argument : Argument) :
    parameterName used index argument = placeName index ∨
      ∃ name, argument.name = some name ∧ parameterName used index argument = ofName name ∧
        ofName name ≠ "" ∧ ofName name ∉ used := by
  unfold parameterName
  cases hname : argument.name with
  | none => exact .inl rfl
  | some name =>
    dsimp only
    split
    · exact .inl rfl
    · next h =>
      rw [not_or] at h
      exact .inr ⟨name, rfl, rfl, h.1, by simpa using h.2⟩

theorem parameterName_ne (used : List String) (index : Nat) (argument : Argument) :
    parameterName used index argument ≠ "" := by
  rcases parameterName_cases used index argument with h | ⟨name, -, h, hne, -⟩
  · exact h ▸ placeName_ne index
  · exact h ▸ hne

theorem name_parametersFrom {i : Nat} {parameter : Parameter}
    (h : (parametersFrom used index arguments)[i]? = some parameter) :
    ∃ argument taken, arguments[i]? = some argument ∧
      parameter.name = parameterName taken (index + i) argument ∧ (∀ name ∈ used, name ∈ taken) ∧
      ∀ j < i, ∀ earlier : Parameter, (parametersFrom used index arguments)[j]? = some earlier →
        earlier.name ∈ taken := by
  induction arguments generalizing used index i with
  | nil => cases h
  | cons first rest ih =>
    rw [parametersFrom] at h ⊢
    cases i with
    | zero =>
      obtain rfl := Option.some.inj h
      exact ⟨first, used, rfl, rfl, fun _ => id, fun j hj => absurd hj (Nat.not_lt_zero j)⟩
    | succ i =>
      obtain ⟨argument, taken, ha, hname, htaken, hearlier⟩ := ih h
      refine ⟨argument, taken, ha, ?_, fun name hn => htaken name (List.mem_cons_of_mem _ hn), ?_⟩
      · rw [hname, Nat.add_right_comm, Nat.add_assoc]
      · intro j hj earlier he
        cases j with
        | zero =>
          obtain rfl := Option.some.inj he
          exact htaken _ (List.mem_cons_self ..)
        | succ j => exact hearlier j (Nat.lt_of_succ_lt_succ hj) earlier he

end

/-- No name is empty, and of two equal names the later is that of its place, and the earlier the
identifier of one of the rules. -/
structure Distinguished (rules : String → Prop) (parameters : List Parameter) : Prop where
  nonempty : ∀ parameter ∈ parameters, parameter.name ≠ ""
  clash : ∀ (i j : Nat) (earlier later : Parameter), i < j → parameters[i]? = some earlier →
    parameters[j]? = some later → earlier.name = later.name →
      later.name = placeName j ∧ ∃ rule, rules rule ∧ ofName rule = placeName j

theorem Distinguished.nodup {rules : String → Prop} {parameters : List Parameter}
    (h : Distinguished rules parameters)
    (hfree : ∀ rule, rules rule → ∀ place, ofName rule ≠ placeName place) :
    (parameters.map Parameter.name).Nodup := by
  rw [List.nodup_iff_getElem?_ne_getElem?]
  intro i j hlt hj he
  rw [List.length_map] at hj
  have hi : i < parameters.length := hlt.trans hj
  simp only [List.getElem?_map, List.getElem?_eq_getElem hi, List.getElem?_eq_getElem hj,
    Option.map_some, Option.some.injEq] at he
  obtain ⟨-, rule, hrule, hname⟩ := h.clash i j _ _ hlt (List.getElem?_eq_getElem hi)
    (List.getElem?_eq_getElem hj) he
  exact hfree rule hrule j hname

theorem distinguished_parameters {rules : String → Prop} {arguments : List Argument}
    (hnamed : ∀ argument ∈ arguments, argument.Named rules) :
    Distinguished rules (parameters arguments) where
  nonempty := by
    intro parameter hp
    obtain ⟨i, hi⟩ := List.mem_iff_getElem?.mp hp
    obtain ⟨argument, taken, -, hname, -⟩ := name_parametersFrom hi
    exact hname ▸ parameterName_ne taken _ argument
  clash := by
    intro i j earlier later hlt hi hj he
    obtain ⟨argument, taken, -, hlater, -, hearlier⟩ := name_parametersFrom hj
    obtain ⟨source, before, hs, hfirst, -⟩ := name_parametersFrom hi
    rw [Nat.zero_add] at hlater hfirst
    have hplace : later.name = placeName j := by
      rcases parameterName_cases taken j argument with h | ⟨name, -, h, -, hnew⟩
      · exact hlater.trans h
      · have htaken := hearlier i hlt earlier hi
        rw [he, hlater, h] at htaken
        exact absurd htaken hnew
    refine ⟨hplace, ?_⟩
    rcases parameterName_cases before i source with h | ⟨name, hname, h, -⟩
    · have hsame := placeName_injective (h.symm.trans (hfirst.symm.trans (he.trans hplace)))
      omega
    · refine ⟨name, hnamed source (List.mem_of_getElem? hs) name hname, ?_⟩
      exact h.symm.trans (hfirst.symm.trans (he.trans hplace))

def HasRule (records : List StringTable) (rule : String) : Prop :=
  ∃ record ∈ records, ∃ key entry rules, record.entries.get? key = some entry ∧
    entry.pluralRules = some rules ∧ rule ∈ rules.keys

theorem exists_record_of_localized? {records : List StringTable} {table key : String}
    {locale : Locale} {entry : StringEntry}
    (h : localized? records table locale key = some entry) :
    ∃ record ∈ records, record.entries.get? key = some entry := by
  have hmem : entry ∈ definitions records table locale key := by
    unfold localized? settled? at h
    rcases Option.or_eq_some_iff.mp h with h | ⟨-, h⟩
    · exact List.mem_of_find?_eq_some h
    · exact List.mem_of_head? h
  obtain ⟨record, hr, hget⟩ := List.mem_filterMap.mp hmem
  exact ⟨record, (List.mem_filter.mp hr).1, hget⟩

theorem parameters_of_mem_leaves {context : TableContext} {key : String} {leaf : Leaf}
    {found : List Parameter} (h : leaf ∈ (context.leaves key).value)
    (hshape : leaf.shape = .function found) :
    ∃ arguments, argumentsOf key context.table.name (context.entriesOf key) = .ok arguments ∧
      found = parameters arguments := by
  unfold TableContext.leaves at h
  split at h
  · cases h
  · cases h
  · rw [List.mem_singleton.mp h] at hshape
    cases hshape
  · next arguments fallback _ harguments _ =>
    simp only [Noted.pure_value, List.mem_cons, List.not_mem_nil, or_false] at h
    rcases h with rfl | rfl
    · cases hshape
    · exact ⟨arguments, harguments, (Symbol.Shape.function.inj hshape).symm⟩

theorem hasRule_of_argumentsOf {options : Options} {records : List StringTable}
    {table : LocalizedTable} (ht : table ∈ (collectTables records).value) {key : String}
    {arguments : List Argument}
    (h : argumentsOf key table.name ((contextOf options table).entriesOf key) = .ok arguments) :
    ∀ argument ∈ arguments, argument.Named (HasRule records) := by
  intro argument ha name hname
  obtain ⟨i, hi⟩ := List.mem_iff_getElem?.mp ha
  obtain ⟨list, source, ⟨entry, hentry, htakes⟩, hs, hsource⟩ := (argumentsOf_ok h).2.1.name hi
  obtain ⟨rules, hrules, hrule⟩ := Format.named_arguments htakes source
    (List.mem_of_getElem? hs) name (hsource.trans hname)
  obtain ⟨variant, hv, hget⟩ := TableContext.among_entriesOf_iff.mp hentry
  obtain ⟨record, hr, hheld⟩ := exists_record_of_localized?
    (((collectTables_represents records).exists_variant_iff ht).mp ⟨variant, hv, rfl, hget⟩)
  exact ⟨record, hr, key, entry, rules, hheld, hrules, hrule⟩

theorem exists_key_of_has {options : Options} {records : List StringTable} {path : List String}
    {leaf : Leaf} (h : ((strings options records).value.node "string").Has path leaf) :
    ∃ table ∈ (collectTables records).value, ∃ key,
      leaf ∈ ((contextOf options table).leaves key).value := by
  rw [value_strings] at h
  obtain ⟨table, ht, below, h⟩ := exists_child_of_has h
  rw [value_tableContents] at h
  have hchildless : ∀ member ∈ keyMembers options table, member.contents.value.children = [] := by
    intro member hm
    obtain ⟨key, -, rfl⟩ := List.mem_map.mp hm
    rfl
  have hleaf := Contents.has_of_children_eq_nil (children_assemble_eq_nil _ _ hchildless) h
  obtain ⟨named, hnamed, hleaf⟩ := mem_leaves_assemble.mp hleaf
  obtain ⟨key, -, hkey⟩ := List.mem_map.mp (mem_keptMembers hnamed).1
  rw [← hkey, TableContext.leaves_member] at hleaf
  exact ⟨table, ht, key, hleaf⟩

/-- The parameters of every function are distinguished, so their names are distinct if no plural
rule has the name of a place as its identifier. -/
theorem strings_parameters (options : Options) (records : List StringTable) (path : List String)
    (leaf : Leaf) (parameters : List Parameter)
    (hleaf : ((strings options records).value.node "string").Has path leaf)
    (hshape : leaf.shape = .function parameters) :
    Distinguished (HasRule records) parameters ∧
      ((∀ rule, HasRule records rule → ∀ place, ofName rule ≠ placeName place) →
        (parameters.map Parameter.name).Nodup) := by
  obtain ⟨table, ht, key, hleaf⟩ := exists_key_of_has hleaf
  obtain ⟨arguments, harguments, rfl⟩ := parameters_of_mem_leaves hleaf hshape
  have hdistinguished := distinguished_parameters (hasRule_of_argumentsOf ht harguments)
  exact ⟨hdistinguished, hdistinguished.nodup⟩

def countTables (rule : String) : List StringTable := [
  ⟨"Main", .language "en", .ofList [("left", ⟨"%#@" ++ rule ++ "@ of %d", none,
    some (.ofList [(rule, ⟨PluralRule.countType, "d", .empty⟩)])⟩)]⟩]

theorem has_of_mem_children {options : Options} {records : List StringTable} {child : Node}
    {leaf : Leaf} (hc : child ∈ (strings options records).value.children)
    (hl : leaf ∈ child.leaves) :
    ((strings options records).value.node "string").Has [child.name] leaf :=
  ⟨child, ⟨child, by rwa [Contents.children_node], rfl, rfl⟩, hl⟩

theorem hasRule_countTables {rule name : String} (h : HasRule (countTables rule) name) :
    name = rule := by
  obtain ⟨record, hr, key, entry, rules, hget, hrules, hname⟩ := h
  rw [List.mem_singleton.mp hr] at hget
  have hentry := List.mem_singleton.mp (Dictionary.get?_eq_some_iff.mp hget)
  rw [show entry = _ from (Prod.ext_iff.mp hentry).2] at hrules
  obtain rfl := Option.some.inj hrules
  exact List.mem_singleton.mp hname

theorem strings_parameters_share : ∃ path leaf parameters,
    ((strings .default (countTables "share")).value.node "string").Has path leaf ∧
      leaf.shape = .function parameters ∧
      parameters.map Parameter.name = ["share", "value2"] ∧
      (parameters.map Parameter.name).Nodup := by
  obtain ⟨child, hc, leaf, hl, hshape⟩ : ∃ child ∈
      (strings .default (countTables "share")).value.children, ∃ leaf ∈ child.leaves,
        leaf.shape = .function [.unlabeled "share" "Int", .unlabeled "value2" "Int"] := by
    decide +kernel
  have hleaf := has_of_mem_children hc hl
  refine ⟨_, leaf, _, hleaf, hshape, rfl, ?_⟩
  refine (strings_parameters .default _ _ leaf _ hleaf hshape).2 fun rule hrule place he => ?_
  have hname : ofName "share" = "share" := by decide +kernel
  rw [hasRule_countTables hrule, hname] at he
  have hlist := congrArg String.toList he
  rw [toList_placeName] at hlist
  cases hlist

/-- With a rule of the name of the second place both parameters get this name. -/
theorem exists_equal_parameters :
    ¬ ∀ (options : Options) (records : List StringTable) (path : List String) (leaf : Leaf)
      (parameters : List Parameter),
        ((strings options records).value.node "string").Has path leaf →
          leaf.shape = .function parameters → (parameters.map Parameter.name).Nodup := by
  intro h
  obtain ⟨child, hc, leaf, hl, hshape⟩ : ∃ child ∈
      (strings .default (countTables "value2")).value.children, ∃ leaf ∈ child.leaves,
        leaf.shape = .function [.unlabeled "value2" "Int", .unlabeled "value2" "Int"] := by
    decide +kernel
  exact absurd (h _ _ _ leaf _ (has_of_mem_children hc hl) hshape) (by decide)

end Accessors.Namespace

import Accessors.Format.Layout
import Accessors.Record.StringTable

/-!
# Resolution of plural references

A reference stands for the arguments of its plural rule: the count, which has the rule's name, and
whatever the texts of the cases take besides. These may refer to further rules. The names on the way
are kept, so a rule that refers to itself in the end is found out; as a name is never entered twice,
resolution ends.
-/

namespace Accessors.Format

open Record (PluralRule)

def countSpecifier? (valueType : String) : Option Specifier :=
  match parts ("%" ++ valueType) with
  | [.specifier _ specifier] => some specifier
  | _ => none

def unvisited (rules : Dictionary PluralRule) (visited : List String) : List String :=
  rules.keys.filter (! visited.contains ·)

theorem unvisited_append_singleton (rules : Dictionary PluralRule) (visited : List String)
    (name : String) :
    unvisited rules (visited ++ [name]) = (unvisited rules visited).filter (· != name) := by
  rw [unvisited, unvisited, List.filter_filter]
  refine List.filter_congr fun key _ => ?_
  by_cases hkey : key = name <;> simp [hkey]

theorem length_unvisited_lt {rules : Dictionary PluralRule} {visited : List String} {name : String}
    {rule : PluralRule} (hv : ¬ visited.contains name) (hr : rules.get? name = some rule) :
    (unvisited rules (visited ++ [name])).length < (unvisited rules visited).length := by
  have hkey : name ∈ rules.keys := Dictionary.mem_keys_iff.mpr ⟨rule, hr⟩
  have hname : name ∈ unvisited rules visited := List.mem_filter.mpr ⟨hkey, by simpa using hv⟩
  rw [unvisited_append_singleton]
  exact List.length_filter_lt_length_iff_exists.mpr ⟨name, hname, by simp⟩

/-- The arguments of a rule, when the rules on the way to it are `visited`. -/
def resolve (rules : Dictionary PluralRule) (visited : List String) (name : String) :
    Except FormatError (List Argument) :=
  if _hv : visited.contains name then .error (.referenceCyclic (visited ++ [name]))
  else
    match _hr : rules.get? name with
    | none => .error (.referenceMissing name)
    | some rule =>
      if rule.specType ≠ PluralRule.countType then .error (.ruleUnsupported name rule.specType)
      else
        match countSpecifier? rule.valueType with
        | none => .error (.valueTypeInvalid name rule.valueType)
        | some specifier =>
          rule.cases.entries.foldlM (fun arguments (category, text) => do
            let alternative ← layout (fun reference => resolve rules (visited ++ [name]) reference)
              (some name) (parts text)
            match Argument.unifyAll arguments alternative with
            | some unified => return unified
            | none => throw (.casesConflict name category)) [⟨some name, specifier⟩]
termination_by (unvisited rules visited).length
decreasing_by exact length_unvisited_lt _hv _hr

def arguments (value : String) (rules : Option (Dictionary PluralRule)) :
    Except FormatError (List Argument) :=
  let reference := match rules with
    | none => fun name => .error (.referenceWithoutRules name)
    | some rules => resolve rules []
  layout reference none (parts value)

end Accessors.Format

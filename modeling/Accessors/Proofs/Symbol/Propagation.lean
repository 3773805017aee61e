import Accessors.Proofs.Symbol.Validation

/-!
# Passing validation upwards on any tree

On any tree, with siblings of one name, flags that no validation backs, empty validations or steps
that run children already, passing validation upwards is a closure: it keeps all that is there and
adds the steps that run the children which can be validated, and a second pass adds nothing. Nodes
are told apart by their places, as names may repeat.
-/

namespace Accessors.Symbol

variable {own steps : List Step}

theorem addMissing_cons (own : List Step) (step : Step) (steps : List Step) :
    addMissing own (step :: steps) =
      addMissing (if own.contains step then own else own ++ [step]) steps := rfl

theorem mem_addMissing_iff {step : Step} :
    step ∈ addMissing own steps ↔ step ∈ own ∨ step ∈ steps := by
  induction steps generalizing own with
  | nil => simp [addMissing]
  | cons first rest ih =>
    rw [addMissing_cons, ih, List.mem_cons]
    split
    · next hm =>
      -- A step that is there is not added, and it is not lost either.
      have hfirst : first ∈ own := List.contains_iff_mem.mp hm
      constructor
      · exact Or.imp_right .inr
      · rintro (h | rfl | h)
        · exact .inl h
        · exact .inl hfirst
        · exact .inr h
    · rw [List.mem_append, List.mem_singleton, or_assoc]

theorem prefix_addMissing (own steps : List Step) : own <+: addMissing own steps := by
  induction steps generalizing own with
  | nil => exact List.prefix_refl own
  | cons step rest ih =>
    rw [addMissing_cons]
    split
    · exact ih own
    · exact (List.prefix_append own [step]).trans (ih _)

theorem addMissing_eq_self (h : ∀ step ∈ steps, step ∈ own) : addMissing own steps = own := by
  induction steps with
  | nil => rfl
  | cons step rest ih =>
    obtain ⟨hstep, hrest⟩ := List.forall_mem_cons.mp h
    rw [addMissing_cons, if_pos (List.contains_iff_mem.mpr hstep), ih hrest]

theorem mem_stepsOf_joinValidation_iff {own : Option (List Step)} {step : Step} :
    step ∈ stepsOf (joinValidation own steps) ↔ step ∈ stepsOf own ∨ step ∈ steps := by
  unfold joinValidation
  cases steps with
  | nil => simp
  | cons first rest =>
    rw [if_neg (by simp)]
    cases own with
    | none => simp [stepsOf]
    | some held => exact mem_addMissing_iff

theorem joinValidation_joinValidation (own : Option (List Step)) (steps : List Step) :
    joinValidation (joinValidation own steps) steps = joinValidation own steps := by
  cases steps with
  | nil => rfl
  | cons first rest =>
    cases hjoined : joinValidation own (first :: rest) with
    | none =>
      have hsome := (isSome_joinValidation own (first :: rest)).mpr (.inr (by simp))
      rw [hjoined] at hsome
      cases hsome
    | some joined =>
      have hall : ∀ step ∈ first :: rest, step ∈ joined := fun step hs => by
        have hm : step ∈ stepsOf (joinValidation own (first :: rest)) :=
          mem_stepsOf_joinValidation_iff.mpr (.inr hs)
        rwa [hjoined] at hm
      exact congrArg some (addMissing_eq_self hall)

theorem exists_append_of_joinValidation (held steps : List Step) :
    ∃ added, joinValidation (some held) steps = some (held ++ added) := by
  unfold joinValidation
  split
  · exact ⟨[], by rw [List.append_nil]⟩
  · obtain ⟨added, hadded⟩ := prefix_addMissing held steps
    exact ⟨added, congrArg some hadded.symm⟩

namespace Node

theorem propagate_eq (node : Node) :
    node.propagate = ⟨node.name, node.leaves, node.children.map propagate,
      joinValidation node.validation (invocations (node.children.map propagate)),
      node.validatable ||
        (joinValidation node.validation (invocations (node.children.map propagate))).isSome⟩ := by
  cases node with
  | mk name leaves children validation validatable => rw [propagate, propagateAll_eq_map]

theorem propagate_propagate (root : Node) : root.propagate.propagate = root.propagate := by
  induction root using induct with
  | node node ih =>
    have hchildren : (node.children.map propagate).map propagate = node.children.map propagate := by
      rw [List.map_map]
      exact List.map_congr_left ih
    rw [propagate_eq node.propagate, children_propagate, hchildren, validation_propagate,
      joinValidation_joinValidation, validatable_propagate, validation_propagate, Bool.or_assoc,
      Bool.or_self, name_propagate, leaves_propagate, ← propagate_eq]

def at? : List Nat → Node → Option Node
  | [], root => some root
  | i :: place, root => root.children[i]?.bind (at? place)

theorem at?_propagate (place : List Nat) (root : Node) :
    root.propagate.at? place = (root.at? place).map propagate := by
  induction place generalizing root with
  | nil => rfl
  | cons i place ih =>
    rw [at?, at?, children_propagate, List.getElem?_map]
    cases root.children[i]? with
    | none => rfl
    | some child => exact ih child

/-- What a node keeps, and what it gains, as validation is passed upwards: its name, leaves and
children stay in place, its steps stay in front, and each child that can be validated is run. -/
structure PassedTo (before after : Node) : Prop where
  name : after.name = before.name
  leaves : after.leaves = before.leaves
  names : after.children.map Node.name = before.children.map Node.name
  kept : ∀ steps, before.validation = some steps →
    ∃ added, after.validation = some (steps ++ added)
  steps : ∀ step, step ∈ stepsOf after.validation ↔ step ∈ stepsOf before.validation ∨
    ∃ child ∈ after.children, child.validatable = true ∧ step = .invokeChild child.name
  flagged : before.validatable = true → after.validatable = true
  validatable : after.validatable = (before.validatable || after.validation.isSome)

theorem passedTo_propagate (node : Node) : node.PassedTo node.propagate where
  name := name_propagate node
  leaves := leaves_propagate node
  names := by simp [Function.comp_def]
  kept := fun steps hs => by
    rw [validation_propagate, hs]
    exact exists_append_of_joinValidation steps _
  steps := fun step => by
    rw [validation_propagate, mem_stepsOf_joinValidation_iff, mem_invocations_iff,
      children_propagate]
  flagged := fun h => by rw [validatable_propagate, h, Bool.true_or]
  validatable := validatable_propagate node

def Quiet (node : Node) : Prop := node.validatable = false ∧ node.validation = none

theorem propagate_eq_self {root : Node} (h : root.Throughout Quiet) : root.propagate = root := by
  induction root using induct with
  | node node ih =>
    obtain ⟨⟨hflag, hnone⟩, hbelow⟩ := throughout_iff.mp h
    have hchildren : node.children.map propagate = node.children :=
      (List.map_congr_left (g := id) fun child hc => ih child hc (hbelow child hc)).trans
        (List.map_id _)
    have hinvoked : invocations node.children = [] := by
      refine List.map_eq_nil_iff.mpr (List.filter_eq_nil_iff.mpr fun child hc hv => ?_)
      rw [(hbelow child hc [] child rfl).1] at hv
      cases hv
    rw [propagate_eq, hchildren, hinvoked]
    cases node with
    | mk name leaves children validation validatable =>
      cases hflag
      cases hnone
      rfl

/-- A second pass changes nothing; at each place stands the node of before with what it gains; and
what has no validation anywhere stays as it is. -/
theorem propagate_closure (root : Node) :
    root.propagate.propagate = root.propagate ∧
      (∀ place, root.propagate.at? place = none ↔ root.at? place = none) ∧
      (∀ place node, root.at? place = some node →
        ∃ after, root.propagate.at? place = some after ∧ node.PassedTo after) ∧
      ∀ place node, root.at? place = some node → node.Throughout Quiet →
        root.propagate.at? place = some node := by
  refine ⟨propagate_propagate root, fun place => ?_, fun place node hn => ?_,
    fun place node hn hq => ?_⟩
  · rw [at?_propagate, Option.map_eq_none_iff]
  · exact ⟨node.propagate, by rw [at?_propagate, hn]; rfl, passedTo_propagate node⟩
  · rw [at?_propagate, hn, Option.map_some, propagate_eq_self hq]

example :
    let children : List Node := [⟨"a", [], [], none, true⟩, ⟨"a", [], [], some [], false⟩]
    (Node.mk "R" [] children none false).propagate.validation =
        some [.invokeChild "a", .invokeChild "a"] ∧
      (Node.mk "R" [] children (some [.invokeChild "a"]) false).propagate.validation =
        some [.invokeChild "a"] ∧
      (Node.mk "R" [] children none false).propagate.children =
        [⟨"a", [], [], none, true⟩, ⟨"a", [], [], some [], true⟩] := by
  decide

end Node

end Accessors.Symbol

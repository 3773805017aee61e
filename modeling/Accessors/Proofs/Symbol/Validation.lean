import Accessors.Proofs.Symbol.Path

/-!
# What a validation does

`run` carries a validation out: a check gives its expression, and a step that runs a child gives
what the validation of that child gives. `allChecks` are the checks of a node and of all nodes below
it, a node before its children. In a tree whose validations hold only checks, as the namespaces
build it, passing validation upwards makes the root's validation run exactly these.
-/

namespace Accessors.Symbol

theorem mem_invocations_iff {children : List Node} {step : Step} :
    step ∈ invocations children ↔
      ∃ child ∈ children, child.validatable = true ∧ step = .invokeChild child.name := by
  simp only [invocations, List.mem_map, List.mem_filter, and_assoc]
  exact exists_congr fun child => and_congr_right fun _ => and_congr_right fun _ => eq_comm

theorem nodup_invocations {children : List Node} (hd : (children.map Node.name).Nodup) :
    (invocations children).Nodup := by
  have hsub : ((children.filter (·.validatable)).map Node.name).Nodup :=
    hd.sublist (List.filter_sublist.map Node.name)
  have hmap : invocations children =
      ((children.filter (·.validatable)).map Node.name).map Step.invokeChild := by
    simp [invocations]
  rw [hmap]
  refine List.Pairwise.map _ (fun a b hab h => ?_) hsub
  exact hab (Step.invokeChild.inj h)

theorem addMissing_eq_append {own steps : List Step} (hn : steps.Nodup)
    (hd : ∀ step ∈ steps, step ∉ own) : addMissing own steps = own ++ steps := by
  unfold addMissing
  induction steps generalizing own with
  | nil => simp
  | cons step rest ih =>
    obtain ⟨hstep, hrest⟩ := List.nodup_cons.mp hn
    have hfresh : own.contains step = false := by simpa using hd step (List.mem_cons_self ..)
    rw [List.foldl_cons, hfresh, if_neg Bool.false_ne_true, ih hrest, List.append_assoc]
    · rfl
    · intro other ho hm
      rcases List.mem_append.mp hm with hm | hm
      · exact hd other (List.mem_cons_of_mem _ ho) hm
      · exact hstep (List.mem_singleton.mp hm ▸ ho)

def stepsOf (validation : Option (List Step)) : List Step := validation.getD []

def ChecksOnly (steps : List Step) : Prop := ∀ step ∈ steps, ∃ expression, step = .check expression

theorem stepsOf_joinValidation {own : Option (List Step)} {children : List Node}
    (hown : ChecksOnly (stepsOf own)) (hd : (children.map Node.name).Nodup) :
    stepsOf (joinValidation own (invocations children)) = stepsOf own ++ invocations children := by
  unfold joinValidation
  cases hinv : invocations children with
  | nil => simp
  | cons step rest =>
    rw [if_neg (by simp), ← hinv]
    cases own with
    | none => rfl
    | some steps =>
      refine addMissing_eq_append (nodup_invocations hd) fun step hs hm => ?_
      obtain ⟨child, -, -, rfl⟩ := mem_invocations_iff.mp hs
      obtain ⟨expression, he⟩ := hown _ hm
      cases he

theorem isSome_joinValidation (own : Option (List Step)) (invoked : List Step) :
    (joinValidation own invoked).isSome = true ↔ own.isSome = true ∨ invoked ≠ [] := by
  unfold joinValidation
  cases invoked with
  | nil => simp
  | cons step rest => cases own <;> simp

namespace Node

mutual

/-- What the validation of the node checks, in order. A step that runs a child which is not there
gives nothing. -/
def run : Node → List String
  | ⟨_, _, children, validation, _⟩ =>
    (stepsOf validation).flatMap fun
      | .check expression => [expression]
      | .invokeChild child => ((runAll children).lookup child).getD []

def runAll : List Node → List (String × List String)
  | [] => []
  | node :: rest => (node.name, node.run) :: runAll rest

end

mutual

def allChecks : Node → List String
  | ⟨_, _, children, validation, _⟩ => checks (stepsOf validation) ++ allChecksAll children

def allChecksAll : List Node → List String
  | [] => []
  | node :: rest => node.allChecks ++ allChecksAll rest

end

theorem lookup_runAll (children : List Node) (name : String) :
    (runAll children).lookup name = (children.find? (·.name == name)).map run := by
  induction children with
  | nil => rfl
  | cons child rest ih =>
    rw [runAll, List.lookup_cons, List.find?_cons, ih, BEq.comm]
    cases child.name == name <;> rfl

theorem allChecksAll_eq_flatMap (children : List Node) :
    allChecksAll children = children.flatMap allChecks := by
  induction children with
  | nil => rfl
  | cons child rest ih => simp [allChecksAll, ih]

theorem allChecks_eq (node : Node) :
    node.allChecks = checks (stepsOf node.validation) ++ node.children.flatMap allChecks := by
  cases node with
  | mk name leaves children validation validatable =>
    rw [allChecks, allChecksAll_eq_flatMap]

def perform (node : Node) : Step → List String
  | .check expression => [expression]
  | .invokeChild child => ((node.child? child).map run).getD []

theorem run_eq (node : Node) : node.run = (stepsOf node.validation).flatMap node.perform := by
  cases node with
  | mk name leaves children validation validatable =>
    rw [run]
    congr 1
    funext step
    cases step with
    | check expression => rfl
    | invokeChild child => exact congrArg (·.getD []) (lookup_runAll children child)

theorem flatMap_perform_of_checksOnly (node : Node) {steps : List Step} (h : ChecksOnly steps) :
    steps.flatMap node.perform = checks steps := by
  induction steps with
  | nil => rfl
  | cons step rest ih =>
    obtain ⟨expression, rfl⟩ := h step (List.mem_cons_self ..)
    rw [List.flatMap_cons, ih fun other ho => h other (List.mem_cons_of_mem _ ho)]
    rfl

theorem flatMap_perform_invocations {node : Node} (hd : node.Distinct) {children : List Node}
    (hsub : ∀ child ∈ children, child ∈ node.children)
    (hrun : ∀ child ∈ children, child.validatable = false → child.run = []) :
    (invocations children).flatMap node.perform = children.flatMap run := by
  induction children with
  | nil => rfl
  | cons child rest ih =>
    have hrest := ih (fun other ho => hsub other (List.mem_cons_of_mem _ ho))
      (fun other ho => hrun other (List.mem_cons_of_mem _ ho))
    have hm := hsub child (List.mem_cons_self ..)
    have hfound : node.child? child.name = some child := (child?_eq_some_iff hd).mpr ⟨hm, rfl⟩
    cases hv : child.validatable with
    | true =>
      have hcons : invocations (child :: rest) =
          .invokeChild child.name :: invocations rest := by
        simp [invocations, hv]
      rw [hcons, List.flatMap_cons, List.flatMap_cons, hrest, perform, hfound]
      rfl
    | false =>
      have hskip : invocations (child :: rest) = invocations rest := by
        simp [invocations, hv]
      rw [hskip, hrest, List.flatMap_cons, hrun child (List.mem_cons_self ..) hv, List.nil_append]

/-- Siblings have distinct names, the validation holds only checks, and the node can be validated
just if it has one. -/
structure Plain (node : Node) : Prop where
  distinct : node.Distinct
  checksOnly : ChecksOnly (stepsOf node.validation)
  validatable : node.validatable = node.validation.isSome

theorem validation_propagate (node : Node) :
    node.propagate.validation =
      joinValidation node.validation (invocations (node.children.map propagate)) := by
  cases node with
  | mk name leaves children validation validatable =>
    rw [propagate, propagateAll_eq_map]

theorem validatable_propagate (node : Node) :
    node.propagate.validatable = (node.validatable || node.propagate.validation.isSome) := by
  cases node; rfl

theorem Plain.validatable_propagate {node : Node} (h : node.Plain) :
    node.propagate.validatable = node.propagate.validation.isSome := by
  rw [Node.validatable_propagate, h.validatable, validation_propagate]
  cases hown : node.validation with
  | none => rfl
  | some steps =>
    have := (isSome_joinValidation (some steps) (invocations (node.children.map propagate))).mpr
      (.inl rfl)
    rw [this, Bool.or_true]

theorem Plain.stepsOf_propagate {node : Node} (h : node.Plain) :
    stepsOf node.propagate.validation =
      stepsOf node.validation ++ invocations (node.children.map propagate) := by
  rw [validation_propagate]
  refine stepsOf_joinValidation h.checksOnly ?_
  simpa [Distinct, Function.comp_def] using h.distinct

theorem run_propagate {root : Node} (h : root.Throughout Plain) :
    root.propagate.run = root.allChecks := by
  induction root using induct with
  | node node ih =>
    obtain ⟨hnode, hchildren⟩ := throughout_iff.mp h
    have hrun : (node.children.map propagate).flatMap run = node.children.flatMap allChecks := by
      rw [List.flatMap_map, List.flatMap_def, List.flatMap_def]
      exact congrArg List.flatten
        (List.map_congr_left fun child hc => ih child hc (hchildren child hc))
    -- A child that is not invoked has nothing to run, so that leaving it out loses nothing.
    have hquiet : ∀ child ∈ node.children.map propagate,
        child.validatable = false → child.run = [] := by
      intro passed hp hv
      obtain ⟨child, hc, rfl⟩ := List.mem_map.mp hp
      rw [((hchildren child hc) [] child rfl).validatable_propagate] at hv
      rw [run_eq, Option.isSome_eq_false_iff.mp hv |> Option.isNone_iff_eq_none.mp]
      rfl
    rw [run_eq, hnode.stepsOf_propagate, List.flatMap_append,
      flatMap_perform_of_checksOnly _ hnode.checksOnly,
      flatMap_perform_invocations (distinct_propagate_iff.mpr hnode.distinct)
        (fun child hc => by rwa [children_propagate]) hquiet,
      hrun, ← allChecks_eq]

theorem Plain.exists_child_of_mem {node : Node} (h : node.Throughout Plain) {child : String}
    (hs : .invokeChild child ∈ stepsOf node.propagate.validation) :
    ∃ found, node.propagate.child? child = some found ∧ found.validation.isSome = true := by
  obtain ⟨hnode, hchildren⟩ := throughout_iff.mp h
  rw [hnode.stepsOf_propagate] at hs
  rcases List.mem_append.mp hs with hs | hs
  · obtain ⟨expression, he⟩ := hnode.checksOnly _ hs
    cases he
  · obtain ⟨passed, hp, hv, he⟩ := mem_invocations_iff.mp hs
    obtain ⟨inner, hi, rfl⟩ := List.mem_map.mp hp
    refine ⟨inner.propagate, ?_, ?_⟩
    · rw [child?_eq_some_iff (distinct_propagate_iff.mpr hnode.distinct), children_propagate]
      exact ⟨hp, (Step.invokeChild.inj he).symm⟩
    · rwa [← ((hchildren inner hi) [] inner rfl).validatable_propagate]

theorem validatable_propagate_iff {root : Node} (h : root.Throughout Plain) :
    root.propagate.validatable = true ↔
      ∃ path node, root.Leads path node ∧ node.validation.isSome = true := by
  induction root using induct with
  | node root ih =>
    obtain ⟨hroot, hchildren⟩ := throughout_iff.mp h
    rw [hroot.validatable_propagate, validation_propagate, isSome_joinValidation]
    constructor
    · rintro (hown | hinv)
      · exact ⟨[], root, rfl, hown⟩
      · obtain ⟨step, hs⟩ := List.exists_mem_of_ne_nil _ hinv
        obtain ⟨passed, hp, hv, -⟩ := mem_invocations_iff.mp hs
        obtain ⟨child, hc, rfl⟩ := List.mem_map.mp hp
        obtain ⟨path, node, hn, hval⟩ := (ih child hc (hchildren child hc)).mp hv
        exact ⟨child.name :: path, node, ⟨child, hc, rfl, hn⟩, hval⟩
    · rintro ⟨path, node, hn, hval⟩
      cases path with
      | nil => exact .inl (leads_nil.mp hn ▸ hval)
      | cons name path =>
        obtain ⟨child, hc, -, hn⟩ := hn
        have hv := (ih child hc (hchildren child hc)).mpr ⟨path, node, hn, hval⟩
        have hs := mem_invocations_iff.mpr ⟨_, List.mem_map_of_mem (f := propagate) hc, hv, rfl⟩
        exact .inr (List.ne_nil_of_mem hs)

/-- What passing validation upwards makes of a tree: the root's validation runs all checks of the
tree in order, every step that runs a child finds one with a validation, and a node can be validated
just if a node at or below its place had a validation. -/
structure Validated (root : Node) : Prop where
  run : root.propagate.run = root.allChecks
  invoked : ∀ path node child, root.propagate.Leads path node →
    .invokeChild child ∈ stepsOf node.validation →
      ∃ found, node.child? child = some found ∧ found.validation.isSome = true
  validatable : ∀ path node, root.propagate.Leads path node →
    (node.validatable = true ↔
      ∃ below inner, root.Leads (path ++ below) inner ∧ inner.validation.isSome = true)

theorem validated_of_plain {root : Node} (h : root.Throughout Plain) : root.Validated where
  run := run_propagate h
  invoked := by
    intro path result child hr hs
    obtain ⟨node, hn, rfl⟩ := leads_propagate_iff.mp hr
    exact Plain.exists_child_of_mem (h.below hn) hs
  validatable := by
    intro path result hr
    obtain ⟨node, hn, rfl⟩ := leads_propagate_iff.mp hr
    rw [validatable_propagate_iff (h.below hn)]
    refine exists_congr fun below => ⟨?_, ?_⟩
    · rintro ⟨inner, hi, hval⟩
      exact ⟨inner, leads_append.mpr ⟨node, hn, hi⟩, hval⟩
    · rintro ⟨inner, hi, hval⟩
      obtain ⟨other, ho, hi⟩ := leads_append.mp hi
      obtain rfl := ho.unique (h.mono fun _ hp => hp.distinct) hn
      exact ⟨inner, hi, hval⟩

end Node

end Accessors.Symbol

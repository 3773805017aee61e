import Accessors.Proofs.Json.Decoding
import Accessors.Proofs.Json.Lexing
import Accessors.Proofs.Symbol.Path
import Accessors.Symbol.Schema

/-!
# Symbols are read back from their JSON

The fields that a leaf or a node leaves out are those that have their default, so each decoder takes
what is written of a symbol as that symbol.
-/

namespace Accessors.Symbol

open Json

theorem kind?_record {kind : String} {fields : List (String × Json)}
    (h : ∀ field ∈ fields, field.1 ≠ "kind") :
    kind? (record (("kind", text kind) :: fields)) = some (kind, record fields) := by
  have hne : ∀ member ∈ fields.map fun field => (some field.1, field.2),
      member.1 ≠ some "kind" := by
    intro member hm
    obtain ⟨field, hf, rfl⟩ := List.mem_map.mp hm
    exact fun he => h field hf (Option.some.inj he)
  have hnone : (fields.map fun field => (some field.1, field.2)).filter (·.1 == some "kind") =
      [] := List.filter_eq_nil_iff.mpr fun member hm he => hne member hm (beq_iff_eq.mp he)
  have hall : (fields.map fun field => (some field.1, field.2)).filter (·.1 != some "kind") =
      fields.map fun field => (some field.1, field.2) :=
    List.filter_eq_self.mpr fun member hm => bne_iff_ne.mpr (hne member hm)
  simp [kind?, record, text, hnone, hall]

theorem nesting_kind (kind : String) (fields : List (String × Json)) :
    (record (("kind", text kind) :: fields)).nesting = (record fields).nesting := by
  simp [record, text, nesting, membersNesting]

theorem decodes_parameter (parameter : Parameter) :
    Decodes Parameter.ofJson parameter.toJson parameter := by
  intro room hroom
  obtain ⟨fields, hread, hw⟩ :=
    exists_fields_of_record ["label", "name", "typeName"] (by decide) (.refl _) hroom
  have hlabel : fields.orNone "label" string? = some parameter.label :=
    hw.withDefault_eq (decodes_optional text fun label _ => ⟨nofun, decodes_string label⟩) rfl
  have hname : fields.required "name" string? = some parameter.name :=
    hw.required_eq (decodes_string _) rfl
  have htype : fields.required "typeName" string? = some parameter.typeName :=
    hw.required_eq (decodes_string _) rfl
  simp [Parameter.ofJson, Parameter.toJson, hread, hlabel, hname, htype]

theorem decodes_shape (shape : Shape) : Decodes Shape.ofJson shape.toJson shape := by
  intro room hroom
  cases shape with
  | constant =>
    obtain ⟨room, rfl, -⟩ := exists_room_of_record hroom
    rfl
  | function parameters =>
    rw [Shape.toJson, nesting_kind] at hroom
    obtain ⟨fields, hread, hparameters⟩ :=
      exists_fields_of_single (decodes_list fun p (_ : p ∈ parameters) => decodes_parameter p) hroom
    simp [Shape.ofJson, Shape.toJson, kind?_record, hread, hparameters]

theorem decodes_step (step : Step) : Decodes Step.ofJson step.toJson step := by
  intro room hroom
  cases step with
  | check expression =>
    rw [Step.toJson, nesting_kind] at hroom
    obtain ⟨fields, hread, hexpression⟩ :=
      exists_fields_of_single (decodes_string expression) hroom
    simp [Step.ofJson, Step.toJson, kind?_record, hread, hexpression]
  | invokeChild child =>
    rw [Step.toJson, nesting_kind] at hroom
    obtain ⟨fields, hread, hchild⟩ := exists_fields_of_single (decodes_string child) hroom
    simp [Step.ofJson, Step.toJson, kind?_record, hread, hchild]

theorem decodes_steps (steps : List Step) : Decodes stepsOfJson (stepsToJson steps) steps := by
  intro room hroom
  obtain ⟨fields, hread, hsteps⟩ :=
    exists_fields_of_single (decodes_list fun step (_ : step ∈ steps) => decodes_step step) hroom
  simp [stepsOfJson, stepsToJson, hread, hsteps]

theorem keys_unlessEmpty_sublist (name : String) (items : List Json) :
    ((unlessEmpty name items).map Prod.fst).Sublist [name] := by
  cases items with
  | nil => exact List.nil_sublist _
  | cons item items => exact .refl _

theorem lookup_unlessEmpty (name key : String) (items : List Json) :
    (unlessEmpty name items).lookup key =
      if key = name ∧ items ≠ [] then some (.array items) else none := by
  cases items with
  | nil => simp [unlessEmpty]
  | cons item items => simp [unlessEmpty, lookup_cons_ite]

theorem orEmpty_eq {α : Type} {decode : Decoder α} {encode : α → Json} {fields : Fields}
    {written : List (String × Json)} {name : String} {items : List α} (hw : fields.Whole written)
    (h : ∀ item ∈ items, Decodes decode (encode item) item)
    (hl : written.lookup name = (unlessEmpty name (items.map encode)).lookup name) :
    fields.orEmpty name decode = some items := by
  rw [lookup_unlessEmpty] at hl
  cases items with
  | nil => exact hw.withDefault_absent (by simpa using hl)
  | cons item items => exact hw.withDefault_eq (decodes_list h) (by simpa using hl)

theorem orNone_eq {α : Type} {decode : Decoder α} (encode : α → Json) {fields : Fields}
    {written : List (String × Json)} {name : String} {value : Option α} (hw : fields.Whole written)
    (h : ∀ a ∈ value, encode a ≠ .null ∧ Decodes decode (encode a) a)
    (hl : written.lookup name = value.map encode) : fields.orNone name decode = some value := by
  cases value with
  | none => exact hw.withDefault_absent hl
  | some a => exact hw.withDefault_eq (decodes_optional encode h) hl

theorem decodes_leaf (leaf : Leaf) : Decodes Leaf.ofJson leaf.toJson leaf := by
  intro room hroom
  rw [Leaf.toJson] at hroom ⊢
  have hkeys := (List.Sublist.refl ["name", "shape", "typeName", "binding"]).append
    (keys_unlessEmpty_sublist "doc" (leaf.doc.map text))
  obtain ⟨fields, hread, hw⟩ := exists_fields_of_record
    ["name", "shape", "typeName", "binding", "doc"] (by decide) (by simpa using hkeys) hroom
  have hname : fields.required "name" string? = some leaf.name :=
    hw.required_eq (decodes_string _) rfl
  have hshape : fields.required "shape" Shape.ofJson = some leaf.shape :=
    hw.required_eq (decodes_shape _) rfl
  have htype : fields.required "typeName" string? = some leaf.typeName :=
    hw.required_eq (decodes_string _) rfl
  have hbinding : fields.required "binding" string? = some leaf.binding :=
    hw.required_eq (decodes_string _) rfl
  have hdoc : fields.orEmpty "doc" string? = some leaf.doc :=
    orEmpty_eq hw (fun line _ => decodes_string line) rfl
  rw [Leaf.ofJson, hread]
  simp only [hname, hshape, htype, hbinding, hdoc, Option.bind_eq_bind, Option.bind_some]
  rfl

namespace Node

def fields (node : Node) : List (String × Json) :=
  [("name", text node.name)] ++ unlessEmpty "leaves" (node.leaves.map Leaf.toJson) ++
    unlessEmpty "children" (node.children.map toJson) ++
    (node.validation.toList.map fun steps => ("validation", stepsToJson steps)) ++
    [("validatable", .bool node.validatable)]

theorem toJson_eq (node : Node) : node.toJson = record node.fields := by
  obtain ⟨name, leaves, children, validation, validatable⟩ := node
  rw [toJson, toJsonAll_eq_map]
  rfl

theorem keys_fields_sublist (node : Node) : (node.fields.map Prod.fst).Sublist fieldNames := by
  have hvalidation : ((node.validation.toList.map fun steps =>
      ("validation", stepsToJson steps)).map Prod.fst).Sublist ["validation"] := by
    cases node.validation with
    | none => exact List.nil_sublist _
    | some steps => exact .refl _
  simp only [fields, List.map_append]
  exact ((((List.Sublist.refl ["name"]).append (keys_unlessEmpty_sublist _ _)).append
    (keys_unlessEmpty_sublist _ _)).append hvalidation).append (.refl ["validatable"])

theorem lookup_validation (validation : Option (List Step)) (key : String) :
    (validation.toList.map fun steps => ("validation", stepsToJson steps)).lookup key =
      if key = "validation" then validation.map stepsToJson else none := by
  cases validation with
  | none => simp
  | some steps => simp [lookup_cons_ite]

theorem lookup_fields (node : Node) :
    node.fields.lookup "leaves" =
        (unlessEmpty "leaves" (node.leaves.map Leaf.toJson)).lookup "leaves" ∧
      node.fields.lookup "children" =
        (unlessEmpty "children" (node.children.map toJson)).lookup "children" ∧
      node.fields.lookup "validation" = node.validation.map stepsToJson ∧
      node.fields.lookup "validatable" = some (.bool node.validatable) := by
  simp [fields, List.lookup_append, lookup_cons_ite, lookup_unlessEmpty, lookup_validation]

theorem listOfJson_eq : listOfJson = list? ofJson := by
  funext room j
  cases room with
  | zero => rfl
  | succ room => cases j <;> rfl

theorem ofJson_eq (room : Nat) (j : Json) :
    ofJson room j = do
      let fields ← fields? fieldNames room j
      let name ← fields.required "name" string?
      let leaves ← fields.orEmpty "leaves" Leaf.ofJson
      let children ← fields.orEmpty "children" ofJson
      let validation ← fields.orNone "validation" stepsOfJson
      let validatable ← fields.withDefault "validatable" false bool?
      return ⟨name, leaves, children, validation, validatable⟩ := by
  cases room with
  | zero => cases j <;> rfl
  | succ room =>
    rw [ofJson]
    cases hread : fields? fieldNames (room + 1) j with
    | none => rfl
    | some fields =>
      have hchildren : (fields.withDefault "children" [] fun _ => listOfJson room) =
          fields.orEmpty "children" ofJson := by
        rw [listOfJson_eq, ← room_of_fields? hread]
        rfl
      simp only [Option.bind_eq_bind, Option.bind_some, hchildren]

theorem decodes_node (node : Node) : Decodes ofJson node.toJson node := by
  induction node using Node.induct with | node node ih =>
  intro room hroom
  rw [toJson_eq] at hroom ⊢
  obtain ⟨fields, hread, hw⟩ :=
    exists_fields_of_record fieldNames (by decide) node.keys_fields_sublist hroom
  obtain ⟨hlookLeaves, hlookChildren, hlookValidation, hlookValidatable⟩ := node.lookup_fields
  have hname : fields.required "name" string? = some node.name :=
    hw.required_eq (decodes_string _) rfl
  have hleaves : fields.orEmpty "leaves" Leaf.ofJson = some node.leaves :=
    orEmpty_eq hw (fun leaf _ => decodes_leaf leaf) hlookLeaves
  have hchildren : fields.orEmpty "children" ofJson = some node.children :=
    orEmpty_eq hw ih hlookChildren
  have hvalidation : fields.orNone "validation" stepsOfJson = some node.validation :=
    orNone_eq stepsToJson hw (fun steps _ => ⟨nofun, decodes_steps steps⟩) hlookValidation
  have hvalidatable : fields.withDefault "validatable" false bool? = some node.validatable :=
    hw.withDefault_eq (decodes_bool _) hlookValidatable
  rw [ofJson_eq, hread]
  simp only [hname, hleaves, hchildren, hvalidation, hvalidatable, Option.bind_eq_bind,
    Option.bind_some]
  -- A node has nodes inside, so it equals the node of its parts only once it is taken apart.
  cases node
  rfl

end Node

theorem sound_unlessEmpty {name : String} {items : List Json} (h : ∀ item ∈ items, item.Sound) :
    ∀ field ∈ unlessEmpty name items, field.2.Sound := by
  intro field hf
  cases items with
  | nil => exact absurd hf List.not_mem_nil
  | cons item items =>
    obtain rfl := List.mem_singleton.mp hf
    exact .array _ h

theorem sound_parameter (parameter : Parameter) : parameter.toJson.Sound := by
  have hlabel : (optional text parameter.label).Sound := by
    cases parameter.label with
    | none => exact .null
    | some label => exact .string _
  refine .record ?_
  simp only [List.forall_mem_cons]
  exact ⟨hlabel, .string _, .string _, nofun⟩

theorem sound_leaf (leaf : Leaf) : leaf.toJson.Sound := by
  have hshape : leaf.shape.toJson.Sound := by
    cases leaf.shape with
    | constant => exact .record (by simpa using .string _)
    | function parameters =>
      refine .record ?_
      simp only [List.forall_mem_cons]
      exact ⟨.string _, .map fun parameter _ => sound_parameter parameter, nofun⟩
  have hdoc : ∀ field ∈ unlessEmpty "doc" (leaf.doc.map text), field.2.Sound :=
    sound_unlessEmpty fun j hj => by
      obtain ⟨line, -, rfl⟩ := List.mem_map.mp hj
      exact .string _
  refine .record ?_
  simp only [List.forall_mem_append, List.forall_mem_cons]
  exact ⟨⟨.string _, hshape, .string _, .string _, nofun⟩, hdoc⟩

theorem sound_steps (steps : List Step) : (stepsToJson steps).Sound := by
  refine .record ?_
  simp only [List.forall_mem_cons]
  refine ⟨.map fun step _ => ?_, nofun⟩
  cases step <;>
  · refine .record ?_
    simp only [List.forall_mem_cons]
    exact ⟨.string _, .string _, nofun⟩

theorem Node.sound (node : Node) : node.toJson.Sound := by
  induction node using Node.induct with | node node ih =>
  have hleaves : ∀ j ∈ node.leaves.map Leaf.toJson, j.Sound := fun j hj => by
    obtain ⟨leaf, -, rfl⟩ := List.mem_map.mp hj
    exact sound_leaf leaf
  have hchildren : ∀ j ∈ node.children.map toJson, j.Sound := fun j hj => by
    obtain ⟨child, hc, rfl⟩ := List.mem_map.mp hj
    exact ih child hc
  have hvalidation : ∀ field ∈ node.validation.toList.map fun steps =>
      ("validation", stepsToJson steps), field.2.Sound := fun field hf => by
    obtain ⟨steps, -, rfl⟩ := List.mem_map.mp hf
    exact sound_steps steps
  rw [toJson_eq, Node.fields]
  refine .record ?_
  simp only [List.forall_mem_append, List.forall_mem_cons]
  exact ⟨⟨⟨⟨⟨.string _, nofun⟩, sound_unlessEmpty hleaves⟩, sound_unlessEmpty hchildren⟩,
    hvalidation⟩, .bool _, nofun⟩

end Accessors.Symbol

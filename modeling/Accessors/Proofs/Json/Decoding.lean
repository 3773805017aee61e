import Accessors.Json.Decoder
import Accessors.Proofs.Traversal

/-!
# Decoders that take back what was encoded

A decoder takes a JSON value as some data if it gives that data wherever there is room for the
containers of the value. Records are taken apart field by field, with one container less to open; a
list is decoded item by item.
-/

namespace Accessors.Json

variable {α : Type}

mutual

/-- The number of containers around the innermost value, the value itself included. -/
def nesting : Json → Nat
  | .array items => itemsNesting items + 1
  | .object members => membersNesting members + 1
  | _ => 0

def itemsNesting : List Json → Nat
  | [] => 0
  | item :: rest => max item.nesting (itemsNesting rest)

def membersNesting : List (Option String × Json) → Nat
  | [] => 0
  | (_, value) :: rest => max value.nesting (membersNesting rest)

end

theorem itemsNesting_le {items : List Json} {room : Nat} :
    itemsNesting items ≤ room ↔ ∀ item ∈ items, item.nesting ≤ room := by
  induction items with
  | nil => simp [itemsNesting]
  | cons item rest ih => rw [itemsNesting, Nat.max_le, ih, List.forall_mem_cons]

theorem membersNesting_le {members : List (Option String × Json)} {room : Nat} :
    membersNesting members ≤ room ↔ ∀ member ∈ members, member.2.nesting ≤ room := by
  induction members with
  | nil => simp [membersNesting]
  | cons member rest ih =>
    obtain ⟨key, value⟩ := member
    rw [membersNesting, Nat.max_le, ih, List.forall_mem_cons]

theorem exists_room_of_array {items : List Json} {room : Nat}
    (h : (Json.array items).nesting ≤ room) :
    ∃ inner, room = inner + 1 ∧ ∀ item ∈ items, item.nesting ≤ inner := by
  rw [nesting] at h
  exact ⟨room - 1, by omega, itemsNesting_le.mp (by omega)⟩

theorem exists_room_of_record {fields : List (String × Json)} {room : Nat}
    (h : (record fields).nesting ≤ room) :
    ∃ inner, room = inner + 1 ∧ ∀ field ∈ fields, field.2.nesting ≤ inner := by
  rw [record, nesting] at h
  have hmembers := membersNesting_le.mp (Nat.le_sub_of_add_le h)
  exact ⟨room - 1, by omega, fun field hf => hmembers (some field.1, field.2)
    (List.mem_map.mpr ⟨field, hf, rfl⟩)⟩

/-- The decoder takes the value as the data, wherever the containers of the value have room. -/
def Decodes (decode : Decoder α) (j : Json) (a : α) : Prop :=
  ∀ room, j.nesting ≤ room → decode room j = some a

theorem decodes_string (s : String) : Decodes string? (text s) s := fun _ _ => rfl

theorem decodes_bool (b : Bool) : Decodes bool? (.bool b) b := fun _ _ => rfl

variable {decode : Decoder α}

theorem decodes_list {encode : α → Json} {items : List α}
    (h : ∀ item ∈ items, Decodes decode (encode item) item) :
    Decodes (list? decode) (.array (items.map encode)) items := by
  intro room hroom
  obtain ⟨room, rfl, hitems⟩ := exists_room_of_array hroom
  exact mapM_map_eq_some fun item hi => h item hi room (hitems _ (List.mem_map_of_mem hi))

theorem decodes_optional (encode : α → Json) {value : Option α}
    (h : ∀ a ∈ value, encode a ≠ .null ∧ Decodes decode (encode a) a) :
    Decodes (nullable decode) (optional encode value) value := by
  intro room hroom
  cases value with
  | none => rfl
  | some a =>
    obtain ⟨hne, ha⟩ := h a rfl
    have hsome : nullable decode room (encode a) = (decode room (encode a)).map some := by
      unfold nullable
      split
      · next hnull => exact absurd hnull hne
      · rfl
    exact hsome.trans (congrArg (Option.map some) (ha room hroom))

structure Fields.Whole (fields : Fields) (written : List (String × Json)) : Prop where
  present : fields.present = written
  room : ∀ field ∈ written, field.2.nesting ≤ fields.room

theorem mapM_member? (written : List (String × Json)) :
    (written.map fun field => (some field.1, field.2)).mapM (member? some) = some written :=
  mapM_map_eq_some fun _ _ => rfl

theorem exists_fields_of_record (names : List String) {written : List (String × Json)} {room : Nat}
    (hn : names.Nodup) (hsublist : (written.map Prod.fst).Sublist names)
    (hroom : (record written).nesting ≤ room) :
    ∃ fields, fields? names room (record written) = some fields ∧ fields.Whole written := by
  obtain ⟨room, rfl, hinner⟩ := exists_room_of_record hroom
  have hknown : written.filter (names.contains ·.1) = written :=
    List.filter_eq_self.mpr fun field hf =>
      List.contains_iff_mem.mpr (hsublist.subset (List.mem_map_of_mem hf))
  refine ⟨⟨room, written⟩, ?_, rfl, hinner⟩
  simp only [record, fields?, mapM_member?, Option.bind_eq_bind, Option.bind_some, hknown]
  exact if_pos (hsublist.nodup hn)

theorem fields?_of_unknown {names : List String} {written : List (String × Json)}
    (h : ∀ field ∈ written, field.1 ∉ names) (room : Nat) :
    fields? names (room + 1) (record written) = some ⟨room, []⟩ := by
  have hknown : written.filter (names.contains ·.1) = [] :=
    List.filter_eq_nil_iff.mpr fun field hf hc => h field hf (List.contains_iff_mem.mp hc)
  simp only [record, fields?, mapM_member?, Option.bind_eq_bind, Option.bind_some, hknown]
  rfl

theorem room_of_fields? {names : List String} {room : Nat} {j : Json} {fields : Fields}
    (h : fields? names (room + 1) j = some fields) : fields.room = room := by
  cases j with
  | array items =>
    obtain ⟨-, hfields⟩ := Option.ite_none_right_eq_some.mp h
    exact Option.some.inj hfields ▸ rfl
  | object members =>
    obtain ⟨keyed, -, hknown⟩ := Option.bind_eq_some_iff.mp h
    obtain ⟨-, hfields⟩ := Option.ite_none_right_eq_some.mp hknown
    exact Option.some.inj hfields ▸ rfl
  | _ => cases h

namespace Fields.Whole

variable {fields : Fields} {written : List (String × Json)} {name : String} {j : Json} {a : α}

theorem required_eq (hw : fields.Whole written) (h : Decodes decode j a)
    (hl : written.lookup name = some j) : fields.required name decode = some a := by
  rw [Fields.required, hw.present, hl]
  exact h _ (hw.room _ (mem_of_lookup hl))

theorem withDefault_eq {default : α} (hw : fields.Whole written) (h : Decodes decode j a)
    (hl : written.lookup name = some j) : fields.withDefault name default decode = some a := by
  rw [Fields.withDefault, hw.present, hl]
  exact h _ (hw.room _ (mem_of_lookup hl))

theorem withDefault_absent {default : α} (hw : fields.Whole written)
    (hl : written.lookup name = none) : fields.withDefault name default decode = some default := by
  rw [Fields.withDefault, hw.present, hl]

end Fields.Whole

theorem exists_fields_of_single {name : String} {j : Json} {a : α} {room : Nat}
    (h : Decodes decode j a) (hroom : (record [(name, j)]).nesting ≤ room) :
    ∃ fields, fields? [name] room (record [(name, j)]) = some fields ∧
      fields.required name decode = some a := by
  obtain ⟨fields, hread, hw⟩ :=
    exists_fields_of_record [name] (List.nodup_cons.mpr ⟨List.not_mem_nil, .nil⟩) (.refl _) hroom
  exact ⟨fields, hread, hw.required_eq h List.lookup_cons_self⟩

theorem exists_fields_of_pair {β : Type} {other : Decoder β} {first second : String} {j k : Json}
    {a : α} {b : β} {room : Nat} (hne : second ≠ first) (hj : Decodes decode j a)
    (hk : Decodes other k b) (hroom : (record [(first, j), (second, k)]).nesting ≤ room) :
    ∃ fields, fields? [first, second] room (record [(first, j), (second, k)]) = some fields ∧
      fields.required first decode = some a ∧ fields.required second other = some b := by
  have hnames : [first, second].Nodup := by simp [hne.symm]
  obtain ⟨fields, hread, hw⟩ := exists_fields_of_record [first, second] hnames (.refl _) hroom
  refine ⟨fields, hread, hw.required_eq hj List.lookup_cons_self, hw.required_eq hk ?_⟩
  rw [lookup_cons_ite, if_neg hne, List.lookup_cons_self]

end Accessors.Json

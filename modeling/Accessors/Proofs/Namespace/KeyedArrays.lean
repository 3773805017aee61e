import Accessors.Proofs.Identifier.Partition
import Accessors.Proofs.Namespace.PropertyLists

/-!
# Elements of keyed arrays

A dictionary among the elements of a keyed array comes to one of four ends: a child node, a clash of
names, a name without an identifier, or a notice with its index if it has no name. Any other element
is passed over without a notice. So the children and what the notices of the array skip are as many
as its dictionaries, and fewer than its elements if some are none.
-/

namespace Accessors.Namespace

open Identifier (Grouping Place ofName)
open Record (PlistEntries PlistValue PropertyList)
open Accessors.Symbol (Node)

def skipped : Notice → Nat
  | .identifierCollision _ _ _ rawKeys => rawKeys.length
  | .identifierEmpty .. => 1
  | .primaryKeyMissing .. => 1
  | _ => 0

/-- An array at a path of a property list that is not all texts and whose elements have a primary
key. -/
structure KeyedArray where
  context : PlistContext
  path : List String
  key : String
  primaryKey : String
  items : List PlistValue
  keyed : primaryKey? key = some primaryKey
  mixed : textItems? items = none

namespace KeyedArray

variable (array : KeyedArray)

def here : List String := array.path ++ [array.key]

def scope : String := array.context.scope array.here

def named : List (String × PlistValue) := array.items.filterMap (namedElement? array.primaryKey)

def grouping : Grouping (String × PlistValue) := Identifier.group Prod.fst array.named

def nameless : List Notice :=
  array.items.zipIdx.filterMap (array.context.missingName? array.here array.key array.primaryKey)

def report : List Notice := array.nameless ++ array.grouping.notices "array elements" array.scope

def contents : Noted Contents := do
  Noted.give array.nameless
  assemble "array elements" array.scope
    (elementMembers array.context array.here array.primaryKey array.items)

def child (name : String) (entries : PlistEntries) : Node :=
  (array.context.dictionary (array.here ++ [name]) entries).value.node (ofName name)

inductive End where
  | child
  | clash
  | unnamed
  | nameless
  | passedOver

/-- The element at the index comes to the end: it has a child, or the array reports it. -/
def ComesTo (index : Nat) (item : PlistValue) : End → Prop
  | .child => ∃ name entries, item = .dictionary entries ∧
    elementName? array.primaryKey entries = some name ∧
      array.child name entries ∈ array.contents.value.children
  | .clash => ∃ name entries, item = .dictionary entries ∧
    elementName? array.primaryKey entries = some name ∧ ∃ rawKeys, name ∈ rawKeys ∧
      .identifierCollision "array elements" array.scope (ofName name) rawKeys ∈ array.report
  | .unnamed => ∃ name entries, item = .dictionary entries ∧
    elementName? array.primaryKey entries = some name ∧
      .identifierEmpty "array elements" array.scope name ∈ array.report
  | .nameless => .primaryKeyMissing index array.key array.scope array.primaryKey ∈ array.report
  | .passedOver => item.entries? = none

variable {array} {index : Nat} {item : PlistValue} {name : String} {entries : PlistEntries}

theorem contents_eq (array : KeyedArray) : array.contents = (do
    Noted.give array.nameless
    assemble "array elements" array.scope
      (array.named.map (array.context.itemMember array.here))) := by
  rw [contents, elementMembers_eq_map, named]

theorem group_named (array : KeyedArray) :
    (Identifier.group Member.name (array.named.map (array.context.itemMember array.here))).notices
      "array elements" array.scope = array.grouping.notices "array elements" array.scope := by
  rw [array.context.builds.group_eq]
  rfl

theorem report_first (array : KeyedArray) : array.report <+: array.contents.notices := by
  rw [contents_eq, Noted.bind_notices, Noted.give_notices, assemble_notices, group_named,
    ← List.append_assoc]
  exact List.prefix_append ..

theorem missingName?_eq_some_iff {notice : Notice} :
    array.context.missingName? array.here array.key array.primaryKey (item, index) = some notice ↔
      ∃ entries, item = .dictionary entries ∧ elementName? array.primaryKey entries = none ∧
        notice = .primaryKeyMissing index array.key array.scope array.primaryKey := by
  cases item with
  | dictionary entries =>
    rw [PlistContext.missingName?]
    cases hname : elementName? array.primaryKey entries <;> simp [hname, eq_comm, scope]
  | bool flag => simp [PlistContext.missingName?]
  | string text => simp [PlistContext.missingName?]
  | array items => simp [PlistContext.missingName?]

theorem mem_nameless_iff {notice : Notice} :
    notice ∈ array.nameless ↔ ∃ index entries, array.items[index]? = some (.dictionary entries) ∧
      elementName? array.primaryKey entries = none ∧
        notice = .primaryKeyMissing index array.key array.scope array.primaryKey := by
  rw [nameless, List.mem_filterMap]
  constructor
  · rintro ⟨⟨item, index⟩, hm, hnotice⟩
    obtain ⟨entries, rfl, hname, rfl⟩ := missingName?_eq_some_iff.mp hnotice
    exact ⟨index, entries, List.mem_zipIdx_iff_getElem?.mp hm, hname, rfl⟩
  · rintro ⟨index, entries, hindex, hname, rfl⟩
    exact ⟨(.dictionary entries, index), List.mem_zipIdx_iff_getElem?.mpr hindex,
      missingName?_eq_some_iff.mpr ⟨entries, rfl, hname, rfl⟩⟩

theorem comesTo_nameless_iff (hindex : array.items[index]? = some item) :
    array.ComesTo index item .nameless ↔
      ∃ entries, item = .dictionary entries ∧ elementName? array.primaryKey entries = none := by
  have hnames : .primaryKeyMissing index array.key array.scope array.primaryKey ∉
      array.grouping.notices "array elements" array.scope := by
    intro hm
    rcases Identifier.cases_of_mem_notices hm with ⟨identifier, rawKeys, he⟩ | ⟨rawKey, he⟩ <;>
      cases he
  rw [ComesTo, report, List.mem_append, or_iff_left hnames, mem_nameless_iff]
  constructor
  · rintro ⟨other, entries, hother, hname, he⟩
    cases he
    exact ⟨entries, Option.some.inj (hindex.symm.trans hother), hname⟩
  · rintro ⟨entries, rfl, hname⟩
    exact ⟨index, entries, hindex, hname, rfl⟩

theorem mem_report_of_names {notice : Notice}
    (h : ∀ index, notice ≠ .primaryKeyMissing index array.key array.scope array.primaryKey) :
    notice ∈ array.report ↔ notice ∈ array.grouping.notices "array elements" array.scope := by
  rw [report, List.mem_append]
  refine or_iff_right fun hm => ?_
  obtain ⟨index, entries, -, -, he⟩ := mem_nameless_iff.mp hm
  exact h index he

theorem mem_collision_iff {identifier : String} {rawKeys : List String} :
    .identifierCollision "array elements" array.scope identifier rawKeys ∈ array.report ↔
      (identifier, rawKeys) ∈ array.grouping.duplicates := by
  refine (mem_report_of_names (by simp)).trans ?_
  rw [Grouping.notices]
  simp

theorem mem_empty_iff : .identifierEmpty "array elements" array.scope name ∈ array.report ↔
    name ∈ array.grouping.empties := by
  refine (mem_report_of_names (by simp)).trans ?_
  rw [Grouping.notices]
  simp

theorem named_eq_some_iff {element : String × PlistValue} :
    namedElement? array.primaryKey item = some element ↔ ∃ name entries,
      item = .dictionary entries ∧ elementName? array.primaryKey entries = some name ∧
        element = (name, .dictionary entries) := by
  cases item with
  | dictionary entries => simp [namedElement?, eq_comm]
  | bool flag => simp [namedElement?]
  | string text => simp [namedElement?]
  | array items => simp [namedElement?]

theorem mem_named (hindex : array.items[index]? = some (.dictionary entries))
    (hname : elementName? array.primaryKey entries = some name) :
    (name, .dictionary entries) ∈ array.named :=
  List.mem_filterMap.mpr ⟨.dictionary entries, List.mem_of_getElem? hindex,
    named_eq_some_iff.mpr ⟨name, entries, rfl, hname, rfl⟩⟩

theorem element_of_mem_named {element : String × PlistValue} (hm : element ∈ array.named) :
    ∃ name entries, .dictionary entries ∈ array.items ∧
      elementName? array.primaryKey entries = some name ∧
        element = (name, .dictionary entries) := by
  obtain ⟨item, hitem, helement⟩ := List.mem_filterMap.mp hm
  obtain ⟨name, entries, rfl, hname, rfl⟩ := named_eq_some_iff.mp helement
  exact ⟨name, entries, hitem, hname, rfl⟩

theorem leaf?_of_mem_named {element : String × PlistValue} (hm : element ∈ array.named) :
    array.context.levels.leaf? array.here element = none := by
  obtain ⟨name, entries, -, -, rfl⟩ := element_of_mem_named hm
  rfl

theorem value_eq (array : KeyedArray) : array.contents.value =
    Levels.contents array.context.itemMember array.here array.named := by
  rw [contents_eq, Noted.bind_value, assemble_value]
  rfl

theorem child_eq (array : KeyedArray) (name : String) (entries : PlistEntries) :
    array.child name entries = (Levels.contents array.context.itemMember (array.here ++ [name])
      (itemsBelow (name, .dictionary entries))).node (ofName name) := by
  rw [child, value_dictionary]
  rfl

theorem mem_child_iff (hm : (name, .dictionary entries) ∈ array.named) :
    array.child name entries ∈ array.contents.value.children ↔
      array.grouping.Holds Prod.fst (name, .dictionary entries) .kept := by
  rw [value_eq, array.context.builds.mem_children_iff, grouping, Identifier.holds_kept_iff]
  constructor
  · rintro ⟨other, lone, -, hchild⟩
    have hid : ofName name = ofName other.1 := by
      have hname := congrArg Node.name hchild
      rwa [child_eq, Contents.name_node, Contents.name_node] at hname
    obtain rfl := lone.eq hm hid
    exact ⟨lone.named, lone.only⟩
  · rintro ⟨hne, honly⟩
    exact ⟨(name, .dictionary entries), ⟨hne, honly⟩, leaf?_of_mem_named hm,
      child_eq array name entries⟩

def End.ofPlace : Place → End
  | .kept => .child
  | .shared _ => .clash
  | .unnamed => .unnamed

theorem comesTo_iff_place (hindex : array.items[index]? = some (.dictionary entries))
    (hname : elementName? array.primaryKey entries = some name) {outcome : End} :
    array.ComesTo index (.dictionary entries) outcome ↔ ∃ place,
      array.grouping.Holds Prod.fst (name, .dictionary entries) place ∧
        outcome = .ofPlace place := by
  have hm := mem_named hindex hname
  constructor
  · intro hcomes
    cases outcome with
    | child =>
      obtain ⟨_, _, ⟨⟩, hother, hchild⟩ := hcomes
      cases hname.symm.trans hother
      exact ⟨.kept, (mem_child_iff hm).mp hchild, rfl⟩
    | clash =>
      obtain ⟨_, _, ⟨⟩, hother, rawKeys, hkey, hnotice⟩ := hcomes
      cases hname.symm.trans hother
      exact ⟨.shared (ofName name), ⟨rawKeys, mem_collision_iff.mp hnotice, hkey⟩, rfl⟩
    | unnamed =>
      obtain ⟨_, _, ⟨⟩, hother, hnotice⟩ := hcomes
      cases hname.symm.trans hother
      exact ⟨.unnamed, mem_empty_iff.mp hnotice, rfl⟩
    | nameless =>
      obtain ⟨_, ⟨⟩, hnone⟩ := (comesTo_nameless_iff hindex).mp hcomes
      cases hname.symm.trans hnone
    | passedOver => cases hcomes
  · rintro ⟨place, hplace, rfl⟩
    cases place with
    | kept => exact ⟨name, entries, rfl, hname, (mem_child_iff hm).mpr hplace⟩
    | shared identifier =>
      obtain ⟨rfl, -⟩ := (Identifier.holds_shared_iff hm).mp hplace
      obtain ⟨rawKeys, hduplicate, hkey⟩ := hplace
      exact ⟨name, entries, rfl, hname, rawKeys, hkey, mem_collision_iff.mpr hduplicate⟩
    | unnamed => exact ⟨name, entries, rfl, hname, mem_empty_iff.mpr hplace⟩

theorem ComesTo.cases_end {outcome : End} (h : array.ComesTo index item outcome) :
    outcome = .nameless ∨ outcome = .passedOver ∨ ∃ name entries,
      item = .dictionary entries ∧ elementName? array.primaryKey entries = some name := by
  cases outcome with
  | child =>
    obtain ⟨name, entries, hitem, hname, -⟩ := h
    exact .inr (.inr ⟨name, entries, hitem, hname⟩)
  | clash =>
    obtain ⟨name, entries, hitem, hname, -⟩ := h
    exact .inr (.inr ⟨name, entries, hitem, hname⟩)
  | unnamed =>
    obtain ⟨name, entries, hitem, hname, -⟩ := h
    exact .inr (.inr ⟨name, entries, hitem, hname⟩)
  | nameless => exact .inl rfl
  | passedOver => exact .inr (.inl rfl)

theorem existsUnique_comesTo (hindex : array.items[index]? = some item) :
    ∃! outcome, array.ComesTo index item outcome := by
  cases hentries : item.entries? with
  | none =>
    refine ⟨.passedOver, hentries, fun outcome hcomes => ?_⟩
    rcases hcomes.cases_end with rfl | rfl | ⟨name, entries, rfl, -⟩
    · obtain ⟨entries, rfl, -⟩ := (comesTo_nameless_iff hindex).mp hcomes
      cases hentries
    · rfl
    · cases hentries
  | some entries =>
    obtain rfl : item = .dictionary entries := by
      cases item <;> cases hentries
      rfl
    cases hname : elementName? array.primaryKey entries with
    | some name =>
      obtain ⟨place, hplace, honly⟩ := Identifier.existsUnique_place (mem_named hindex hname)
      refine ⟨.ofPlace place, (comesTo_iff_place hindex hname).mpr ⟨place, hplace, rfl⟩, ?_⟩
      intro outcome hcomes
      obtain ⟨other, hother, rfl⟩ := (comesTo_iff_place hindex hname).mp hcomes
      rw [honly other hother]
    | none =>
      refine ⟨.nameless, (comesTo_nameless_iff hindex).mpr ⟨entries, rfl, hname⟩, ?_⟩
      intro outcome hcomes
      rcases hcomes.cases_end with rfl | rfl | ⟨name, entries, ⟨⟩, hother⟩
      · rfl
      · cases hcomes
      · cases hname.symm.trans hother

theorem length_nameless_add_named (array : KeyedArray) :
    array.nameless.length + array.named.length =
      (array.items.filter (·.entries?.isSome)).length := by
  have hcount : ∀ (items : List PlistValue) (start : Nat),
      ((items.zipIdx start).filterMap
          (array.context.missingName? array.here array.key array.primaryKey)).length +
        (items.filterMap (namedElement? array.primaryKey)).length =
          (items.filter (·.entries?.isSome)).length := by
    intro items
    induction items with
    | nil => exact fun _ => rfl
    | cons item items ih =>
      intro start
      have ih := ih (start + 1)
      rw [List.zipIdx_cons]
      cases item with
      | bool flag => exact ih
      | string text => exact ih
      | array items => exact ih
      | dictionary entries =>
        rw [List.filterMap_cons, List.filterMap_cons, PlistContext.missingName?, namedElement?,
          List.filter_cons_of_pos (by rfl), List.length_cons, ← ih]
        cases elementName? array.primaryKey entries with
        | none => exact Nat.succ_add ..
        | some name => exact Nat.add_succ ..
  exact hcount array.items 0

theorem sum_skipped_report (array : KeyedArray) : (array.report.map skipped).sum =
    array.nameless.length + ((array.grouping.duplicates.map fun bucket => bucket.2.length).sum +
      array.grouping.empties.length) := by
  have hnameless : ∀ notice ∈ array.nameless, skipped notice = 1 := by
    intro notice hm
    obtain ⟨index, entries, -, -, rfl⟩ := mem_nameless_iff.mp hm
    rfl
  rw [report, List.map_append, List.sum_append, List.map_congr_left hnameless, List.map_const',
    List.sum_replicate_nat, Nat.mul_one, Grouping.notices, List.map_append, List.sum_append,
    List.map_map, List.map_map]
  simp [Function.comp_def, skipped]

theorem length_children_add_skipped (array : KeyedArray) :
    array.contents.value.children.length + (array.report.map skipped).sum =
      (array.items.filter (·.entries?.isSome)).length := by
  have hchildren : array.contents.value.children.length = array.grouping.uniques.length := by
    rw [value_eq, array.context.builds.length_children fun _ => leaf?_of_mem_named]
    rfl
  have hsize := (Identifier.partitions_group Prod.fst array.named).size
  have hdictionaries := length_nameless_add_named array
  rw [hchildren, sum_skipped_report]
  simp only [grouping] at *
  omega

/-- Each element comes to one end: a child, a notice of the array, or, if it is no dictionary,
neither. Children and skipped elements are as many as the elements if all are dictionaries. -/
structure Accounts (array : KeyedArray) : Prop where
  reported : array.report <+: array.contents.notices
  comesTo : ∀ index item, array.items[index]? = some item →
    ∃! outcome, array.ComesTo index item outcome
  children : ∀ node ∈ array.contents.value.children, ∃ name entries,
    .dictionary entries ∈ array.items ∧ elementName? array.primaryKey entries = some name ∧
      node = array.child name entries
  counted : array.contents.value.children.length + (array.report.map skipped).sum =
    (array.items.filter (·.entries?.isSome)).length
  balanced_iff :
    array.contents.value.children.length + (array.report.map skipped).sum = array.items.length ↔
      ∀ item ∈ array.items, item.entries?.isSome

theorem accounts (array : KeyedArray) : array.Accounts where
  reported := report_first array
  comesTo := fun _ _ hindex => existsUnique_comesTo hindex
  children := by
    intro node hn
    rw [value_eq, array.context.builds.mem_children_iff] at hn
    obtain ⟨element, lone, -, rfl⟩ := hn
    obtain ⟨name, entries, hitem, hname, rfl⟩ := element_of_mem_named lone.mem
    exact ⟨name, entries, hitem, hname, (child_eq array name entries).symm⟩
  counted := length_children_add_skipped array
  balanced_iff := by
    rw [length_children_add_skipped, List.length_filter_eq_length_iff]

theorem valueMember_eq_child (array : KeyedArray) :
    valueMember array.context array.path array.key (.array array.items) =
      some (.child array.key array.contents) := by
  rw [valueMember, array.mixed, array.keyed]
  rfl

theorem contents_in_dictionary {front chain : List String} (name : String)
    (hpath : array.path = front ++ chain)
    (hexposes : array.context.levels.Exposes (entries.filter isExposable) chain
      (array.key, .array array.items)) :
    ((array.context.dictionary front entries).value.node name).Leads
        (chain.map ofName ++ [ofName array.key])
        (array.contents.value.node (ofName array.key)) ∧
      array.contents.notices <:+: (array.context.dictionary front entries).notices := by
  have hleaf : array.context.levels.leaf? (front ++ chain) (array.key, .array array.items) =
      none := by
    show (textItems? array.items).map _ = none
    rw [array.mixed]
    rfl
  have hbelow : itemsBelow (array.key, .array array.items) = array.named := by
    rw [itemsBelow, array.keyed]
    rfl
  have hmember : array.context.itemMember (front ++ chain) (array.key, .array array.items) =
      .child array.key array.contents := by
    rw [PlistContext.itemMember, ← hpath, valueMember_eq_child]
    rfl
  have hvalue : array.contents.value = Levels.contents array.context.itemMember
      (front ++ chain ++ [array.key]) (itemsBelow (array.key, .array array.items)) := by
    rw [value_eq, here, hpath, hbelow]
  constructor
  · have hleads := array.context.builds.leads name hexposes hleaf
    rw [value_dictionary, hvalue]
    exact hleads
  · rw [PlistContext.dictionary, entryMembers_eq_map, ← notices_child array.key, ← hmember]
    exact array.context.builds.infix_notices hexposes

/-- Every keyed array accounts for its dictionaries, and where it is exposed in a property list its
node and its notices are there. -/
theorem elements_accounted (array : KeyedArray) :
    valueMember array.context array.path array.key (.array array.items) =
        some (.child array.key array.contents) ∧
      array.Accounts ∧
      ∀ (options : Options) (name : String) (lists : List PropertyList),
        array.context = ⟨name, options.bundleExpression⟩ →
          array.context.levels.Exposes ((consensus name lists).value.filter isExposable) array.path
            (array.key, .array array.items) →
          ((propertyList options name lists).value.node name).Leads
              (array.path.map ofName ++ [ofName array.key])
              (array.contents.value.node (ofName array.key)) ∧
            array.report <:+: (propertyList options name lists).notices := by
  refine ⟨valueMember_eq_child array, accounts array, ?_⟩
  intro options name lists hcontext hexposes
  obtain ⟨hleads, hwithin⟩ := contents_in_dictionary name (List.nil_append array.path).symm hexposes
  rw [hcontext] at hleads hwithin
  refine ⟨hleads, (report_first array).isInfix.trans (hwithin.trans ?_)⟩
  exact (List.suffix_append ..).isInfix

def urlTypes : KeyedArray where
  context := ⟨"info", "R.hostingBundle"⟩
  path := []
  key := "CFBundleURLTypes"
  primaryKey := "CFBundleURLName"
  items := [.bool true, .dictionary [("CFBundleURLName", .string "web")],
    .dictionary [("CFBundleURLName", .string "app link")],
    .dictionary [("CFBundleURLName", .string "app-link")],
    .dictionary [("CFBundleURLSchemes", .array [])]]
  keyed := by decide
  mixed := by decide

def urlLists : List PropertyList := [⟨"info", "Debug",
  ⟨[("CFBundleURLTypes", .array urlTypes.items)], by decide,
    ⟨trivial, ⟨by decide, trivial, trivial⟩, ⟨by decide, trivial, trivial⟩,
      ⟨by decide, trivial, trivial⟩, ⟨by decide, trivial, trivial⟩, trivial⟩, trivial⟩⟩]

theorem elements_accounted_urlTypes :
    urlTypes.contents.value.children.length + (urlTypes.report.map skipped).sum = 4 ∧
      urlTypes.items.length = 5 ∧
      urlTypes.report <:+: (propertyList .default "info" urlLists).notices := by
  obtain ⟨-, haccounts, hthere⟩ := elements_accounted urlTypes
  have hexposes : urlTypes.context.levels.Exposes
      ((consensus "info" urlLists).value.filter isExposable) urlTypes.path
      (urlTypes.key, .array urlTypes.items) :=
    .here ⟨by decide +kernel, by decide +kernel⟩
  exact ⟨haccounts.counted, rfl, (hthere .default "info" urlLists rfl hexposes).2⟩

/-- An element that is no dictionary has no child, and no notice is about it. -/
theorem exists_passed_over : ∃ array : KeyedArray, array.items = [.bool true] ∧
    array.contents.value.children = [] ∧ array.contents.notices = [] ∧
      array.contents.value.children.length + (array.report.map skipped).sum ≠
        array.items.length := by
  refine ⟨⟨⟨"info", "R.hostingBundle"⟩, [], "CFBundleURLTypes", "CFBundleURLName", [.bool true],
    by decide, by decide⟩, rfl, rfl, rfl, ?_⟩
  decide +kernel

end KeyedArray

end Accessors.Namespace

import Accessors.Proofs.Namespace.Levels
import Accessors.Proofs.Namespace.Orderly
import Accessors.Proofs.Text.Quoted
import Accessors.Proofs.Traversal

/-!
# The tree of a property list

The entries of a dictionary are a level of items: flags, texts and arrays of texts have leaves, the
items below a dictionary are its entries, and the items below an array are its elements, each by the
text at its primary key. Any other array is no item. The tree of the dictionary has the leaves of
the exposed items, each bound to the keys that lead to it, so that no two have the same.
-/

namespace Accessors.Namespace

open Identifier (ofName)
open Record (PlistEntries PlistValue PropertyList)
open Accessors.Symbol (Leaf Node)
open Text (quote quoteList quote_append_inj quoteList_append_inj)

/-- An array is passed over unless it holds texts or it is known which key names its elements. -/
def isExposable : String × PlistValue → Bool
  | (key, .array items) => (textItems? items).isSome || (primaryKey? key).isSome
  | (_, _) => true

def namedElement? (primaryKey : String) : PlistValue → Option (String × PlistValue)
  | .dictionary entries =>
    (elementName? primaryKey entries).map fun name => (name, .dictionary entries)
  | _ => none

def itemsBelow : String × PlistValue → List (String × PlistValue)
  | (_, .dictionary entries) => entries.filter isExposable
  | (key, .array items) =>
    (primaryKey? key).elim [] fun primaryKey => items.filterMap (namedElement? primaryKey)
  | (_, _) => []

namespace PlistContext

variable (context : PlistContext)

def valueLeaf? (path : List String) : String × PlistValue → Option Leaf
  | (key, .bool flag) =>
    some (context.leaf path key "propertyListBool" "Bool" (toString flag))
  | (key, .string text) =>
    some (context.leaf path key "propertyListString" "String" (quote text))
  | (key, .array items) => (textItems? items).map fun texts =>
    context.leaf path key "propertyListStringArray" "[String]" (quoteList texts)
  | (_, .dictionary _) => none

def levels : Levels (String × PlistValue) := ⟨Prod.fst, itemsBelow, context.valueLeaf?⟩

def itemMember (path : List String) (item : String × PlistValue) : Member :=
  (valueMember context path item.1 item.2).getD (.child item.1 (pure .empty))

def dictionary (path : List String) (entries : PlistEntries) : Noted Contents :=
  assemble "property list keys" (context.scope path) (entryMembers context path entries)

def readers : List String :=
  ["propertyListBool", "propertyListString", "propertyListStringArray"]

end PlistContext

/-- The value is read by this reader, with this fallback. -/
inductive Reads : PlistValue → String → String → Prop
  | flag (flag : Bool) : Reads (.bool flag) "propertyListBool" (toString flag)
  | text (text : String) : Reads (.string text) "propertyListString" (quote text)
  | texts (texts : List String) :
    Reads (.array (texts.map .string)) "propertyListStringArray" (quoteList texts)

variable {context : PlistContext} {path front chain : List String} {key : String}
  {value : PlistValue} {items : List PlistValue} {entries : PlistEntries}

theorem valueMember_eq (item : String × PlistValue) :
    valueMember context path item.1 item.2 =
      if isExposable item then some (context.itemMember path item) else none := by
  have hsome : (valueMember context path item.1 item.2).isSome = isExposable item := by
    obtain ⟨key, value⟩ := item
    cases value with
    | bool flag => rw [valueMember]; rfl
    | string text => rw [valueMember]; rfl
    | array items =>
      rw [valueMember, isExposable]
      cases textItems? items <;> cases primaryKey? key <;> rfl
    | dictionary entries => rw [valueMember]; rfl
  rw [PlistContext.itemMember, ← hsome]
  cases valueMember context path item.1 item.2 <;> rfl

theorem entryMembers_eq_map (context : PlistContext) (path : List String) (entries : PlistEntries) :
    entryMembers context path entries =
      (entries.filter isExposable).map (context.itemMember path) := by
  induction entries with
  | nil => rw [entryMembers]; rfl
  | cons entry rest ih =>
    rw [entryMembers, ih, valueMember_eq entry]
    by_cases he : isExposable entry = true
    · rw [if_pos he, List.filter_cons_of_pos he]
      rfl
    · rw [if_neg he, List.filter_cons_of_neg he]
      rfl

theorem itemMember_dictionary (context : PlistContext) (path : List String) (key : String)
    (entries : PlistEntries) :
    context.itemMember path (key, .dictionary entries) =
      .child key (context.dictionary (path ++ [key]) entries) := by
  rw [PlistContext.itemMember, valueMember]
  rfl

theorem elementMembers_eq_map (context : PlistContext) (path : List String) (primaryKey : String)
    (items : List PlistValue) :
    elementMembers context path primaryKey items =
      (items.filterMap (namedElement? primaryKey)).map (context.itemMember path) := by
  induction items with
  | nil => rw [elementMembers]; rfl
  | cons item rest ih =>
    cases item with
    | bool flag =>
      rw [List.filterMap_cons_none rfl]
      simpa only [elementMembers] using ih
    | string text =>
      rw [List.filterMap_cons_none rfl]
      simpa only [elementMembers] using ih
    | array items =>
      rw [List.filterMap_cons_none rfl]
      simpa only [elementMembers] using ih
    | dictionary entries =>
      rw [elementMembers, ih, List.filterMap_cons, namedElement?]
      cases elementName? primaryKey entries with
      | none => rfl
      | some name =>
        rw [Option.map_some, List.map_cons, itemMember_dictionary]
        rfl

theorem namedElements_texts (primaryKey : String) (texts : List String) :
    (texts.map PlistValue.string).filterMap (namedElement? primaryKey) = [] := by
  rw [List.filterMap_map]
  exact List.filterMap_eq_nil_iff.mpr fun _ _ => rfl

theorem items_eq_of_textItems? {items : List PlistValue} {texts : List String}
    (h : textItems? items = some texts) : items = texts.map .string := by
  induction items generalizing texts with
  | nil =>
    obtain rfl : texts = [] := by simpa [textItems?] using h.symm
    rfl
  | cons item rest ih =>
    cases texts with
    | nil => cases map_eq_of_mapM h
    | cons text texts =>
      obtain ⟨hitem, hrest⟩ := mapM_cons_eq_some_iff.mp h
      obtain rfl : item = .string text := by
        cases item <;> simp [PlistValue.string?] at hitem
        rw [hitem]
      rw [ih hrest, List.map_cons]

theorem exists_reads {item : String × PlistValue} {leaf : Leaf}
    (h : context.valueLeaf? path item = some leaf) :
    ∃ reader typeName fallback, Reads item.2 reader fallback ∧
      leaf = context.leaf path item.1 reader typeName fallback := by
  obtain ⟨key, value⟩ := item
  cases value with
  | bool flag => exact ⟨_, _, _, .flag flag, (Option.some.inj h).symm⟩
  | string text => exact ⟨_, _, _, .text text, (Option.some.inj h).symm⟩
  | array items =>
    obtain ⟨texts, htexts, rfl⟩ := Option.map_eq_some_iff.mp h
    obtain rfl := items_eq_of_textItems? htexts
    exact ⟨_, _, _, .texts texts, rfl⟩
  | dictionary entries => cases h

theorem Reads.reader_mem {value : PlistValue} {reader fallback : String}
    (h : Reads value reader fallback) : reader ∈ PlistContext.readers := by
  cases h <;> decide

theorem itemMember_of_valueLeaf? {item : String × PlistValue} {leaf : Leaf}
    (h : context.valueLeaf? path item = some leaf) :
    context.itemMember path item = .plain item.1 (.ofLeaves [leaf]) := by
  obtain ⟨key, value⟩ := item
  cases value with
  | bool flag =>
    rw [PlistContext.itemMember, valueMember, ← Option.some.inj h]
    rfl
  | string text =>
    rw [PlistContext.itemMember, valueMember, ← Option.some.inj h]
    rfl
  | array items =>
    obtain ⟨texts, htexts, rfl⟩ := Option.map_eq_some_iff.mp h
    rw [PlistContext.itemMember, valueMember, htexts]
    rfl
  | dictionary entries => cases h

theorem itemsBelow_of_valueLeaf? {item : String × PlistValue} {leaf : Leaf}
    (h : context.valueLeaf? path item = some leaf) : itemsBelow item = [] := by
  obtain ⟨reader, typeName, fallback, hreads, -⟩ := exists_reads h
  obtain ⟨key, value⟩ := item
  cases hreads with
  | flag flag => rfl
  | text text => rfl
  | texts texts =>
    rw [itemsBelow]
    cases primaryKey? key with
    | none => rfl
    | some primaryKey => exact namedElements_texts primaryKey texts

theorem name_of_valueLeaf? {item : String × PlistValue} {leaf : Leaf}
    (h : context.valueLeaf? path item = some leaf) : leaf.name = ofName item.1 := by
  obtain ⟨reader, typeName, fallback, -, rfl⟩ := exists_reads h
  rfl

theorem name_itemMember (context : PlistContext) (path : List String)
    (item : String × PlistValue) : (context.itemMember path item).name = item.1 := by
  cases hleaf : context.valueLeaf? path item with
  | some leaf => rw [itemMember_of_valueLeaf? hleaf]; rfl
  | none =>
    obtain ⟨key, value⟩ := item
    cases value with
    | bool flag => cases hleaf
    | string text => cases hleaf
    | array items =>
      rw [PlistContext.itemMember, valueMember, Option.map_eq_none_iff.mp hleaf]
      cases primaryKey? key <;> rfl
    | dictionary entries => rw [itemMember_dictionary]; rfl

theorem exists_itemMember_child {item : String × PlistValue}
    (h : context.valueLeaf? path item = none) :
    ∃ missing what scope, context.itemMember path item = .child item.1 (do
      Noted.give missing
      assemble what scope ((itemsBelow item).map (context.itemMember (path ++ [item.1])))) := by
  obtain ⟨key, value⟩ := item
  cases value with
  | bool flag => cases h
  | string text => cases h
  | array items =>
    rw [PlistContext.itemMember, valueMember, Option.map_eq_none_iff.mp h, itemsBelow]
    cases primaryKey? key with
    | none => exact ⟨[], "", "", rfl⟩
    | some primaryKey =>
      refine ⟨items.zipIdx.filterMap (context.missingName? (path ++ [key]) key primaryKey),
        "array elements", context.scope (path ++ [key]), ?_⟩
      rw [Option.elim_some, ← elementMembers_eq_map]
      rfl
  | dictionary entries =>
    refine ⟨[], "property list keys", context.scope (path ++ [key]), ?_⟩
    rw [itemMember_dictionary, PlistContext.dictionary, entryMembers_eq_map]
    rfl

theorem PlistContext.builds (context : PlistContext) :
    context.levels.Builds context.itemMember where
  name := name_itemMember context
  leaf := fun front item leaf h =>
    ⟨itemsBelow_of_valueLeaf? h, name_of_valueLeaf? h, by rw [itemMember_of_valueLeaf? h]; rfl⟩
  child := by
    intro front item hnone
    obtain ⟨missing, what, scope, hmember⟩ := exists_itemMember_child hnone
    rw [hmember]
    simp only [Member.child, Noted.bind_value, Noted.pure_value, assemble_value]
    rfl
  notices := by
    intro front item hnone
    obtain ⟨missing, what, scope, hmember⟩ := exists_itemMember_child hnone
    refine ⟨what, scope, ?_⟩
    rw [hmember, notices_child, Noted.bind_notices]
    exact (List.suffix_append ..).isInfix

theorem value_dictionary (context : PlistContext) (path : List String) (entries : PlistEntries) :
    (context.dictionary path entries).value =
      Levels.contents context.itemMember path (entries.filter isExposable) := by
  rw [PlistContext.dictionary, entryMembers_eq_map, assemble_value]
  rfl

namespace PlistContext

/-- The leaf reads the list at the path and the key. -/
def Carries (context : PlistContext) (path : List String) (key : String) (leaf : Leaf) : Prop :=
  ∃ reader fallback : String, reader ∈ readers ∧ leaf.binding =
    s!"{context.bundle}.{reader}(list: {quote context.list}, path: {quoteList path}, "
      ++ s!"key: {quote key}) ?? {fallback}"

end PlistContext

theorem carries_of_valueLeaf? {item : String × PlistValue} {leaf : Leaf}
    (h : context.valueLeaf? path item = some leaf) : context.Carries path item.1 leaf := by
  obtain ⟨reader, typeName, fallback, hreads, rfl⟩ := exists_reads h
  exact ⟨reader, fallback, hreads.reader_mem, rfl⟩

theorem paren_not_mem_reader : ∀ reader ∈ PlistContext.readers, '(' ∉ reader.toList := by decide

theorem append_cons_inj {c : Char} {xs ys as bs : List Char} (hx : c ∉ xs) (hy : c ∉ ys)
    (h : xs ++ c :: as = ys ++ c :: bs) : xs = ys ∧ as = bs := by
  induction xs generalizing ys with
  | nil =>
    cases ys with
    | nil => exact ⟨rfl, (List.cons.inj h).2⟩
    | cons y ys => exact absurd (List.cons.inj h).1 (List.ne_of_not_mem_cons hy)
  | cons x xs ih =>
    cases ys with
    | nil => exact absurd (List.cons.inj h).1.symm (List.ne_of_not_mem_cons hx)
    | cons y ys =>
      obtain ⟨rfl, hrest⟩ := List.cons.inj h
      obtain ⟨rfl, rfl⟩ :=
        ih (List.not_mem_of_not_mem_cons hx) (List.not_mem_of_not_mem_cons hy) hrest
      exact ⟨rfl, rfl⟩

theorem reader_append_inj {reader other : String} (hr : reader ∈ PlistContext.readers)
    (ho : other ∈ PlistContext.readers) {a b : String}
    (h : reader ++ ("(list: " ++ a) = other ++ ("(list: " ++ b)) : reader = other ∧ a = b := by
  have hchars := congrArg String.toList h
  rw [String.toList_append, String.toList_append, String.toList_append, String.toList_append]
    at hchars
  obtain ⟨hreader, hrest⟩ := append_cons_inj (paren_not_mem_reader reader hr)
    (paren_not_mem_reader other ho) hchars
  change "list: ".toList ++ a.toList = "list: ".toList ++ b.toList at hrest
  exact ⟨String.toList_injective hreader, String.toList_injective (List.append_cancel_left hrest)⟩

theorem PlistContext.Carries.inj {leaf : Leaf} {other : List String} {otherKey : String}
    (h : context.Carries path key leaf) (ho : context.Carries other otherKey leaf) :
    path = other ∧ key = otherKey := by
  obtain ⟨reader, fallback, hreader, h⟩ := h
  obtain ⟨reader', fallback', hreader', ho⟩ := ho
  have hbinding := h.symm.trans ho
  simp only [String.append_assoc, String.append_right_inj, toString] at hbinding
  have hlist := (quote_append_inj (reader_append_inj hreader hreader' hbinding).2).2
  obtain ⟨rfl, hkey⟩ := quoteList_append_inj ((String.append_right_inj _).mp hlist)
  rw [String.append_right_inj, String.append_right_inj] at hkey
  exact ⟨rfl, (quote_append_inj hkey).1⟩

/-- The tree shows the exposed items of a dictionary. Their leaves read the list along the titles
that the path is made of, and no two leaves read the same. -/
structure PlistContext.Mirrors (context : PlistContext) (front : List String)
    (entries : PlistEntries) (root : Node) : Prop
    extends context.levels.Shows front (entries.filter isExposable) root where
  carried : ∀ path leaf, (path, leaf) ∈ root.places → ∃ chain key,
    path = chain.map ofName ∧ leaf.name = ofName key ∧ context.Carries (front ++ chain) key leaf
  apart : root.places.Pairwise fun a b => ∀ path key,
    context.Carries path key a.2 → ¬ context.Carries path key b.2

theorem mirrors_of_shows {root : Node}
    (h : context.levels.Shows front (entries.filter isExposable) root) :
    context.Mirrors front entries root where
  toShows := h
  carried := by
    intro path leaf hm
    obtain ⟨chain, item, -, hleaf, hpath⟩ := (h.mem_iff path leaf).mp hm
    exact ⟨chain, item.1, hpath, name_of_valueLeaf? hleaf, carries_of_valueLeaf? hleaf⟩
  apart := by
    refine h.nodup.pairwise_of_forall_ne fun a ha b hb hne path key hcarries hother => hne ?_
    obtain ⟨chain, item, hexposes, hleaf, hpath⟩ := (h.mem_iff a.1 a.2).mp ha
    obtain ⟨others, other, hexposes', hleaf', hpath'⟩ := (h.mem_iff b.1 b.2).mp hb
    obtain ⟨hfront, hkey⟩ := (carries_of_valueLeaf? hleaf).inj hcarries
    obtain ⟨hfront', hkey'⟩ := (carries_of_valueLeaf? hleaf').inj hother
    obtain rfl := List.append_cancel_left (hfront'.trans hfront.symm)
    have hsame := hexposes.eq_of_reaches hexposes'.reaches rfl
      (congrArg ofName (hkey'.trans hkey.symm))
    obtain rfl : other = item := hsame.2
    exact Prod.ext (hpath.trans hpath'.symm) (Option.some.inj (hleaf.symm.trans hleaf'))

/-- The tree of any dictionary, with any titles before it, and so that of a property list: it is
the dictionary that the configurations agree on, before which there is nothing. -/
theorem mirrors_dictionary :
    (∀ (context : PlistContext) (front : List String) (entries : PlistEntries) (name : String),
      context.Mirrors front entries ((context.dictionary front entries).value.node name)) ∧
    ∀ (options : Options) (name : String) (lists : List PropertyList),
      (propertyList options name lists).value =
        ((⟨name, options.bundleExpression⟩ : PlistContext).dictionary []
          (consensus name lists).value).value := by
  refine ⟨fun context front entries name => ?_, fun options name lists => rfl⟩
  have ho : (context.dictionary front entries).value.Orderly :=
    assemble_orderly (entryMembers_under context front entries)
  unfold PlistContext.dictionary at ho ⊢
  rw [entryMembers_eq_map] at ho ⊢
  exact mirrors_of_shows (context.builds.shows ho name)

-- The two keys that share an identifier are left out.
example : (((⟨"info", "R.hostingBundle"⟩ : PlistContext).dictionary [] [
    ("CFBundleURLTypes", .array [.dictionary [("CFBundleURLName", .string "web")]]),
    ("Flag", .bool true), ("flag", .bool false)]).value.node "info").places.map
      (fun place => (place.1, place.2.name)) =
        [(["cfBundleURLTypes", "web"], "cfBundleURLName")] := by decide +kernel

end Accessors.Namespace

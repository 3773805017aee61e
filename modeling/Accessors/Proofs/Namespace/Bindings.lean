import Accessors.Proofs.Namespace.Files
import Accessors.Proofs.Namespace.PropertyLists
import Accessors.Proofs.Text.Literal

/-!
# Bindings told apart

The bindings of one sort differ in the texts that they quote and in types and numbers behind these;
what stands between is the same. So two bindings are equal just if they quote the same texts, which
are read off one after the other. Only the type of a reuse identifier stands before what is quoted,
which is then found from the end.
-/

namespace Accessors.Namespace

open Record (AssetKind BundledFile Font PlistValue StringEntry Template TypedIdentifier)
open Accessors.Symbol (Leaf)
open Text (Inside literal? quote quoteList quote_append_iff quoteList_append_iff)

variable {bundle : String}

theorem resourceType_append_iff {kind other : AssetKind} {a b : String} :
    resourceType kind ++ a = resourceType other ++ b ↔ kind = other ∧ a = b := by
  constructor
  · intro h
    have hhead := congrArg (fun text => text.toList.head?) h
    cases kind <;> cases other <;> simp [resourceType, String.toList_append] at h hhead ⊢ <;>
      exact h
  · rintro ⟨rfl, rfl⟩
    rfl

theorem assetLeaf_binding_iff {kind other : AssetKind} {a b : MediaEntry} :
    (assetLeaf kind bundle a).binding = (assetLeaf other bundle b).binding ↔
      kind = other ∧ a.fullName = b.fullName := by
  simp only [assetLeaf, Leaf.constant, toString, String.append_assoc]
  simp only [resourceType_append_iff, String.append_right_inj, quote_append_iff, and_true]

theorem constant_binding_iff {context other : TableContext} {key otherKey : String}
    {entry otherEntry : StringEntry} (h : context.bundle = other.bundle) :
    (context.constant key entry).binding = (other.constant otherKey otherEntry).binding ↔
      key = otherKey ∧ context.table.name = other.table.name ∧
        context.localeNames = other.localeNames ∧ entry.value = otherEntry.value := by
  simp only [TableContext.constant, Leaf.constant, toString, String.append_assoc, h]
  simp only [String.append_right_inj, quote_append_iff, quoteList_append_iff, and_true]

theorem function_binding_iff {context other : TableContext} {key otherKey : String}
    {entry otherEntry : StringEntry} {arguments otherArguments : List Format.Argument}
    (h : context.bundle = other.bundle) :
    (context.function key entry arguments).binding =
        (other.function otherKey otherEntry otherArguments).binding ↔
      key = otherKey ∧ context.table.name = other.table.name ∧ entry.value = otherEntry.value ∧
        listed ((parameters arguments).map (·.name)) =
          listed ((parameters otherArguments).map (·.name)) := by
  simp only [TableContext.function, Leaf.function, toString, String.append_assoc, h]
  simp only [String.append_right_inj, String.append_left_inj, quote_append_iff]

theorem fontContents_binding_iff {font other : Font} {pair : Leaf × Leaf}
    (h : pair ∈ (fontContents font).leaves.zip (fontContents other).leaves) :
    pair.1.binding = pair.2.binding ↔ font.postscriptName = other.postscriptName := by
  simp only [fontContents, List.zip_cons_cons, List.zip_nil_right, List.mem_cons,
    List.not_mem_nil, or_false] at h
  rcases h with rfl | rfl
  all_goals
    simp only [Leaf.constant, Leaf.function, toString, String.append_assoc]
    simp only [String.append_right_inj, quote_append_iff, and_true]

theorem fileLeaves_binding_iff {file other : BundledFile} {pair : Leaf × Leaf}
    (h : pair ∈ (fileLeaves bundle file).zip (fileLeaves bundle other)) :
    pair.1.binding = pair.2.binding ↔
      FileName.split file.fileName = FileName.split other.fileName := by
  simp only [fileLeaves, List.zip_cons_cons, List.zip_nil_right, List.mem_cons,
    List.not_mem_nil, or_false] at h
  rcases h with rfl | rfl
  · exact (resourceOf_injective bundle).eq_iff
  · exact (placeOf_injective bundle).eq_iff

def QuotesName (call : Template → String) : Prop :=
  ∃ opening closing, ∀ template, call template = opening ++ (quote template.name ++ closing)

theorem QuotesName.append_iff {call : Template → String} (h : QuotesName call)
    {template other : Template} {a b : String} :
    call template ++ a = call other ++ b ↔ template.name = other.name ∧ a = b := by
  obtain ⟨opening, closing, hcall⟩ := h
  rw [hcall, hcall]
  simp only [String.append_assoc, String.append_right_inj, quote_append_iff]

theorem quotesName_instantiation (bundle : String) : QuotesName (instantiation bundle) := by
  refine ⟨"UINib(nibName: ", ", bundle: " ++ (bundle ++
    (").instantiate(withOwner: owner, " ++ "options: nil)")), fun template => ?_⟩
  unfold instantiation
  simp only [toString, String.append_assoc]

theorem quotesName_storyboardInstance (bundle : String) :
    QuotesName (storyboardInstance bundle) := by
  refine ⟨"UIStoryboard(name: ", ", bundle: " ++ (bundle ++ ")"), fun template => ?_⟩
  unfold storyboardInstance
  simp only [toString, String.append_assoc]

theorem repr_append_iff {i j : Nat} {a b : String} :
    i.repr ++ ("] as? " ++ a) = j.repr ++ ("] as? " ++ b) ↔ i = j ∧ a = b := by
  have hrepr : ∀ (n : Nat) (text : String), (n.repr ++ ("] as? " ++ text)).toList =
      Nat.toDigits 10 n ++ ']' :: (" as? ".toList ++ text.toList) := by
    intro n text
    rw [String.toList_append, String.toList_append, Nat.repr, String.toList_ofList]
    rfl
  have hdigits : ∀ n : Nat, ']' ∉ Nat.toDigits 10 n := fun n hm =>
    absurd (Nat.isDigit_of_mem_toDigits (by omega) (by omega) hm) (by decide)
  constructor
  · intro h
    have hchars := congrArg String.toList h
    rw [hrepr, hrepr] at hchars
    obtain ⟨hindex, hrest⟩ := append_cons_inj (hdigits i) (hdigits j) hchars
    exact ⟨toDigits_injective hindex, String.toList_injective (List.append_cancel_left hrest)⟩
  · rintro ⟨rfl, rfl⟩
    rfl

theorem rootAccessor_binding_iff {template other : Template} {root otherRoot : String × Nat} :
    (rootAccessor bundle template root).binding = (rootAccessor bundle other otherRoot).binding ↔
      template.name = other.name ∧ root = otherRoot := by
  obtain ⟨typeName, index⟩ := root
  obtain ⟨otherType, otherIndex⟩ := otherRoot
  simp only [rootAccessor, Leaf.function, toString, String.append_assoc]
  simp only [(quotesName_instantiation bundle).append_iff, String.append_right_inj, repr_append_iff,
    Prod.mk.injEq, and_comm]

theorem initialAccessor_binding_iff {template other : Template} {root otherRoot : String} :
    (initialAccessor bundle template root).binding =
        (initialAccessor bundle other otherRoot).binding ↔
      template.name = other.name ∧ root = otherRoot := by
  simp only [initialAccessor, Leaf.function, toString]
  simp only [(quotesName_storyboardInstance bundle).append_iff, String.append_right_inj]

theorem elementBinding_iff {template other : Template} {element otherElement : TypedIdentifier} :
    elementBinding bundle template element = elementBinding bundle other otherElement ↔
      template.name = other.name ∧ element = otherElement := by
  obtain ⟨identifier, typeName⟩ := element
  obtain ⟨otherIdentifier, otherType⟩ := otherElement
  unfold elementBinding
  simp only [toString, String.append_assoc]
  simp only [(quotesName_storyboardInstance bundle).append_iff, String.append_right_inj,
    quote_append_iff, TypedIdentifier.mk.injEq]

theorem reuseLeaf_binding (name : String) (token : TypedIdentifier) :
    (reuseLeaf name token).binding = "ReuseIdentifier<" ++ (token.typeName ++ ">(identifier:") ++
      " " ++ quote token.identifier ++ ")" := by
  delta reuseLeaf reuseType
  apply String.toList_injective
  simp only [Leaf.constant, toString, String.toList_append, List.append_assoc]
  rfl

theorem reuseLeaf_binding_iff {name otherName : String} {token other : TypedIdentifier} :
    (reuseLeaf name token).binding = (reuseLeaf otherName other).binding ↔ token = other := by
  rw [reuseLeaf_binding, reuseLeaf_binding, String.append_left_inj]
  constructor
  · intro h
    obtain ⟨htype, hidentifier⟩ := Text.blank_quote_inj h
    rw [String.append_right_inj, String.append_left_inj] at htype
    obtain ⟨identifier, typeName⟩ := token
    rw [TypedIdentifier.mk.injEq]
    exact ⟨hidentifier, htype⟩
  · rintro rfl
    rfl

variable {context other : PlistContext} {path otherPath : List String}
  {item otherItem : String × PlistValue} {leaf otherLeaf : Leaf}

theorem Reads.value_eq {value otherValue : PlistValue} {reader fallback : String}
    (h : Reads value reader fallback) (ho : Reads otherValue reader fallback) :
    value = otherValue := by
  generalize hreader : reader = otherReader at ho
  generalize hfallback : fallback = otherFallback at ho
  cases h <;> cases ho
  case flag.flag flag other =>
    have hflag : ∀ flag other : Bool, toString flag = toString other → flag = other := by decide
    rw [hflag flag other hfallback]
  case text.text text other => rw [Text.quote_inj.mp hfallback]
  case texts.texts texts other => rw [Text.quoteList_inj.mp hfallback]
  all_goals exact absurd hreader (by decide)

theorem leaf_binding (context : PlistContext) (path : List String)
    (key reader typeName fallback : String) :
    (context.leaf path key reader typeName fallback).binding =
      context.bundle ++ ("." ++ (reader ++ ("(list: " ++ (quote context.list ++ (", path: " ++
        (quoteList path ++ (", " ++ ("key: " ++ (quote key ++ (") ?? " ++ fallback)))))))))) := by
  simp only [PlistContext.leaf, Leaf.constant, toString, String.append_assoc]

theorem valueLeaf?_binding_iff (hbundle : context.bundle = other.bundle)
    (h : context.valueLeaf? path item = some leaf)
    (ho : other.valueLeaf? otherPath otherItem = some otherLeaf) :
    leaf.binding = otherLeaf.binding ↔
      context.list = other.list ∧ path = otherPath ∧ item = otherItem := by
  constructor
  · intro hbinding
    obtain ⟨reader, typeName, fallback, hreads, rfl⟩ := exists_reads h
    obtain ⟨otherReader, otherType, otherFallback, hreads', rfl⟩ := exists_reads ho
    rw [leaf_binding, leaf_binding, hbundle, String.append_right_inj, String.append_right_inj]
      at hbinding
    obtain ⟨rfl, hquoted⟩ := reader_append_inj hreads.reader_mem hreads'.reader_mem hbinding
    simp only [quote_append_iff, quoteList_append_iff, String.append_right_inj] at hquoted
    obtain ⟨hlist, hpath, hkey, rfl⟩ := hquoted
    exact ⟨hlist, hpath, Prod.ext hkey (hreads.value_eq hreads')⟩
  · rintro ⟨hlist, rfl, rfl⟩
    obtain rfl : context = other := by
      obtain ⟨list, bundle⟩ := context
      rw [PlistContext.mk.injEq]
      exact ⟨hlist, hbundle⟩
    rw [Option.some.inj (h.symm.trans ho)]

/-- Two bindings of one sort are equal just if they quote the same. -/
structure BindingsApart (bundle : String) : Prop where
  asset : ∀ (kind other : AssetKind) (a b : MediaEntry),
    (assetLeaf kind bundle a).binding = (assetLeaf other bundle b).binding ↔
      kind = other ∧ a.fullName = b.fullName
  constant : ∀ (context other : TableContext) (key otherKey : String)
    (entry otherEntry : StringEntry), context.bundle = bundle → other.bundle = bundle →
    ((context.constant key entry).binding = (other.constant otherKey otherEntry).binding ↔
      key = otherKey ∧ context.table.name = other.table.name ∧
        context.localeNames = other.localeNames ∧ entry.value = otherEntry.value)
  function : ∀ (context other : TableContext) (key otherKey : String)
    (entry otherEntry : StringEntry) (arguments otherArguments : List Format.Argument),
    context.bundle = bundle → other.bundle = bundle →
    ((context.function key entry arguments).binding =
        (other.function otherKey otherEntry otherArguments).binding ↔
      key = otherKey ∧ context.table.name = other.table.name ∧ entry.value = otherEntry.value ∧
        listed ((parameters arguments).map (·.name)) =
          listed ((parameters otherArguments).map (·.name)))
  font : ∀ (font other : Font),
    ∀ pair ∈ (fontContents font).leaves.zip (fontContents other).leaves,
    (pair.1.binding = pair.2.binding ↔ font.postscriptName = other.postscriptName)
  file : ∀ (file other : BundledFile),
    ∀ pair ∈ (fileLeaves bundle file).zip (fileLeaves bundle other),
    (pair.1.binding = pair.2.binding ↔
      FileName.split file.fileName = FileName.split other.fileName)
  value : ∀ (context other : PlistContext) (path otherPath : List String)
    (item otherItem : String × PlistValue) (leaf otherLeaf : Leaf),
    context.bundle = bundle → other.bundle = bundle →
    context.valueLeaf? path item = some leaf →
    other.valueLeaf? otherPath otherItem = some otherLeaf →
    (leaf.binding = otherLeaf.binding ↔
      context.list = other.list ∧ path = otherPath ∧ item = otherItem)
  name : ∀ template other : Template,
    (nameLeaf template).binding = (nameLeaf other).binding ↔ template.name = other.name
  instantiated : ∀ template other : Template,
    instantiation bundle template = instantiation bundle other ↔ template.name = other.name
  root : ∀ (template other : Template) (root otherRoot : String × Nat),
    (rootAccessor bundle template root).binding = (rootAccessor bundle other otherRoot).binding ↔
      template.name = other.name ∧ root = otherRoot
  initial : ∀ (template other : Template) (root otherRoot : String),
    (initialAccessor bundle template root).binding =
        (initialAccessor bundle other otherRoot).binding ↔
      template.name = other.name ∧ root = otherRoot
  element : ∀ (template other : Template) (element otherElement : TypedIdentifier),
    elementBinding bundle template element = elementBinding bundle other otherElement ↔
      template.name = other.name ∧ element = otherElement
  reuse : ∀ (name otherName : String) (token other : TypedIdentifier),
    (reuseLeaf name token).binding = (reuseLeaf otherName other).binding ↔ token = other

theorem bindingsApart (bundle : String) : BindingsApart bundle where
  asset _ _ _ _ := assetLeaf_binding_iff
  constant _ _ _ _ _ _ h ho := constant_binding_iff (h.trans ho.symm)
  function _ _ _ _ _ _ _ _ h ho := function_binding_iff (h.trans ho.symm)
  font _ _ _ h := fontContents_binding_iff h
  file _ _ _ h := fileLeaves_binding_iff h
  value _ _ _ _ _ _ _ _ hbundle ho := valueLeaf?_binding_iff (hbundle.trans ho.symm)
  name _ _ := Text.quote_inj
  instantiated _ _ := by
    rw [← String.append_left_inj "", (quotesName_instantiation bundle).append_iff, and_iff_left rfl]
  root _ _ _ _ := rootAccessor_binding_iff
  initial _ _ _ _ := initialAccessor_binding_iff
  element _ _ _ _ := elementBinding_iff
  reuse _ _ _ _ := reuseLeaf_binding_iff

/-- Quoted texts and lists of them are told from any texts that they start. Inside the quotes stand
plain characters and the five escapes, so a literal ends where the quoted text does, and bindings
that quote different texts differ. -/
theorem quotes_self_delimiting :
    (∀ (xs ys : List String) (s t : String),
      quoteList xs ++ s = quoteList ys ++ t ↔ xs = ys ∧ s = t) ∧
    (∀ x y s t : String, quote x ++ s = quote y ++ t ↔ x = y ∧ s = t) ∧
    (∀ text : String, (∃ x, quote x = text) ↔
      ∃ inner, Inside inner ∧ text.toList = '"' :: (inner ++ ['"'])) ∧
    (∀ x : String, ∀ c ∈ ['\n', '\r', '\t'], c ∉ (quote x).toList) ∧
    (∀ x rest : String,
      literal? (quote x ++ rest).toList = some ((quote x).toList, rest.toList)) ∧
    ∀ bundle : String, BindingsApart bundle :=
  ⟨fun _ _ _ _ => quoteList_append_iff, fun _ _ _ _ => quote_append_iff,
    fun _ => Text.exists_quote_iff, fun x _ hc => Text.not_mem_quote x hc, Text.literal?_quote,
    bindingsApart⟩

def infoList : PlistContext := ⟨"Info", "R.hostingBundle"⟩

/-- A text is not bound like the array that it looks like. -/
theorem quotes_self_delimiting_lookalikes :
    quoteList ["a\", \"b"] ≠ quoteList ["a", "b"] ∧
      ∃ leaf other, infoList.valueLeaf? [] ("k", .string "[\"a\"]") = some leaf ∧
        infoList.valueLeaf? [] ("k", .array [.string "a"]) = some other ∧
        leaf.binding ≠ other.binding := by
  obtain ⟨hlists, -, -, -, -, hbindings⟩ := quotes_self_delimiting
  have htext : infoList.valueLeaf? [] ("k", .string "[\"a\"]") = some
    (infoList.leaf [] "k" "propertyListString" "String" (quote "[\"a\"]")) := rfl
  have harray : infoList.valueLeaf? [] ("k", .array [.string "a"]) = some
    (infoList.leaf [] "k" "propertyListStringArray" "[String]" (quoteList ["a"])) := rfl
  refine ⟨fun he => ?_, _, _, htext, harray, fun he => ?_⟩
  · have hsame := (hlists _ _ "" "").mp (congrArg (· ++ "") he)
    exact absurd hsame.1 (by decide)
  · have hsame := ((hbindings _).value _ _ _ _ _ _ _ _ rfl rfl htext harray).mp he
    exact absurd hsame.2.2 (by decide)

end Accessors.Namespace

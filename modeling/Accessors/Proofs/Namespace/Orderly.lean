import Accessors.Compile
import Accessors.Proofs.Namespace.Assembly

/-!
# Every namespace is orderly

Each member of a namespace has its leaves and its child under its own identifier, so that what is
assembled from them is orderly. Nibs and storyboards have members with fixed names besides; those of
a nib are all different, and an element of a storyboard that would take one is left out.
-/

namespace Accessors.Namespace

open Record (Asset AssetKind BundledFile Font ImageFile PlistEntries PlistValue PropertyList
  StringTable Template TypedIdentifier)
open Accessors.Symbol (Leaf Paired Proper)
open Template (Merged)

namespace Contents

variable {identifier : String}

theorem under_empty : empty.Under identifier := .leaves .nil nofun

theorem under_leaf {leaf : Leaf} {checks : List String} (h : leaf.name = identifier) :
    (⟨[leaf], [], checks⟩ : Contents).Under identifier := by
  refine .leaves (.single nofun .nil) fun other ho => ?_
  rw [List.mem_singleton.mp ho, h]

theorem under_pair {constant function : Leaf} {checks : List String}
    (hc : constant.name = identifier) (hf : function.name = identifier)
    (hconstant : constant.shape = .constant) (hfunction : function.isFunction = true) :
    (⟨[constant, function], [], checks⟩ : Contents).Under identifier := by
  refine .leaves (.pair (hf.trans hc.symm) hconstant hfunction nofun .nil) fun leaf hl => ?_
  rcases List.mem_cons.mp hl with rfl | hl
  · exact hc
  · rw [List.mem_singleton.mp hl, hf]

theorem orderly_of_nodup {leaves : List Leaf} {checks : List String}
    (hd : (leaves.map Leaf.name).Nodup) (hp : ∀ name ∈ leaves.map Leaf.name, Proper name) :
    (⟨leaves, [], checks⟩ : Contents).Orderly where
  tidy := ⟨List.Pairwise.nil, nofun, .of_nodup hd,
    fun _ hl => hp _ (List.mem_map_of_mem hl), nofun⟩
  below := nofun

end Contents

theorem TableContext.member_under (context : TableContext) (key : String) :
    (context.member key).contents.value.Under (Identifier.ofName key) := by
  show (Contents.ofLeaves (context.leaves key).value).Under _
  unfold TableContext.leaves
  split
  · exact Contents.under_empty
  · exact Contents.under_empty
  · exact Contents.under_leaf rfl
  · exact Contents.under_pair rfl rfl rfl rfl

theorem tableContents_orderly (options : Options) (table : LocalizedTable) :
    (tableContents options table).value.Orderly := by
  simp only [tableContents, Noted.bind_value]
  exact assemble_orderly (List.forall_mem_map.mpr fun key _ => TableContext.member_under _ key)

theorem strings_orderly (options : Options) (records : List StringTable) :
    (strings options records).value.Orderly := by
  simp only [strings, Noted.bind_value]
  exact assemble_orderly (List.forall_mem_map.mpr fun table _ =>
    Member.child_under (tableContents_orderly options table))

theorem toList_rootAccessorName {index : Nat} (h : 10 ≤ index) :
    (rootAccessorName index).toList = ['v', 'i', 'e', 'w'] ++ Nat.toDigits 10 (index + 1) := by
  have hnone : ordinals[index]? = none := List.getElem?_eq_none h
  simp [rootAccessorName, hnone]
  rfl

theorem rootAccessorName_ne {index : Nat} (h : 10 ≤ index) {name : String}
    (hname : name.toList.head? ≠ some 'v') : rootAccessorName index ≠ name := by
  rintro rfl
  rw [toList_rootAccessorName h] at hname
  exact hname rfl

theorem head?_ordinal : ∀ index < 10, (rootAccessorName index).toList.head? ≠ some 'v' := by
  decide

theorem toDigits_injective {m n : Nat} (h : Nat.toDigits 10 m = Nat.toDigits 10 n) : m = n := by
  rw [← Nat.ofDigitChars_ten_toDigits (n := m), h, Nat.ofDigitChars_ten_toDigits]

theorem rootAccessorName_injective {i j : Nat} (h : rootAccessorName i = rootAccessorName j) :
    i = j := by
  rcases Nat.lt_or_ge i 10 with hi | hi <;> rcases Nat.lt_or_ge j 10 with hj | hj
  · have hordinals : ∀ i < 10, ∀ j < 10, rootAccessorName i = rootAccessorName j → i = j := by
      decide
    exact hordinals i hi j hj h
  · exact absurd h.symm (rootAccessorName_ne hj (head?_ordinal i hi))
  · exact absurd h (rootAccessorName_ne hi (head?_ordinal j hj))
  · have hlist := congrArg String.toList h
    rw [toList_rootAccessorName hi, toList_rootAccessorName hj] at hlist
    have := toDigits_injective (List.append_cancel_left hlist)
    omega

theorem rootAccessorName_proper (index : Nat) : Proper (rootAccessorName index) := by
  rcases Nat.lt_or_ge index 10 with hi | hi
  · have hordinals : ∀ index < 10, Proper (rootAccessorName index) := by decide
    exact hordinals index hi
  · refine ⟨rootAccessorName_ne hi (by decide), fun hm => ?_⟩
    rw [toList_rootAccessorName hi] at hm
    rcases List.mem_append.mp hm with hm | hm
    · exact absurd hm (by decide)
    · have hdigit := Nat.isDigit_of_mem_toDigits (by omega) (by omega) hm
      exact absurd hdigit (by decide)

def nibNames : List String := ["name", "instantiate", "identifier"]

theorem rootAccessorName_not_mem (index : Nat) : rootAccessorName index ∉ nibNames := by
  rcases Nat.lt_or_ge index 10 with hi | hi
  · have hordinals : ∀ index < 10, rootAccessorName index ∉ nibNames := by decide
    exact hordinals index hi
  · intro hm
    have hnames : ∀ name ∈ nibNames, name.toList.head? ≠ some 'v' := by decide
    exact rootAccessorName_ne hi (hnames _ hm) rfl

theorem exists_names_rootAccessors (bundle : String) (merged : Merged) :
    ∃ indices : List Nat, indices.Nodup ∧
      (if merged.rootTypesDiffer then []
        else merged.template.rootTypes.zipIdx.map (rootAccessor bundle merged.template)).map
          Leaf.name = indices.map rootAccessorName := by
  split
  · exact ⟨[], List.nodup_nil, rfl⟩
  · refine ⟨List.range' 0 merged.template.rootTypes.length, List.nodup_range' 1, ?_⟩
    rw [← List.zipIdx_map_snd 0 merged.template.rootTypes, List.map_map, List.map_map]
    rfl

theorem names_reuseLeaf_sublist (tokens : List TypedIdentifier) :
    ((tokens.head?.toList.map (reuseLeaf "identifier")).map Leaf.name).Sublist ["identifier"] := by
  cases tokens with
  | nil => exact List.nil_sublist _
  | cons token rest => exact List.Sublist.refl _

theorem nibContents_orderly (bundle : String) (merged : Merged) :
    (nibContents bundle merged).Orderly := by
  obtain ⟨indices, hindices, hroots⟩ := exists_names_rootAccessors bundle merged
  have htoken := names_reuseLeaf_sublist merged.template.reuseTokens
  have hnames : (nibContents bundle merged).leaves.map Leaf.name =
      ["name", "instantiate"] ++ indices.map rootAccessorName ++
        (merged.template.reuseTokens.head?.toList.map (reuseLeaf "identifier")).map Leaf.name := by
    rw [nibContents, List.map_append, List.map_append, hroots]
    rfl
  have hnew : ∀ name ∈ indices.map rootAccessorName, name ∉ nibNames ∧ Proper name := by
    intro name hm
    obtain ⟨index, -, rfl⟩ := List.mem_map.mp hm
    exact ⟨rootAccessorName_not_mem index, rootAccessorName_proper index⟩
  have hrootNodup : (indices.map rootAccessorName).Nodup :=
    List.Pairwise.map _ (fun i j hij he => hij (rootAccessorName_injective he)) hindices
  have hfixed : ∀ name ∈ ["name", "instantiate"],
      name ∈ nibNames ∧ name ≠ "identifier" ∧ Proper name := by decide
  refine Contents.orderly_of_nodup (hnames ▸ ?_) (hnames ▸ ?_)
  · refine List.nodup_append.mpr ⟨List.nodup_append.mpr ⟨by decide, hrootNodup, ?_⟩,
      List.Pairwise.sublist htoken (by decide), ?_⟩
    · rintro a ha b hb rfl
      exact (hnew a hb).1 (hfixed a ha).1
    · rintro a ha b hb rfl
      have hid := List.mem_singleton.mp (htoken.subset hb)
      rcases List.mem_append.mp ha with ha | ha
      · exact (hfixed a ha).2.1 hid
      · exact (hnew a ha).1 (hid ▸ by decide)
  · intro name hm
    rcases List.mem_append.mp hm with hm | hm
    · rcases List.mem_append.mp hm with hm | hm
      · exact (hfixed name hm).2.2
      · exact (hnew name hm).2
    · rw [List.mem_singleton.mp (htoken.subset hm)]
      decide

theorem nibs_orderly (options : Options) (templates : List Merged) :
    (nibs options templates).value.Orderly :=
  assemble_orderly (List.forall_mem_map.mpr fun merged _ =>
    Member.child_under (nibContents_orderly _ merged))

theorem names_storyboardFixed (bundle : String) (merged : Merged) :
    ((storyboardFixed bundle merged).leaves.map Leaf.name).Sublist storyboardMembers := by
  refine List.Sublist.cons_cons "name" ?_
  split
  · exact List.nil_sublist _
  · cases merged.template.rootTypes with
    | nil => exact List.nil_sublist _
    | cons root rest => exact List.Sublist.refl _

theorem storyboardFixed_orderly (bundle : String) (merged : Merged) :
    (storyboardFixed bundle merged).Orderly := by
  have hnames := names_storyboardFixed bundle merged
  have hproper : ∀ name ∈ storyboardMembers, Proper name := by decide
  exact Contents.orderly_of_nodup (List.Pairwise.sublist hnames (by decide))
    fun name hm => hproper name (hnames.subset hm)

theorem elementMember_under (bundle : String) (template : Template) (element : TypedIdentifier) :
    (elementMember bundle template element).contents.value.Under
      (Identifier.ofName element.identifier) := by
  simp only [elementMember]
  split
  · exact Contents.under_empty
  · exact Contents.under_leaf rfl

theorem not_mem_storyboardMembers {bundle : String} {template : Template}
    {element : TypedIdentifier} {leaf : Leaf}
    (h : leaf ∈ (elementMember bundle template element).contents.value.leaves) :
    leaf.name ∉ storyboardMembers := by
  have hname := (elementMember_under bundle template element).name_leaf leaf h
  simp only [elementMember] at h
  split at h
  · cases h
  · next hfree => simpa [hname] using hfree

theorem children_elementMember (bundle : String) (template : Template)
    (element : TypedIdentifier) :
    (elementMember bundle template element).contents.value.children = [] := by
  simp only [elementMember]
  split <;> rfl

theorem name_storyboardFixed {bundle : String} {merged : Merged} {leaf : Leaf}
    (h : leaf ∈ (storyboardFixed bundle merged).leaves) : leaf.name ∈ storyboardMembers :=
  (names_storyboardFixed bundle merged).subset (List.mem_map_of_mem h)

theorem storyboard_orderly (bundle : String) (merged : Merged) :
    (storyboard bundle merged).value.Orderly := by
  have helements := fun element (_ : element ∈ merged.stableElements) =>
    elementMember_under bundle merged.template element
  refine (storyboardFixed_orderly bundle merged).append
    (assemble_orderly (List.forall_mem_map.mpr helements)) ?_ nofun ?_ nofun
  · intro fixed hf leaf hl he
    obtain ⟨named, hn, hl⟩ := mem_leaves_assemble.mp hl
    obtain ⟨element, -, hitem⟩ := List.mem_map.mp (mem_keptMembers hn).1
    exact not_mem_storyboardMembers (hitem ▸ hl) (he ▸ name_storyboardFixed hf)
  · intro fixed hf child hc
    obtain ⟨named, hn, hc⟩ := mem_children_assemble.mp hc
    obtain ⟨element, -, hitem⟩ := List.mem_map.mp (mem_keptMembers hn).1
    rw [← hitem, children_elementMember] at hc
    cases hc

theorem storyboards_orderly (options : Options) (templates : List Merged) :
    (storyboards options templates).value.Orderly :=
  assemble_orderly (List.forall_mem_map.mpr fun merged _ =>
    Member.child_under (storyboard_orderly _ merged))

mutual

theorem folderContents_orderly (kind : AssetKind) (bundle scope : String) :
    ∀ folder : Folder, (folderContents kind bundle scope folder).value.Orderly
  | ⟨assets, folders⟩ => by
    rw [folderContents]
    apply assemble_orderly
    intro member hm
    rcases List.mem_append.mp hm with hm | hm
    · obtain ⟨entry, -, rfl⟩ := List.mem_map.mp hm
      exact Contents.under_leaf rfl
    · exact folderMembers_under kind bundle scope folders member hm

theorem folderMembers_under (kind : AssetKind) (bundle scope : String) :
    ∀ folders : List (String × Folder), ∀ member ∈ folderMembers kind bundle scope folders,
      member.contents.value.Under (Identifier.ofName member.name)
  | [], member, hm => by
    rw [folderMembers] at hm
    cases hm
  | (name, folder) :: rest, member, hm => by
    rw [folderMembers] at hm
    rcases List.mem_cons.mp hm with rfl | hm
    · exact Member.child_under (folderContents_orderly kind bundle (scope ++ "/" ++ name) folder)
    · exact folderMembers_under kind bundle scope rest member hm

end

theorem fonts_orderly (records : List Font) : (fonts records).value.Orderly :=
  assemble_orderly (List.forall_mem_map.mpr fun _ _ => Contents.under_pair rfl rfl rfl rfl)

theorem files_orderly (options : Options) (records : List BundledFile) :
    (files options records).value.Orderly :=
  assemble_orderly (List.forall_mem_map.mpr fun _ _ => Contents.under_pair rfl rfl rfl rfl)

theorem reuseIdentifiers_orderly (templates : List Merged) :
    (reuseIdentifiers templates).value.Orderly := by
  simp only [reuseIdentifiers, Noted.bind_value]
  exact assemble_orderly (List.forall_mem_map.mpr fun _ _ => Contents.under_leaf rfl)

mutual

theorem valueMember_under (context : PlistContext) (path : List String) (key : String) :
    ∀ value : PlistValue, ∀ member, valueMember context path key value = some member →
      member.contents.value.Under (Identifier.ofName member.name)
  | .bool flag, member, h => by
    obtain rfl := Option.some.inj h
    exact Contents.under_leaf rfl
  | .string text, member, h => by
    obtain rfl := Option.some.inj h
    exact Contents.under_leaf rfl
  | .array items, member, h => by
    rw [valueMember] at h
    split at h
    · obtain rfl := Option.some.inj h
      exact Contents.under_leaf rfl
    · cases h
    · obtain rfl := Option.some.inj h
      exact Member.child_under
        (assemble_orderly (elementMembers_under context (path ++ [key]) _ items))
  | .dictionary entries, member, h => by
    rw [valueMember] at h
    obtain rfl := Option.some.inj h
    exact Member.child_under (assemble_orderly (entryMembers_under context (path ++ [key]) entries))

theorem entryMembers_under (context : PlistContext) (path : List String) :
    ∀ entries : PlistEntries, ∀ member ∈ entryMembers context path entries,
      member.contents.value.Under (Identifier.ofName member.name)
  | [], member, hm => by
    rw [entryMembers] at hm
    cases hm
  | (key, value) :: rest, member, hm => by
    rw [entryMembers] at hm
    rcases List.mem_append.mp hm with hm | hm
    · exact valueMember_under context path key value member (Option.mem_toList.mp hm)
    · exact entryMembers_under context path rest member hm

theorem elementMembers_under (context : PlistContext) (path : List String) (primaryKey : String) :
    ∀ items : List PlistValue, ∀ member ∈ elementMembers context path primaryKey items,
      member.contents.value.Under (Identifier.ofName member.name)
  | [], member, hm => by
    rw [elementMembers] at hm
    cases hm
  | .dictionary entries :: rest, member, hm => by
    rw [elementMembers] at hm
    split at hm
    · rcases List.mem_cons.mp hm with rfl | hm
      · exact Member.child_under (assemble_orderly (entryMembers_under context _ entries))
      · exact elementMembers_under context path primaryKey rest member hm
    · exact elementMembers_under context path primaryKey rest member hm
  | .bool _ :: rest, member, hm => by
    simp only [elementMembers] at hm
    exact elementMembers_under context path primaryKey rest member hm
  | .string _ :: rest, member, hm => by
    simp only [elementMembers] at hm
    exact elementMembers_under context path primaryKey rest member hm
  | .array _ :: rest, member, hm => by
    simp only [elementMembers] at hm
    exact elementMembers_under context path primaryKey rest member hm

end

theorem propertyList_orderly (options : Options) (name : String) (lists : List PropertyList) :
    (propertyList options name lists).value.Orderly := by
  simp only [propertyList, Noted.bind_value]
  exact assemble_orderly (entryMembers_under _ [] _)

end Accessors.Namespace

import Mathlib.Data.List.TakeWhile
import Accessors.Proofs.Identifier.Alphabet

/-!
# Identifiers of plain names

A name of ASCII characters has an identifier just if it has a letter, a digit or an underscore. The
identifier consists of these, which can differ in letter case; an underscore comes first if they
begin with a digit, and one comes last if the identifier would be a keyword. So it begins with a
small letter or an underscore.
-/

namespace Accessors

namespace Text

def IsAscii (c : Char) : Prop := c.toNat < 128

instance (c : Char) : Decidable (IsAscii c) := inferInstanceAs (Decidable (_ < _))

def isWord (c : Char) : Bool := c.isAlphanum || c == '_'

structure PlainCase (c : Char) : Prop where
  upper : toUpper c = [c.toUpper]
  lower : toLower c = [c.toLower]
  isUpper : isUpper c = c.isUpper
  isNumeral : isNumeral c = c.isDigit
  isKept : Identifier.isKept c = isWord c

instance (c : Char) : Decidable (PlainCase c) :=
  decidable_of_iff (toUpper c = [c.toUpper] ∧ toLower c = [c.toLower] ∧ isUpper c = c.isUpper ∧
      isNumeral c = c.isDigit ∧ Identifier.isKept c = isWord c)
    ⟨fun ⟨h₁, h₂, h₃, h₄, h₅⟩ => ⟨h₁, h₂, h₃, h₄, h₅⟩,
      fun h => ⟨h.upper, h.lower, h.isUpper, h.isNumeral, h.isKept⟩⟩

variable {c : Char}

theorem forall_isAscii {p : Char → Prop} (h : ∀ n < 128, p (Char.ofNat n)) (hc : IsAscii c) :
    p c := Char.ofNat_toNat c ▸ h c.toNat hc

theorem plainCase (hc : IsAscii c) : PlainCase c := forall_isAscii (by decide +kernel) hc

theorem isWord_forms (hc : IsAscii c) : isWord c.toUpper = isWord c ∧ isWord c.toLower = isWord c :=
  forall_isAscii (p := fun c => isWord c.toUpper = isWord c ∧ isWord c.toLower = isWord c)
    (by decide +kernel) hc

theorem toLower_forms (hc : IsAscii c) :
    c.toUpper.toLower = c.toLower ∧ c.toLower.toLower = c.toLower :=
  forall_isAscii (p := fun c => c.toUpper.toLower = c.toLower ∧ c.toLower.toLower = c.toLower)
    (by decide +kernel) hc

theorem toLower_first (hc : IsAscii c) (hword : isWord c = true) :
    c.toLower.isDigit = c.isDigit ∧
      (c.isDigit = false → c.toLower.isLower = true ∨ c.toLower = '_') :=
  forall_isAscii (p := fun c => isWord c = true → c.toLower.isDigit = c.isDigit ∧
    (c.isDigit = false → c.toLower.isLower = true ∨ c.toLower = '_')) (by decide +kernel) hc hword

theorem toLower_of_not_isUpper (hc : IsAscii c) (h : c.isUpper = false) : c.toLower = c :=
  forall_isAscii (p := fun c => c.isUpper = false → c.toLower = c) (by decide +kernel) hc h

theorem isAscii_of_isWord (h : isWord c = true) : IsAscii c := by
  have hcases : (c.isUpper = true ∨ c.isLower = true) ∨ c.isDigit = true ∨ c = '_' := by
    have hword : ((c.isUpper || c.isLower) || c.isDigit || c == '_') = true := h
    simpa [or_assoc] using hword
  have hbound : ∀ last : Char, c ≤ last → last.toNat < 128 → IsAscii c := fun last hle hlast =>
    Nat.lt_of_le_of_lt hle hlast
  rcases hcases with (h | h) | h | rfl
  · exact hbound 'Z' (of_decide_eq_true h).2 (by decide)
  · exact hbound 'z' (of_decide_eq_true (Bool.and_eq_true_iff.mp h).2) (by decide)
  · exact hbound '9' (of_decide_eq_true (Bool.and_eq_true_iff.mp h).2) (by decide)
  · decide

end Text

namespace Identifier

open Text (IsAscii isWord)

variable {cs xs : List Char} {d : Char} {gap : Bool}

theorem map_toLower_joinFrom (hcs : ∀ c ∈ cs, IsAscii c) (gap : Bool) :
    (joinFrom gap cs).map Char.toLower = (cs.filter isKept).map Char.toLower := by
  induction cs generalizing gap with
  | nil => rfl
  | cons c cs ih =>
    obtain ⟨hc, hcs⟩ := List.forall_mem_cons.mp hcs
    rw [joinFrom]
    split
    · next hkept =>
      rw [List.filter_cons_of_pos hkept, List.map_append, ih hcs, List.map_cons]
      cases gap with
      | false => rfl
      | true =>
        rw [if_pos rfl, (Text.plainCase hc).upper, List.map_singleton, (Text.toLower_forms hc).1]
        rfl
    · next hkept =>
      rw [List.filter_cons_of_neg hkept, ih hcs]

theorem map_toLower_lowerLeading (hxs : ∀ x ∈ xs, isWord x = true) :
    (lowerLeading xs).map Char.toLower = xs.map Char.toLower := by
  have hlowered : ∀ {ys : List Char}, (∀ y ∈ ys, isWord y = true) →
      (ys.flatMap Text.toLower).map Char.toLower = ys.map Char.toLower := by
    intro ys hys
    rw [List.map_flatMap, ← List.flatMap_singleton' (ys.map Char.toLower), List.flatMap_map]
    refine List.flatMap_congr fun y hy => ?_
    have hascii := Text.isAscii_of_isWord (hys y hy)
    rw [(Text.plainCase hascii).lower, List.map_singleton, (Text.toLower_forms hascii).2]
  rw [lowerLeading, List.map_append, hlowered fun x hx => hxs x (List.mem_of_mem_take hx),
    ← List.map_append, List.take_append_drop]

theorem isWord_of_mem_joinFrom (hcs : ∀ c ∈ cs, IsAscii c) (h : d ∈ joinFrom gap cs) :
    isWord d = true := by
  obtain ⟨c, hm, hkept, hd⟩ := exists_of_mem_joinFrom h
  have hc := hcs c hm
  rw [(Text.plainCase hc).isKept] at hkept
  rcases hd with rfl | hd
  · exact hkept
  · rw [(Text.plainCase hc).upper, List.mem_singleton] at hd
    rw [hd, (Text.isWord_forms hc).1, hkept]

theorem isWord_of_mem_lowerLeading (hxs : ∀ x ∈ xs, isWord x = true) (h : d ∈ lowerLeading xs) :
    isWord d = true := by
  obtain ⟨x, hm, hd⟩ := exists_of_mem_lowerLeading h
  have hx := Text.isAscii_of_isWord (hxs x hm)
  rcases hd with rfl | hd
  · exact hxs d hm
  · rw [(Text.plainCase hx).lower, List.mem_singleton] at hd
    rw [hd, (Text.isWord_forms hx).2, hxs x hm]

theorem head?_join (cs : List Char) : (join cs).head? = (cs.filter isKept).head? := by
  induction cs with
  | nil => rfl
  | cons c cs ih =>
    by_cases hc : isKept c = true
    · rw [List.filter_cons_of_pos hc, join, List.dropWhile_cons, if_neg (by simp [hc]), joinFrom,
        if_pos hc]
      rfl
    · rw [List.filter_cons_of_neg hc, ← ih, join, List.dropWhile_cons, if_pos (by simp [hc]), join]

theorem lowered_pos {x : Char} (hx : Text.isUpper x = true) (xs : List Char) :
    0 < lowered (x :: xs) := by
  have hrun : 0 < ((x :: xs).takeWhile Text.isUpper).length := by
    rw [List.takeWhile_cons, if_pos hx]
    exact Nat.zero_lt_succ _
  rcases lowered_cases (x :: xs) with h | ⟨hlong, h⟩ <;> omega

theorem head?_lowerLeading (hxs : ∀ x ∈ xs, isWord x = true) :
    (lowerLeading xs).head? = xs.head?.map Char.toLower := by
  cases xs with
  | nil => rfl
  | cons x xs =>
    have hx := Text.isAscii_of_isWord (hxs x (List.mem_cons_self ..))
    by_cases hupper : Text.isUpper x = true
    · obtain ⟨n, hn⟩ := Nat.exists_eq_succ_of_ne_zero (Nat.ne_of_gt (lowered_pos hupper xs))
      rw [lowerLeading, hn, List.take_succ_cons, List.flatMap_cons, (Text.plainCase hx).lower]
      rfl
    · have hzero : lowered (x :: xs) = 0 := by
        have hle := lowered_le (x :: xs)
        rw [List.takeWhile_cons, if_neg hupper] at hle
        exact Nat.le_zero.mp hle
      rw [(Text.plainCase hx).isUpper, Bool.not_eq_true] at hupper
      rw [lowerLeading, hzero, List.head?_cons, Option.map_some,
        Text.toLower_of_not_isUpper hx hupper]
      rfl

/-- A small letter or an underscore, and then letters, digits and underscores. -/
def IsWordlike (cs : List Char) : Prop :=
  ∃ first rest, cs = first :: rest ∧ (first.isLower = true ∨ first = '_') ∧
    ∀ c ∈ rest, isWord c = true

/-- The identifier has the characters in some letter case, behind an underscore if they begin with a
digit, and in front of one if it would be a keyword without it. -/
def Spells (identifier kept : List Char) : Prop :=
  ∃ cased guarded, cased.map Char.toLower = kept.map Char.toLower ∧
    guarded = (if kept.head?.any Char.isDigit then '_' :: cased else cased) ∧
    identifier = if String.ofList guarded ∈ keywords then guarded ++ ['_'] else guarded

theorem guardKeyword_eq (cs : List Char) :
    guardKeyword cs = if String.ofList cs ∈ keywords then cs ++ ['_'] else cs := by
  unfold guardKeyword
  simp only [List.contains_iff_mem]

theorem guardKeyword_not_mem_keywords (cs : List Char) :
    String.ofList (guardKeyword cs) ∉ keywords := by
  rw [guardKeyword_eq]
  split
  · exact append_underscore_not_mem_keywords cs
  · next h => exact h

theorem guards_eq_nil_iff : guardKeyword (guardNumeral cs) = [] ↔ cs = [] := by
  constructor
  · intro h
    rcases guardKeyword_cases (guardNumeral cs) with he | ⟨-, he⟩
    · rw [he] at h
      rcases guardNumeral_cases cs with he | ⟨c, rest, rfl, -, he⟩
      · exact he.symm.trans h
      · exact absurd (he.symm.trans h) (List.cons_ne_nil _ _)
    · exact absurd (he.symm.trans h) (List.append_ne_nil_of_right_ne_nil _ (List.cons_ne_nil _ _))
  · rintro rfl
    decide

theorem IsWordlike.guardKeyword (h : IsWordlike cs) : IsWordlike (guardKeyword cs) := by
  obtain ⟨first, rest, rfl, hfirst, hrest⟩ := h
  rw [guardKeyword_eq]
  split
  · refine ⟨first, rest ++ ['_'], rfl, hfirst, List.forall_mem_append.mpr ⟨hrest, ?_⟩⟩
    exact List.forall_mem_singleton.mpr (by decide)
  · exact ⟨first, rest, rfl, hfirst, hrest⟩

def cased (cs : List Char) : List Char := lowerLeading (join cs)

section

variable (hcs : ∀ c ∈ cs, IsAscii c)

include hcs

theorem filter_isKept_ascii : cs.filter isKept = cs.filter isWord :=
  List.filter_congr fun c hc => (Text.plainCase (hcs c hc)).isKept

theorem isWord_of_mem_join (h : d ∈ join cs) : isWord d = true :=
  isWord_of_mem_joinFrom (fun c hc => hcs c ((List.dropWhile_sublist _).subset hc)) h

theorem isWord_of_mem_cased (h : d ∈ cased cs) : isWord d = true :=
  isWord_of_mem_lowerLeading (fun _ => isWord_of_mem_join hcs) h

theorem map_toLower_cased :
    (cased cs).map Char.toLower = (cs.filter isWord).map Char.toLower := by
  have hgap : (cs.takeWhile (!isKept ·)).filter isKept = [] := by
    refine List.filter_eq_nil_iff.mpr fun c hc hkept => ?_
    simpa [hkept] using List.mem_takeWhile_imp hc
  have hfilter : (cs.dropWhile (!isKept ·)).filter isKept = cs.filter isKept := by
    conv_rhs => rw [← List.takeWhile_append_dropWhile (p := (!isKept ·)) (l := cs)]
    rw [List.filter_append, hgap, List.nil_append]
  rw [cased, map_toLower_lowerLeading fun _ => isWord_of_mem_join hcs, join, map_toLower_joinFrom
    fun c hc => hcs c ((List.dropWhile_sublist _).subset hc), hfilter, filter_isKept_ascii hcs]

theorem head?_cased : (cased cs).head? = (cs.filter isWord).head?.map Char.toLower := by
  rw [cased, head?_lowerLeading fun _ => isWord_of_mem_join hcs, head?_join,
    filter_isKept_ascii hcs]

theorem cased_eq_nil_iff : cased cs = [] ↔ ∀ c ∈ cs, isWord c = false := by
  rw [← List.map_eq_nil_iff, map_toLower_cased hcs, List.map_eq_nil_iff, List.filter_eq_nil_iff]
  simp only [Bool.not_eq_true]

theorem guardNumeral_cased :
    guardNumeral (cased cs) =
        (if (cs.filter isWord).head?.any Char.isDigit then '_' :: cased cs else cased cs) ∧
      (cased cs ≠ [] → IsWordlike (guardNumeral (cased cs))) := by
  have hhead := head?_cased hcs
  match hwords : cs.filter isWord with
  | [] =>
    rw [hwords, List.head?_nil, Option.map_none, List.head?_eq_none_iff] at hhead
    rw [hhead]
    exact ⟨rfl, fun h => absurd rfl h⟩
  | first :: words =>
    have hfirst : first ∈ cs.filter isWord := hwords ▸ List.mem_cons_self ..
    obtain ⟨hm, hword⟩ := List.mem_filter.mp hfirst
    obtain ⟨hdigit, hlower⟩ := Text.toLower_first (hcs first hm) hword
    rw [hwords, List.head?_cons, Option.map_some, List.head?_eq_some_iff] at hhead
    obtain ⟨rest, hrest⟩ := hhead
    have hall : ∀ c ∈ first.toLower :: rest, isWord c = true :=
      fun c hc => isWord_of_mem_cased hcs (hrest ▸ hc)
    have hascii := Text.isAscii_of_isWord (hall _ (List.mem_cons_self ..))
    rw [hrest, guardNumeral, (Text.plainCase hascii).isNumeral, hdigit]
    refine ⟨rfl, fun _ => ?_⟩
    by_cases hd : first.isDigit = true
    · rw [if_pos hd]
      exact ⟨'_', _, rfl, .inr rfl, hall⟩
    · rw [if_neg hd]
      exact ⟨_, rest, rfl, hlower (Bool.not_eq_true _ ▸ hd), (List.forall_mem_cons.mp hall).2⟩

end

/-- What a name of ASCII has for an identifier. -/
theorem ofName_ascii (name : String) (h : ∀ c ∈ name.toList, IsAscii c) :
    (ofName name = "" ↔ ∀ c ∈ name.toList, isWord c = false) ∧
      (ofName name ≠ "" → IsWordlike (ofName name).toList ∧ ofName name ∉ keywords ∧
        Spells (ofName name).toList (name.toList.filter isWord)) := by
  obtain ⟨hguarded, hwordlike⟩ := guardNumeral_cased h
  have htext : (ofName name).toList = guardKeyword (guardNumeral (cased name.toList)) :=
    String.toList_ofList
  have hempty : ofName name = "" ↔ cased name.toList = [] := by
    rw [← String.toList_eq_nil_iff, htext, guards_eq_nil_iff]
  refine ⟨hempty.trans (cased_eq_nil_iff h), fun hne => ⟨?_, ?_, ?_⟩⟩
  · rw [htext]
    exact (hwordlike fun he => hne (hempty.mpr he)).guardKeyword
  · exact guardKeyword_not_mem_keywords (guardNumeral (cased name.toList))
  · refine ⟨_, _, map_toLower_cased h, hguarded, ?_⟩
    rw [htext, guardKeyword_eq]

theorem ofName_ascii_keyword :
    (∀ c ∈ "RE-TURN".toList, IsAscii c) ∧ ofName "RE-TURN" = "return_" ∧
      IsWordlike (ofName "RE-TURN").toList ∧ ofName "RE-TURN" ∉ keywords ∧
      Spells (ofName "RE-TURN").toList ['R', 'E', 'T', 'U', 'R', 'N'] := by
  have hascii : ∀ c ∈ "RE-TURN".toList, IsAscii c := by decide
  have hname : ofName "RE-TURN" = "return_" := by decide +kernel
  have hne : ofName "RE-TURN" ≠ "" := by rw [hname]; decide
  exact ⟨hascii, hname, (ofName_ascii "RE-TURN" hascii).2 hne⟩

end Identifier

end Accessors

import Mathlib.Data.List.TakeWhile
import Accessors.Proofs.Identifier.Name

/-!
# The alphabet of identifiers

Case forms are taken of kept characters after the others were dropped. So the characters of an
identifier are kept ones, or the marks that a few case forms are written with. An identifier is its
own identifier just if it holds no such mark; and it holds none if no letter of the name has a case
form with a mark.
-/

namespace Accessors.Identifier

open Text (caseMarks)

variable {cs xs zs : List Char} {c d : Char} {n : Nat} {gap : Bool}

theorem isKept_of_isLetter (h : Text.isLetter c = true) : isKept c = true := by
  simp [isKept, Text.isAlphanumeric, h]

theorem isKept_or_mark_of_mem_toUpper (hc : isKept c = true) (h : d ∈ Text.toUpper c) :
    isKept d = true ∨ d ∈ caseMarks := by
  rcases Text.toUpper_cases c with he | ⟨-, hall⟩
  · rw [he, List.mem_singleton] at h
    exact .inl (h ▸ hc)
  · exact (hall d h).imp_left isKept_of_isLetter

theorem kept_or_dotted_of_mem_toLower (h : d ∈ Text.toLower c) :
    d = c ∨ isKept d = true ∨ c = '\u0130' ∧ d = '\u0307' := by
  rcases Text.toLower_cases c with he | ⟨letter, he, hletter, -⟩ | ⟨rfl, he⟩
  · rw [he, List.mem_singleton] at h
    exact .inl h
  · rw [he, List.mem_singleton] at h
    exact .inr (.inl (h ▸ isKept_of_isLetter hletter))
  · rw [he, List.mem_cons, List.mem_singleton] at h
    rcases h with rfl | rfl
    · exact .inr (.inl (by decide +kernel))
    · exact .inr (.inr ⟨rfl, rfl⟩)

theorem isKept_or_mark_of_mem_ofChars (h : d ∈ ofChars cs) :
    isKept d = true ∨ d ∈ caseMarks := by
  rcases source_of_mem_ofChars h with rfl | ⟨c, -, hc, u, hu, hd⟩
  · exact .inl (by decide)
  have hkept : isKept u = true ∨ u ∈ caseMarks := by
    rcases hu with rfl | hu
    · exact .inl hc
    · exact isKept_or_mark_of_mem_toUpper hc hu
  rcases hd with rfl | hd
  · exact hkept
  rcases kept_or_dotted_of_mem_toLower hd with rfl | hd | ⟨-, rfl⟩
  · exact hkept
  · exact .inl hd
  · exact .inr (by decide)

/-- No case form of the character is written with a mark. -/
def Unmarked (c : Char) : Prop := ∀ d ∈ Text.toUpper c ++ Text.toLower c, isKept d = true

instance (c : Char) : Decidable (Unmarked c) :=
  inferInstanceAs (Decidable (∀ d ∈ Text.toUpper c ++ Text.toLower c, _))

theorem isKept_of_unmarked (hcs : ∀ c ∈ cs, isKept c = true → Unmarked c) (h : d ∈ ofChars cs) :
    isKept d = true := by
  rcases source_of_mem_ofChars h with rfl | ⟨c, hm, hc, u, hu, hd⟩
  · decide
  have hunmarked := hcs c hm hc
  have hkept : isKept u = true := by
    rcases hu with rfl | hu
    · exact hc
    · exact hunmarked u (List.mem_append_left _ hu)
  rcases hd with rfl | hd
  · exact hkept
  rcases kept_or_dotted_of_mem_toLower hd with rfl | hd | ⟨rfl, rfl⟩
  · exact hkept
  · exact hd
  · have hdotted : c = '\u0130' := hu.elim Eq.symm Text.eq_of_dotted_mem_toUpper
    subst hdotted
    exact hunmarked _ (List.mem_append_right _ hd)

theorem lowered_cases (cs : List Char) :
    lowered cs = (cs.takeWhile Text.isUpper).length ∨
      1 < (cs.takeWhile Text.isUpper).length ∧
        lowered cs = (cs.takeWhile Text.isUpper).length - 1 := by
  unfold lowered
  dsimp only
  split
  · exact .inl rfl
  · next hrun =>
    split
    · exact .inl rfl
    · split
      · exact .inr ⟨Nat.not_le.mp hrun, rfl⟩
      · exact .inl rfl

theorem lowered_le (cs : List Char) : lowered cs ≤ (cs.takeWhile Text.isUpper).length := by
  rcases lowered_cases cs with h | ⟨-, h⟩ <;> omega

theorem take_lowered_run (cs : List Char) : cs.take (lowered cs) <+: cs.takeWhile Text.isUpper := by
  have hprefix := List.takeWhile_prefix Text.isUpper (l := cs)
  exact List.prefix_of_prefix_length_le (List.take_prefix ..) hprefix
    ((List.length_take_le ..).trans (lowered_le cs))

theorem flatMap_toLower_eq_self (h : ∀ c ∈ cs, Text.toLower c = [c]) :
    cs.flatMap Text.toLower = cs := by
  rw [List.flatMap_congr h, List.flatMap_singleton']

theorem lowerLeading_eq_self (h : ∀ c ∈ cs.take (lowered cs), Text.toLower c = [c]) :
    lowerLeading cs = cs := by
  rw [lowerLeading, flatMap_toLower_eq_self h, List.take_append_drop]

/-- What stands before the first character that is lowered stays, and then the leading run ends. -/
theorem lowerLeading_lowerLeading (hkept : ∀ d ∈ lowerLeading cs, isKept d = true) :
    lowerLeading (lowerLeading cs) = lowerLeading cs := by
  cases hfirst : (cs.take (lowered cs)).find? fun c => !(Text.toLower c == [c]) with
  | none =>
    have hall : ∀ c ∈ cs.take (lowered cs), Text.toLower c = [c] := by
      simpa using List.find?_eq_none.mp hfirst
    rw [lowerLeading_eq_self hall, lowerLeading_eq_self hall]
  | some c =>
    obtain ⟨hc, before, behind, htake, hbefore⟩ := List.find?_eq_some_iff_append.mp hfirst
    have hfixed : ∀ x ∈ before, Text.toLower x = [x] := by simpa using hbefore
    have hlowered : lowerLeading cs =
        before ++ (Text.toLower c ++ (behind.flatMap Text.toLower ++ cs.drop (lowered cs))) := by
      rw [lowerLeading, htake, List.flatMap_append, List.flatMap_cons,
        flatMap_toLower_eq_self hfixed, List.append_assoc, List.append_assoc]
    obtain ⟨d, hd, hlower⟩ : ∃ d, Text.toLower c = [d] ∧ Text.isUpper d = false := by
      rcases Text.toLower_cases c with he | ⟨d, he, -, hlower⟩ | ⟨-, he⟩
      · simp [he] at hc
      · exact ⟨d, he, hlower⟩
      · have hmark : '\u0307' ∈ lowerLeading cs := by simp [hlowered, he]
        exact absurd (hkept _ hmark) (by decide +kernel)
    have hupper : ∀ x ∈ before, Text.isUpper x = true := by
      intro x hx
      have hm : x ∈ cs.take (lowered cs) := htake ▸ List.mem_append_left _ hx
      exact List.mem_takeWhile_imp ((take_lowered_run cs).subset hm)
    rw [hd, List.singleton_append] at hlowered
    refine lowerLeading_eq_self fun x hx => hfixed x ?_
    have hrun := (take_lowered_run (lowerLeading cs)).subset hx
    rw [hlowered, List.takeWhile_append_of_pos hupper, List.takeWhile_cons, hlower] at hrun
    simpa using hrun

theorem joinFrom_append (h : ∀ x ∈ xs, isKept x = true) (cs : List Char) :
    joinFrom false (xs ++ cs) = xs ++ joinFrom false cs := by
  induction xs with
  | nil => rfl
  | cons x xs ih =>
    obtain ⟨hx, hxs⟩ := List.forall_mem_cons.mp h
    rw [List.cons_append, joinFrom, if_pos hx, ih hxs]
    rfl

theorem join_append (hne : xs ≠ []) (h : ∀ x ∈ xs, isKept x = true) (cs : List Char) :
    join (xs ++ cs) = xs ++ joinFrom false cs := by
  obtain ⟨x, xs, rfl⟩ := List.exists_cons_of_ne_nil hne
  have hx := h x (List.mem_cons_self ..)
  rw [join, List.cons_append, List.dropWhile_cons, if_neg (by simp [hx]), ← List.cons_append,
    joinFrom_append h]

theorem join_eq_self (h : ∀ c ∈ cs, isKept c = true) : join cs = cs := by
  by_cases hne : cs = []
  · subst hne
    rfl
  · have hjoin := join_append hne h []
    rwa [List.append_nil, show joinFrom false [] = [] from rfl, List.append_nil] at hjoin

theorem lowerLeading_underscore (cs : List Char) : lowerLeading ('_' :: cs) = '_' :: cs := by
  have hrun : lowered ('_' :: cs) = 0 := by
    have hle := lowered_le ('_' :: cs)
    rw [List.takeWhile_cons, if_neg (by decide)] at hle
    exact Nat.le_zero.mp hle
  rw [lowerLeading, hrun]
  rfl

theorem lowerLeading_subset_ofChars (cs : List Char) : lowerLeading (join cs) ⊆ ofChars cs := by
  intro d hd
  have hnumeral : d ∈ guardNumeral (lowerLeading (join cs)) := by
    rcases guardNumeral_cases (lowerLeading (join cs)) with he | ⟨c, rest, -, -, he⟩
    · rwa [he]
    · rw [he]
      exact List.mem_cons_of_mem _ hd
  rw [ofChars]
  rcases guardKeyword_cases (guardNumeral (lowerLeading (join cs))) with he | ⟨-, he⟩
  · rwa [he]
  · rw [he]
    exact List.mem_append_left _ hnumeral

theorem lowered_append_underscore (cs : List Char) : lowered (cs ++ ['_']) = lowered cs := by
  have hrun : (cs ++ ['_']).takeWhile Text.isUpper = cs.takeWhile Text.isUpper := by
    induction cs with
    | nil => decide
    | cons c cs ih =>
      rw [List.cons_append, List.takeWhile_cons, List.takeWhile_cons, ih]
  have hle := (List.takeWhile_prefix Text.isUpper (l := cs)).length_le
  simp only [lowered, hrun]
  rcases Nat.lt_or_eq_of_le hle with hlt | heq
  · rw [List.getElem?_append_left hlt]
  · rw [heq, List.getElem?_append_right (Nat.le_refl _), Nat.sub_self, List.getElem?_length]
    rfl

theorem lowerLeading_append_underscore (cs : List Char) :
    lowerLeading (cs ++ ['_']) = lowerLeading cs ++ ['_'] := by
  have hle : lowered cs ≤ cs.length :=
    (lowered_le cs).trans (List.takeWhile_prefix _).length_le
  rw [lowerLeading, lowered_append_underscore, List.take_append_of_le_length hle,
    List.drop_append_of_le_length hle, ← List.append_assoc]
  rfl

theorem guardNumeral_append_underscore (h : guardNumeral cs = cs) :
    guardNumeral (cs ++ ['_']) = cs ++ ['_'] := by
  cases cs with
  | nil => rfl
  | cons c rest =>
    have hc : ¬ Text.isNumeral c = true := fun hc => by
      rw [guardNumeral, if_pos hc] at h
      exact absurd (congrArg List.length h) (Nat.succ_ne_self _)
    exact if_neg hc

theorem append_underscore_not_mem_keywords (cs : List Char) :
    String.ofList (cs ++ ['_']) ∉ keywords := by
  have hlast : ∀ keyword ∈ keywords, keyword.toList.getLast? ≠ some '_' := by decide +kernel
  exact fun hkeyword => hlast _ hkeyword (by simp)

theorem guardKeyword_append_underscore (cs : List Char) :
    guardKeyword (cs ++ ['_']) = cs ++ ['_'] :=
  (guardKeyword_cases _).resolve_right fun h => append_underscore_not_mem_keywords cs h.1

theorem ofChars_ofChars (hkept : ∀ d ∈ ofChars cs, isKept d = true) :
    ofChars (ofChars cs) = ofChars cs := by
  let lowered := lowerLeading (join cs)
  have hlowered : lowerLeading (guardNumeral lowered) = guardNumeral lowered := by
    rcases guardNumeral_cases lowered with he | ⟨c, rest, -, -, he⟩
    · rw [he]
      exact lowerLeading_lowerLeading fun d hd => hkept d (lowerLeading_subset_ofChars cs hd)
    · rw [he, lowerLeading_underscore]
  have hnumeral : guardNumeral (guardNumeral lowered) = guardNumeral lowered := by
    rcases guardNumeral_cases lowered with he | ⟨c, rest, -, -, he⟩
    · rw [he, he]
    · rw [he]
      rfl
  have hself : ofChars cs = guardKeyword (guardNumeral lowered) := rfl
  rw [ofChars, join_eq_self hkept, hself]
  rcases guardKeyword_cases (guardNumeral lowered) with he | ⟨-, he⟩
  · rw [he, hlowered, hnumeral, he]
  · rw [he, lowerLeading_append_underscore, hlowered, guardNumeral_append_underscore hnumeral,
      guardKeyword_append_underscore]

theorem exists_head_toUpper (hc : isKept c = true) :
    ∃ d rest, Text.toUpper c = d :: rest ∧ isKept d = true := by
  rcases Text.toUpper_cases c with he | ⟨hhead, -⟩
  · exact ⟨c, [], he, hc⟩
  · match he : Text.toUpper c with
    | [] => simp [he] at hhead
    | d :: rest => exact ⟨d, rest, rfl, isKept_of_isLetter (by simpa [he] using hhead)⟩

theorem exists_head_toLower (hc : isKept c = true) :
    ∃ d rest, Text.toLower c = d :: rest ∧ isKept d = true ∧ (d = c → rest = []) := by
  rcases Text.toLower_cases c with he | ⟨d, he, hletter, -⟩ | ⟨rfl, he⟩
  · exact ⟨c, [], he, hc, fun _ => rfl⟩
  · exact ⟨d, [], he, isKept_of_isLetter hletter, fun _ => rfl⟩
  · exact ⟨'i', ['\u0307'], he, by decide +kernel, fun h => absurd h (by decide)⟩

def KeptHead (cs : List Char) : Prop := ∀ c ∈ cs.head?, isKept c = true

theorem keptHead_cons : KeptHead (c :: cs) ↔ isKept c = true := by simp [KeptHead]

theorem keptHead_joinFrom (gap : Bool) (cs : List Char) : KeptHead (joinFrom gap cs) := by
  induction cs generalizing gap with
  | nil => exact fun _ h => by cases h
  | cons c rest ih =>
    rw [joinFrom]
    split
    · next hc =>
      cases gap with
      | false => exact keptHead_cons.mpr hc
      | true =>
        obtain ⟨d, behind, he, hd⟩ := exists_head_toUpper hc
        rw [if_pos rfl, he]
        exact keptHead_cons.mpr hd
    · exact ih true

theorem keptHead_lowered (hxs : ∀ x ∈ xs, isKept x = true) (hzs : KeptHead zs)
    (h : xs <+: ((xs ++ zs).take n).flatMap Text.toLower ++ (xs ++ zs).drop n) :
    ∃ ys, ((xs ++ zs).take n).flatMap Text.toLower ++ (xs ++ zs).drop n = xs ++ ys ∧
      KeptHead ys := by
  induction xs generalizing n with
  | nil =>
    refine ⟨_, rfl, ?_⟩
    match n, zs with
    | 0, zs => exact hzs
    | n + 1, [] => exact fun _ h => by simp at h
    | n + 1, z :: zs =>
      obtain ⟨d, rest, he, hd, -⟩ := exists_head_toLower (keptHead_cons.mp hzs)
      simp only [List.nil_append, List.take_succ_cons, List.flatMap_cons, he]
      exact keptHead_cons.mpr hd
  | cons x xs ih =>
    obtain ⟨hx, hxs⟩ := List.forall_mem_cons.mp hxs
    cases n with
    | zero => exact ⟨zs, rfl, hzs⟩
    | succ n =>
      obtain ⟨d, rest, he, -, hsingle⟩ := exists_head_toLower hx
      simp only [List.cons_append, List.take_succ_cons, List.flatMap_cons, List.drop_succ_cons, he,
        List.cons_prefix_cons] at h ⊢
      obtain ⟨rfl, h⟩ := h
      obtain rfl := hsingle rfl
      obtain ⟨ys, hys, hhead⟩ := ih hxs h
      exact ⟨ys, congrArg (x :: ·) hys, hhead⟩

theorem prefix_lowered_of_ofChars {ws behind : List Char} {mark : Char}
    (hws : xs.head? = some '_' → ws.head? = some '_') (hmark : isKept mark = false)
    (h : guardKeyword (guardNumeral ws) = xs ++ mark :: behind) : xs ++ [mark] <+: ws := by
  have hne : mark ≠ '_' := fun he => absurd (he ▸ hmark) (by decide)
  have hkeyword : xs ++ [mark] <+: guardNumeral ws := by
    have hprefix : xs ++ [mark] <+: guardKeyword (guardNumeral ws) :=
      ⟨behind, by rw [h, List.append_assoc]; rfl⟩
    rcases guardKeyword_cases (guardNumeral ws) with he | ⟨-, he⟩
    · rwa [he] at hprefix
    · rw [he, List.prefix_concat_iff] at hprefix
      refine hprefix.resolve_left fun heq => hne ?_
      exact List.singleton_inj.mp (List.append_inj_right' heq rfl)
  rcases guardNumeral_cases ws with he | ⟨c, rest, rfl, hc, he⟩
  · rwa [he] at hkeyword
  · rw [he] at hkeyword
    cases xs with
    | nil => exact absurd (List.cons_prefix_cons.mp hkeyword).1 hne
    | cons x xs =>
      have hx : x = '_' := (List.cons_prefix_cons.mp hkeyword).1
      obtain rfl : c = '_' := Option.some.inj (hws (congrArg some hx))
      exact absurd hc (by decide +kernel)

theorem isKept_of_ofChars_eq_self (h : ofChars cs = cs) (hc : c ∈ cs) : isKept c = true := by
  by_contra hnot
  have hfind : (cs.find? fun c => !isKept c).isSome = true :=
    List.find?_isSome.mpr ⟨c, hc, by simpa using hnot⟩
  obtain ⟨mark, hfirst⟩ := Option.isSome_iff_exists.mp hfind
  obtain ⟨hmark, before, behind, rfl, hbefore⟩ := List.find?_eq_some_iff_append.mp hfirst
  have hkept : ∀ x ∈ before, isKept x = true := by simpa using hbefore
  have hmark : isKept mark = false := by simpa using hmark
  obtain ⟨zs, hjoin, hzs⟩ : ∃ zs, join (before ++ mark :: behind) = before ++ zs ∧ KeptHead zs := by
    by_cases hne : before = []
    · subst hne
      exact ⟨_, (List.nil_append _).symm, keptHead_joinFrom _ _⟩
    · exact ⟨_, join_append hne hkept _, keptHead_joinFrom _ _⟩
  have hunderscore : before.head? = some '_' →
      (lowerLeading (before ++ zs)).head? = some '_' := by
    intro hhead
    obtain ⟨tail, rfl⟩ := List.head?_eq_some_iff.mp hhead
    rw [List.cons_append, lowerLeading_underscore]
    rfl
  rw [ofChars, hjoin] at h
  obtain ⟨tail, htail⟩ := prefix_lowered_of_ofChars hunderscore hmark h
  rw [List.append_assoc, List.singleton_append] at htail
  obtain ⟨ys, hys, hhead⟩ := keptHead_lowered hkept hzs ⟨_, htail⟩
  have hmarked : mark :: tail = ys := List.append_cancel_left (htail.trans hys)
  rw [← hmarked, keptHead_cons, hmark] at hhead
  cases hhead

/-- The characters of an identifier are kept ones or marks of case forms. It is its own identifier
just if it has no mark, as is the case if no letter of the name has a case form with one. -/
theorem ofName_alphabet (name : String) :
    (∀ d ∈ (ofName name).toList, isKept d = true ∨ d ∈ caseMarks) ∧
      (ofName (ofName name) = ofName name ↔ ∀ d ∈ (ofName name).toList, isKept d = true) ∧
      ((∀ c ∈ name.toList, isKept c = true → Unmarked c) →
        (∀ d ∈ (ofName name).toList, isKept d = true) ∧ ofName (ofName name) = ofName name) := by
  have htext : (ofName name).toList = ofChars name.toList := String.toList_ofList
  have hself : ofName (ofName name) = ofName name ↔
      ofChars (ofChars name.toList) = ofChars name.toList := by
    rw [← htext, ← String.toList_inj, ofName, String.toList_ofList]
  have hiff : ofName (ofName name) = ofName name ↔
      ∀ d ∈ (ofName name).toList, isKept d = true := by
    rw [hself, htext]
    exact ⟨fun h d => isKept_of_ofChars_eq_self h, ofChars_ofChars⟩
  refine ⟨fun d hd => isKept_or_mark_of_mem_ofChars (htext ▸ hd), hiff, fun hname => ?_⟩
  have hkept : ∀ d ∈ (ofName name).toList, isKept d = true := fun d hd =>
    isKept_of_unmarked hname (htext ▸ hd)
  exact ⟨hkept, hiff.mpr hkept⟩

theorem ofName_alphabet_expanded :
    (∀ c ∈ "ÉTÉ-ßfall.ⅷ".toList, isKept c = true → Unmarked c) ∧
      (∀ d ∈ (ofName "ÉTÉ-ßfall.ⅷ").toList, isKept d = true) ∧
      ofName "ÉTÉ-ßfall.ⅷ" = "étésSfallⅧ" ∧
      ofName (ofName "ÉTÉ-ßfall.ⅷ") = ofName "ÉTÉ-ßfall.ⅷ" := by
  have hname : ∀ c ∈ "ÉTÉ-ßfall.ⅷ".toList, isKept c = true → Unmarked c := by decide +kernel
  obtain ⟨hkept, hself⟩ := (ofName_alphabet "ÉTÉ-ßfall.ⅷ").2.2 hname
  exact ⟨hname, hkept, by decide +kernel, hself⟩

/-- The small form of the capital I with a dot has a mark, which the next identifier drops. -/
theorem ofName_alphabet_dotted :
    '\u0307' ∈ (ofName "\u0130").toList ∧ isKept '\u0307' = false ∧
      ofName (ofName "\u0130") = "i" ∧ ofName (ofName "\u0130") ≠ ofName "\u0130" := by
  refine ⟨?_, ?_, ?_, ?_⟩ <;> decide +kernel

end Accessors.Identifier

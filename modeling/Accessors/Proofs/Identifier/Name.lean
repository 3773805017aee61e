import Accessors.Identifier.Name
import Accessors.Proofs.Text.LetterCase

/-!
# Characters of identifiers

Case mappings change no mark below the letters of ASCII into another, and produce none. So an
identifier holds no mark, such as a dot, that a name loses.
-/

namespace Accessors

namespace Text

/-- The marks, numerals and controls of ASCII before the letters, but for the null character, which
stands for an invalid code point. -/
def IsMark (c : Char) : Prop := 0 < c.toNat ∧ c.toNat < 0x41

instance (c : Char) : Decidable (IsMark c) := inferInstanceAs (Decidable (_ ∧ _))

theorem toNat_of_isMark_ofNat {n : Nat} (h : IsMark (Char.ofNat n)) : (Char.ofNat n).toNat = n := by
  by_cases hn : n.isValidChar
  · rw [Char.ofNat, dif_pos hn]
    rfl
  · rw [Char.ofNat, dif_neg hn] at h
    exact absurd h.1 (by decide)

theorem eq_of_mem_mapCase {expansions : List (Nat × List Nat)} {map : List CaseRange} {c d : Char}
    (hexp : ∀ e ∈ expansions, ∀ n ∈ e.2, 0x41 ≤ n) (hmap : ∀ r ∈ map, 0x41 ≤ r.target)
    (hd : IsMark d) (h : d ∈ mapCase expansions map c) : d = c := by
  rcases mapCase_cases expansions map c with he | ⟨r, hr, n, hn, he⟩ | ⟨expansion, hm, he⟩
  · rw [he] at h
    exact List.mem_singleton.mp h
  · rw [he] at h
    obtain rfl := List.mem_singleton.mp h
    have hle := (hmap r hr).trans (CaseRange.bounds_of_mem_targets hn).1
    have := hd.2
    rw [toNat_of_isMark_ofNat hd] at this
    omega
  · rw [he] at h
    obtain ⟨n, hn, rfl⟩ := List.mem_map.mp h
    have hle := hexp _ hm n hn
    have := hd.2
    rw [toNat_of_isMark_ofNat hd] at this
    omega

theorem eq_of_mem_toUpper {c d : Char} (hd : IsMark d) (h : d ∈ toUpper c) : d = c :=
  eq_of_mem_mapCase (by decide +kernel) (by decide +kernel) hd h

theorem eq_of_mem_toLower {c d : Char} (hd : IsMark d) (h : d ∈ toLower c) : d = c :=
  eq_of_mem_mapCase (by decide +kernel) (by decide +kernel) hd h

end Text

namespace Identifier

open Text (IsMark)

theorem exists_of_mem_joinFrom {d : Char} {gap : Bool} {cs : List Char} (h : d ∈ joinFrom gap cs) :
    ∃ c ∈ cs, isKept c = true ∧ (d = c ∨ d ∈ Text.toUpper c) := by
  induction cs generalizing gap with
  | nil => cases h
  | cons c rest ih =>
    rw [joinFrom] at h
    split at h
    · next hc =>
      rcases List.mem_append.mp h with h | h
      · refine ⟨c, List.mem_cons_self .., hc, ?_⟩
        cases gap with
        | true => exact .inr h
        | false => exact .inl (List.mem_singleton.mp h)
      · obtain ⟨c', hm, hd⟩ := ih h
        exact ⟨c', List.mem_cons_of_mem _ hm, hd⟩
    · obtain ⟨c', hm, hd⟩ := ih h
      exact ⟨c', List.mem_cons_of_mem _ hm, hd⟩

theorem exists_of_mem_lowerLeading {d : Char} {cs : List Char} (h : d ∈ lowerLeading cs) :
    ∃ c ∈ cs, d = c ∨ d ∈ Text.toLower c := by
  rcases List.mem_append.mp h with h | h
  · obtain ⟨c, hc, hd⟩ := List.mem_flatMap.mp h
    exact ⟨c, List.mem_of_mem_take hc, .inr hd⟩
  · exact ⟨d, List.mem_of_mem_drop h, .inl rfl⟩

theorem guardNumeral_cases (cs : List Char) :
    guardNumeral cs = cs ∨ ∃ c rest, cs = c :: rest ∧ Text.isNumeral c = true ∧
      guardNumeral cs = '_' :: cs := by
  cases cs with
  | nil => exact .inl rfl
  | cons c rest =>
    by_cases hc : Text.isNumeral c = true
    · exact .inr ⟨c, rest, rfl, hc, if_pos hc⟩
    · exact .inl (if_neg hc)

theorem guardKeyword_cases (cs : List Char) :
    guardKeyword cs = cs ∨ String.ofList cs ∈ keywords ∧ guardKeyword cs = cs ++ ['_'] := by
  by_cases h : keywords.contains (String.ofList cs) = true
  · exact .inr ⟨List.contains_iff_mem.mp h, if_pos h⟩
  · exact .inl (if_neg h)

theorem mem_of_mem_guardNumeral {d : Char} {cs : List Char} (h : d ∈ guardNumeral cs) :
    d = '_' ∨ d ∈ cs := by
  rcases guardNumeral_cases cs with he | ⟨_, _, -, -, he⟩
  · exact .inr (he ▸ h)
  · exact List.mem_cons.mp (he ▸ h)

theorem mem_of_mem_guardKeyword {d : Char} {cs : List Char} (h : d ∈ guardKeyword cs) :
    d = '_' ∨ d ∈ cs := by
  rcases guardKeyword_cases cs with he | ⟨-, he⟩
  · exact .inr (he ▸ h)
  · rw [he] at h
    exact (List.mem_append.mp h).symm.imp_left List.mem_singleton.mp

theorem source_of_mem_ofChars {cs : List Char} {d : Char} (h : d ∈ ofChars cs) :
    d = '_' ∨ ∃ c ∈ cs, isKept c = true ∧
      ∃ u, (u = c ∨ u ∈ Text.toUpper c) ∧ (d = u ∨ d ∈ Text.toLower u) := by
  rcases mem_of_mem_guardKeyword h with rfl | h
  · exact .inl rfl
  rcases mem_of_mem_guardNumeral h with rfl | h
  · exact .inl rfl
  obtain ⟨u, hu, hd⟩ := exists_of_mem_lowerLeading h
  obtain ⟨c, hc, hkept, hu⟩ := exists_of_mem_joinFrom hu
  exact .inr ⟨c, (List.dropWhile_sublist _).subset hc, hkept, u, hu, hd⟩

theorem isKept_of_mem_ofName {d : Char} (hd : IsMark d) {name : String}
    (h : d ∈ (ofName name).toList) : isKept d = true := by
  rw [ofName, String.toList_ofList] at h
  rcases source_of_mem_ofChars h with rfl | ⟨c, -, hc, u, huc, hdu⟩
  · decide
  obtain rfl : d = u := hdu.elim id (Text.eq_of_mem_toLower hd)
  obtain rfl : d = c := huc.elim id (Text.eq_of_mem_toUpper hd)
  exact hc

theorem dot_not_mem_ofName (name : String) : '.' ∉ (ofName name).toList := fun h =>
  absurd (isKept_of_mem_ofName (by decide) h) (by decide)

theorem joinFrom_append_dropped {c : Char} (hc : isKept c = false) (gap : Bool) (cs : List Char) :
    joinFrom gap (cs ++ [c]) = joinFrom gap cs := by
  induction cs generalizing gap with
  | nil => simp [joinFrom, hc]
  | cons d rest ih => rw [List.cons_append, joinFrom, joinFrom, ih, ih]

theorem join_append_dropped {c : Char} (hc : isKept c = false) (cs : List Char) :
    join (cs ++ [c]) = join cs := by
  rw [join, join, List.dropWhile_append]
  split
  · next hnone => simp [List.isEmpty_iff.mp hnone, hc]
  · exact joinFrom_append_dropped hc false _

theorem ofName_append_dot (name : String) : ofName (name ++ ".") = ofName name := by
  have hdot : (name ++ ".").toList = name.toList ++ ['.'] := String.toList_append
  rw [ofName, ofName, hdot, ofChars, join_append_dropped (by decide), ← ofChars]

end Identifier

end Accessors

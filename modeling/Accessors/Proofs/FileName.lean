import Accessors.FileName

/-!
# Putting a file name together again

A name is split at the last character of a kind, and nothing but that character is lost. A stem and
an extension that is not empty are joined by a dot. So a name is the one that its parts join to,
unless it ends in a dot behind other characters: then the dot is lost and the extension is empty.
-/

namespace Accessors.FileName

section

variable {p : Char → Bool} {cs before after : List Char}

theorem splitLast?_eq_none (h : ∀ c ∈ cs, p c = false) : splitLast? p cs = none := by
  induction cs with
  | nil => rfl
  | cons c rest ih =>
    rw [List.forall_mem_cons] at h
    simp [splitLast?, ih h.2, h.1]

theorem splitLast?_append {c : Char} (hc : p c = true) (h : ∀ d ∈ after, p d = false) :
    splitLast? p (before ++ c :: after) = some (before, after) := by
  induction before with
  | nil => simp [splitLast?, splitLast?_eq_none h, hc]
  | cons b before ih => rw [List.cons_append, splitLast?, ih]

theorem append_of_splitLast? (h : splitLast? p cs = some (before, after)) :
    ∃ c, p c = true ∧ cs = before ++ c :: after := by
  induction cs generalizing before with
  | nil => cases h
  | cons c rest ih =>
    rw [splitLast?] at h
    split at h
    · next inner after' hrest =>
      obtain ⟨rfl, rfl⟩ := Prod.mk.inj (Option.some.inj h)
      obtain ⟨d, hd, rfl⟩ := ih hrest
      exact ⟨d, hd, rfl⟩
    · split at h
      · next hc =>
        obtain ⟨rfl, rfl⟩ := Prod.mk.inj (Option.some.inj h)
        exact ⟨c, hc, rfl⟩
      · cases h

end

def join (parts : String × String) : String :=
  if parts.2 = "" then parts.1 else parts.1 ++ "." ++ parts.2

/-- The name ends in a dot, which is not its first character. -/
def EndsInDot (name : String) : Prop := ∃ stem, stem ≠ "" ∧ name = stem ++ "."

theorem split_cases (name : String) :
    split name = (name, "") ∨ (split name).1 ≠ "" ∧
      name = (split name).1 ++ "." ++ (split name).2 := by
  rw [split]
  split
  · next c before after hsplit =>
    obtain ⟨dot, hdot, hname⟩ := append_of_splitLast? hsplit
    obtain rfl : dot = '.' := beq_iff_eq.mp hdot
    refine .inr ⟨fun he => ?_, String.toList_injective ?_⟩
    · simpa using congrArg String.toList he
    · simp [hname]
  · exact .inl rfl

theorem split_append_dot {stem : String} (h : stem ≠ "") : split (stem ++ ".") = (stem, "") := by
  have hsplit : splitLast? (· == '.') (stem ++ ".").toList = some (stem.toList, []) := by
    rw [String.toList_append]
    exact splitLast?_append (c := '.') rfl nofun
  rw [split, hsplit]
  cases hstem : stem.toList with
  | nil => exact absurd (String.toList_injective hstem) h
  | cons c rest =>
    show (String.ofList (c :: rest), "") = (stem, "")
    rw [← hstem, String.ofList_toList]

theorem append_dot_ne (stem : String) : stem ++ "." ≠ stem := fun h => by
  simpa using congrArg String.length h

theorem join_split_iff {name : String} : join (split name) = name ↔ ¬ EndsInDot name := by
  constructor
  · rintro hjoin ⟨stem, hstem, rfl⟩
    rw [split_append_dot hstem] at hjoin
    exact append_dot_ne stem hjoin.symm
  · intro hdot
    rcases split_cases name with hall | ⟨hstem, hname⟩
    · rw [hall]
      rfl
    · have hextension : (split name).2 ≠ "" := fun he =>
        hdot ⟨_, hstem, by simpa [he] using hname⟩
      rw [join, if_neg hextension, ← hname]

end Accessors.FileName

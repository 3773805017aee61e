import Accessors.Json.Reader
import Accessors.Proofs.Json.Lexing

/-!
# Written values are read back

The tokens of a value lead the reader from where it waits for a value to where it has that value and
hands it to the innermost open container. So what is written of a value is read as that value.
-/

namespace Accessors.Json

open Reading (step stepValue deliver)

theorem foldlM_firstItem (item : Json) (stack : List Frame) (rest : List Token) :
    (tokens item ++ rest).foldlM step (.firstItem stack) =
      (tokens item ++ rest).foldlM step (.value (.array [] :: stack)) := by
  cases item with
  | array items => cases items <;> rfl
  | object members => cases members <;> rfl
  | _ => rfl

mutual

theorem foldlM_tokens (j : Json) (stack : List Frame) (rest : List Token) :
    (tokens j ++ rest).foldlM step (.value stack) = rest.foldlM step (deliver j stack) := by
  match j with
  | .null => rfl
  | .bool _ => rfl
  | .number _ => rfl
  | .string _ => rfl
  | .array [] => rfl
  | .array (item :: items) =>
    have hopen : (tokens (.array (item :: items)) ++ rest).foldlM step (.value stack) =
        (tokens item ++ (itemTokens items ++ .closeArray :: rest)).foldlM step
          (.firstItem stack) := by
      simp [tokens, step, stepValue]
    rw [hopen, foldlM_firstItem, foldlM_tokens item, deliver, foldlM_itemTokens items]
    simp [step]
  | .object [] => rfl
  | .object ((key, value) :: members) =>
    have hopen : (tokens (.object ((key, value) :: members)) ++ rest).foldlM step (.value stack) =
        (tokens value ++ (memberTokens members ++ .closeObject :: rest)).foldlM step
          (.value (.member [] key :: stack)) := by
      simp [tokens, step, stepValue]
    rw [hopen, foldlM_tokens value, deliver, foldlM_memberTokens members]
    simp [step]

theorem foldlM_itemTokens (items : List Json) (stack : List Frame) (reversed : List Json)
    (rest : List Token) :
    (itemTokens items ++ rest).foldlM step (.afterItem stack reversed) =
      rest.foldlM step (.afterItem stack (items.reverse ++ reversed)) := by
  match items with
  | [] => rfl
  | item :: items =>
    have hcomma : (itemTokens (item :: items) ++ rest).foldlM step (.afterItem stack reversed) =
        (tokens item ++ (itemTokens items ++ rest)).foldlM step
          (.value (.array reversed :: stack)) := by
      simp [itemTokens, step]
    rw [hcomma, foldlM_tokens item, deliver, foldlM_itemTokens items]
    simp

theorem foldlM_memberTokens (members : List (Option String × Json)) (stack : List Frame)
    (reversed : List (Option String × Json)) (rest : List Token) :
    (memberTokens members ++ rest).foldlM step (.afterMember stack reversed) =
      rest.foldlM step (.afterMember stack (members.reverse ++ reversed)) := by
  match members with
  | [] => rfl
  | (key, value) :: members =>
    have hcomma : (memberTokens ((key, value) :: members) ++ rest).foldlM step
        (.afterMember stack reversed) =
        (tokens value ++ (memberTokens members ++ rest)).foldlM step
          (.value (.member reversed key :: stack)) := by
      simp [memberTokens, step]
    rw [hcomma, foldlM_tokens value, deliver, foldlM_memberTokens members]
    simp

end

theorem ofTokens_tokens (j : Json) : ofTokens (tokens j) = some j := by
  have h := foldlM_tokens j [] []
  rw [List.append_nil] at h
  rw [ofTokens, h]
  rfl

theorem read_write {spacing : Spacing} (hs : spacing.IsBlank) {j : Json} (hj : j.Sound)
    {blanks : List Char} (hb : blanks.all isBlank = true) :
    read (String.ofList (write spacing 0 j ++ blanks)) = some j := by
  rw [read, String.toList_ofList, lex_write hs hj hb]
  exact ofTokens_tokens j

/-- The text is the value in some layout, with blanks behind it. -/
def Written (j : Json) (s : String) : Prop :=
  ∃ (spacing : Spacing) (blanks : List Char), spacing.IsBlank ∧ blanks.all isBlank = true ∧
    s = String.ofList (write spacing 0 j ++ blanks)

theorem written_compact (j : Json) : Written j (compact j) :=
  ⟨Spacing.compact, [], Spacing.isBlank_compact, rfl, by rw [List.append_nil]; rfl⟩

theorem written_pretty (j : Json) : Written j (pretty j) :=
  ⟨Spacing.pretty, [], Spacing.isBlank_pretty, rfl, by rw [List.append_nil]; rfl⟩

theorem read_written {j : Json} (hj : j.Sound) {s : String} (h : Written j s) :
    read s = some j := by
  obtain ⟨spacing, blanks, hs, hb, rfl⟩ := h
  exact read_write hs hj hb

end Accessors.Json

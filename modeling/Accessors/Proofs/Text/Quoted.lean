import Accessors.Text.Quoted

/-!
# Reading a quoted text back

The quote inside a text is escaped, so a quoted text ends at its first quote that is not, and what
it quotes can be told from it whatever follows. So can the texts of a quoted list: behind each
stands either a comma or the bracket that closes the list.
-/

namespace Accessors.Text

theorem escape_append_inj {c d : Char} {as bs : List Char}
    (h : escape c ++ as = escape d ++ bs) : c = d ∧ as = bs := by
  unfold escape at h
  split at h <;> split at h <;> grind

theorem escape_append_ne (c : Char) (as bs : List Char) : escape c ++ as ≠ '"' :: bs := by
  unfold escape
  split <;> simp_all

theorem quoteChars_append_inj {cs ds as bs : List Char}
    (h : quoteChars cs ++ as = quoteChars ds ++ bs) : cs = ds ∧ as = bs := by
  replace h : cs.flatMap escape ++ '"' :: as = ds.flatMap escape ++ '"' :: bs := by
    simpa [quoteChars] using h
  -- Both texts are read together, as no escaped character starts like the closing quote.
  induction cs generalizing ds with
  | nil =>
    cases ds with
    | nil => simpa using h
    | cons d ds => exact absurd h.symm (by simpa using escape_append_ne d _ _)
  | cons c cs ih =>
    cases ds with
    | nil => exact absurd h (by simpa using escape_append_ne c _ _)
    | cons d ds =>
      simp only [List.flatMap_cons, List.append_assoc] at h
      obtain ⟨rfl, hrest⟩ := escape_append_inj h
      obtain ⟨rfl, rfl⟩ := ih hrest
      exact ⟨rfl, rfl⟩

theorem quote_append_inj {s t a b : String} (h : quote s ++ a = quote t ++ b) : s = t ∧ a = b := by
  have hchars := congrArg String.toList h
  rw [String.toList_append, String.toList_append, toList_quote, toList_quote] at hchars
  obtain ⟨hs, ha⟩ := quoteChars_append_inj hchars
  exact ⟨String.toList_inj.mp hs, String.toList_inj.mp ha⟩

theorem quote_append_iff {s t a b : String} : quote s ++ a = quote t ++ b ↔ s = t ∧ a = b :=
  ⟨quote_append_inj, fun ⟨hs, ha⟩ => hs ▸ ha ▸ rfl⟩

theorem quote_inj {s t : String} : quote s = quote t ↔ s = t := by
  rw [← String.append_left_inj "", quote_append_iff, and_iff_left rfl]

def quotedBefore (rest : String) (values : List String) : String :=
  values.foldr (fun value behind => ", " ++ (quote value ++ behind)) rest

theorem listed_quote_append (value : String) (values : List String) (rest : String) :
    listed ((value :: values).map quote) ++ rest = quote value ++ quotedBefore rest values := by
  induction values generalizing value with
  | nil => simp [listed, quotedBefore]
  | cons next values ih =>
    rw [List.map_cons, List.map_cons, listed, String.intercalate_cons_cons, String.append_assoc,
      ← List.map_cons, ← listed, ih, String.append_assoc]
    rfl

theorem quotedBefore_inj {xs ys : List String} {a b : String}
    (h : quotedBefore ("]" ++ a) xs = quotedBefore ("]" ++ b) ys) : xs = ys ∧ a = b := by
  -- The bracket that closes the list is no comma.
  have hclose : ∀ (values : List String) (value a b : String),
      "]" ++ a ≠ quotedBefore b (value :: values) := by
    intro values value a b he
    have hchars := congrArg (fun text => text.toList.head?) he
    simp [quotedBefore] at hchars
  induction xs generalizing ys with
  | nil =>
    cases ys with
    | nil => exact ⟨rfl, (String.append_right_inj _).mp h⟩
    | cons y ys => exact absurd h (hclose ys y a _)
  | cons x xs ih =>
    cases ys with
    | nil => exact absurd h.symm (hclose xs x b _)
    | cons y ys =>
      obtain ⟨rfl, hrest⟩ := quote_append_inj ((String.append_right_inj _).mp h)
      obtain ⟨rfl, rfl⟩ := ih hrest
      exact ⟨rfl, rfl⟩

theorem quoteList_append (values : List String) (rest : String) :
    quoteList values ++ rest = "[" ++ (listed (values.map quote) ++ ("]" ++ rest)) := by
  rw [quoteList, String.append_assoc, String.append_assoc]

theorem quoteList_append_inj {xs ys : List String} {a b : String}
    (h : quoteList xs ++ a = quoteList ys ++ b) : xs = ys ∧ a = b := by
  rw [quoteList_append, quoteList_append] at h
  replace h := (String.append_right_inj _).mp h
  have hopen : ∀ (values : List String) (value a b : String),
      listed (List.map quote []) ++ ("]" ++ a) ≠ listed ((value :: values).map quote) ++ b := by
    intro values value a b he
    rw [listed_quote_append] at he
    have hchars := congrArg (fun text => text.toList.head?) he
    simp [listed, toList_quote, quoteChars] at hchars
  cases xs with
  | nil =>
    cases ys with
    | nil => exact ⟨rfl, (String.append_right_inj _).mp ((String.append_right_inj _).mp h)⟩
    | cons y ys => exact absurd h (hopen ys y a _)
  | cons x xs =>
    cases ys with
    | nil => exact absurd h.symm (hopen xs x b _)
    | cons y ys =>
      rw [listed_quote_append, listed_quote_append] at h
      obtain ⟨rfl, hrest⟩ := quote_append_inj h
      obtain ⟨rfl, rfl⟩ := quotedBefore_inj hrest
      exact ⟨rfl, rfl⟩

theorem quoteList_append_iff {xs ys : List String} {a b : String} :
    quoteList xs ++ a = quoteList ys ++ b ↔ xs = ys ∧ a = b :=
  ⟨quoteList_append_inj, fun ⟨hs, ha⟩ => hs ▸ ha ▸ rfl⟩

theorem quoteList_inj {xs ys : List String} : quoteList xs = quoteList ys ↔ xs = ys := by
  rw [← String.append_left_inj "", quoteList_append_iff, and_iff_left rfl]

end Accessors.Text

import Accessors.Proofs.Text.Quoted

/-!
# Quoted texts as literals

A literal starts with a quote and ends at the next one, where a backslash takes the character behind
it along. Inside a quoted text the quote and the backslash stand in escapes only, so the literal
that starts with it is the quoted text itself, whatever follows. The texts that are quoted texts are
just those between whose quotes stand plain characters and the five escapes.
-/

namespace Accessors.Text

/-- The characters that do not stand for themselves, each with what its escape has behind the
backslash. -/
def escapes : List (Char × Char) :=
  [('"', '"'), ('\\', '\\'), ('\n', 'n'), ('\r', 'r'), ('\t', 't')]

def reserved : List Char := escapes.map Prod.fst

def marks : List Char := escapes.map Prod.snd

inductive Inside : List Char → Prop
  | nil : Inside []
  | plain {c : Char} {rest : List Char} (hc : c ∉ reserved) (h : Inside rest) : Inside (c :: rest)
  | escaped {mark : Char} {rest : List Char} (hm : mark ∈ marks) (h : Inside rest) :
    Inside ('\\' :: mark :: rest)

variable {c : Char} {cs inner rest : List Char}

theorem escape_of_mem : ∀ pair ∈ escapes, escape pair.1 = ['\\', pair.2] := by decide

theorem escape_of_not_mem (h : c ∉ reserved) : escape c = [c] := by
  unfold escape
  split <;> simp_all [reserved, escapes]

theorem inside_flatMap_escape (cs : List Char) : Inside (cs.flatMap escape) := by
  induction cs with
  | nil => exact .nil
  | cons c cs ih =>
    rw [List.flatMap_cons]
    by_cases hc : c ∈ reserved
    · obtain ⟨pair, hpair, rfl⟩ := List.mem_map.mp hc
      rw [escape_of_mem pair hpair]
      exact .escaped (List.mem_map_of_mem hpair) ih
    · rw [escape_of_not_mem hc]
      exact .plain hc ih

theorem Inside.exists_eq (h : Inside inner) : ∃ cs : List Char, inner = cs.flatMap escape := by
  induction h with
  | nil => exact ⟨[], rfl⟩
  | @plain c _ hc _ ih =>
    obtain ⟨cs, rfl⟩ := ih
    refine ⟨c :: cs, ?_⟩
    rw [List.flatMap_cons, escape_of_not_mem hc]
    rfl
  | escaped hm _ ih =>
    obtain ⟨cs, rfl⟩ := ih
    obtain ⟨pair, hpair, rfl⟩ := List.mem_map.mp hm
    refine ⟨pair.1 :: cs, ?_⟩
    rw [List.flatMap_cons, escape_of_mem pair hpair]
    rfl

theorem exists_quote_iff {text : String} :
    (∃ s, quote s = text) ↔ ∃ inner, Inside inner ∧ text.toList = '"' :: (inner ++ ['"']) := by
  constructor
  · rintro ⟨s, rfl⟩
    exact ⟨_, inside_flatMap_escape s.toList, toList_quote s⟩
  · rintro ⟨inner, h, htext⟩
    obtain ⟨cs, rfl⟩ := h.exists_eq
    refine ⟨String.ofList cs, String.toList_injective ?_⟩
    rw [toList_quote, String.toList_ofList, htext]
    rfl

theorem Inside.not_mem (h : Inside inner) (hreserved : c ∈ reserved) (hslash : c ≠ '\\')
    (hmarks : c ∉ marks) : c ∉ inner := by
  induction h with
  | nil => exact List.not_mem_nil
  | plain hd _ ih =>
    exact List.not_mem_cons_of_ne_of_not_mem (fun he => hd (he ▸ hreserved)) ih
  | escaped hm _ ih =>
    refine List.not_mem_cons_of_ne_of_not_mem hslash ?_
    exact List.not_mem_cons_of_ne_of_not_mem (fun he => hmarks (he ▸ hm)) ih

theorem not_mem_quote (s : String) (hc : c ∈ ['\n', '\r', '\t']) : c ∉ (quote s).toList := by
  have hcases : ∀ c ∈ ['\n', '\r', '\t'], c ∈ reserved ∧ c ≠ '\\' ∧ c ∉ marks ∧ c ≠ '"' := by decide
  obtain ⟨hreserved, hslash, hmarks, hquote⟩ := hcases c hc
  have hinside := (inside_flatMap_escape s.toList).not_mem hreserved hslash hmarks
  simp [toList_quote, quoteChars, hquote, hinside]

def closing? : List Char → Option (List Char × List Char)
  | [] => none
  | '"' :: rest => some (['"'], rest)
  | '\\' :: c :: rest => (closing? rest).map fun parts => ('\\' :: c :: parts.1, parts.2)
  | c :: rest => (closing? rest).map fun parts => (c :: parts.1, parts.2)

def literal? : List Char → Option (List Char × List Char)
  | '"' :: rest => (closing? rest).map fun parts => ('"' :: parts.1, parts.2)
  | _ => none

theorem Inside.closing? (h : Inside inner) (rest : List Char) :
    closing? (inner ++ '"' :: rest) = some (inner ++ ['"'], rest) := by
  induction h with
  | nil => rfl
  | @plain c inner hc _ ih =>
    have hquote : c ≠ '"' := fun he => hc (he ▸ by decide)
    have hslash : c ≠ '\\' := fun he => hc (he ▸ by decide)
    rw [List.cons_append, Text.closing?.eq_4 _ _ hquote fun d behind he => absurd he hslash, ih]
    rfl
  | escaped _ _ ih =>
    simp [Text.closing?, ih]

theorem literal?_quote (s rest : String) :
    literal? (quote s ++ rest).toList = some ((quote s).toList, rest.toList) := by
  rw [String.toList_append, toList_quote, quoteChars, List.cons_append, List.append_assoc, literal?]
  rw [List.singleton_append, (inside_flatMap_escape s.toList).closing?]
  rfl

-- The backslash before the closing quote is itself escaped.
example : literal? (quote "a\\" ++ ", \"b\"").toList =
    some ((quote "a\\").toList, ", \"b\"".toList) := by decide

theorem not_inside_quote {rest : List Char} : ¬ Inside ('"' :: rest) := by
  rintro (_ | ⟨hc, -⟩)
  exact hc (by decide)

theorem Inside.before_quote {front behind : List Char} (h : Inside (front ++ c :: '"' :: behind)) :
    c = '\\' := by
  generalize hcs : front ++ c :: '"' :: behind = cs at h
  induction h generalizing front with
  | nil => simp at hcs
  | @plain d rest hd h ih =>
    cases front with
    | nil =>
      obtain ⟨rfl, rfl⟩ := List.cons.inj hcs
      exact absurd h not_inside_quote
    | cons e front => exact ih (List.cons.inj hcs).2
  | @escaped mark rest hm h ih =>
    match front with
    | [] => exact (List.cons.inj hcs).1
    | [e] =>
      obtain ⟨rfl, rfl⟩ := List.cons.inj (List.cons.inj hcs).2
      exact absurd h not_inside_quote
    | e :: f :: front => exact ih (List.cons.inj (List.cons.inj hcs).2).2

theorem Inside.append_inj {front others inner' : List Char} (h : Inside inner) (h' : Inside inner')
    (he : front ++ ' ' :: '"' :: inner = others ++ ' ' :: '"' :: inner') :
    front = others ∧ inner = inner' := by
  -- A longer front would have the blank and the quote of the other text inside the quoted one.
  have hfront : ∀ {u inner inner' : List Char}, Inside inner →
      ' ' :: '"' :: inner = u ++ ' ' :: '"' :: inner' → u = [] := by
    intro u inner inner' h he
    match u with
    | [] => rfl
    | [d] => exact absurd (List.cons.inj (List.cons.inj he).2).1 (by decide)
    | d :: e :: u =>
      obtain rfl := (List.cons.inj (List.cons.inj he).2).2
      exact absurd h.before_quote (by decide)
  rcases List.append_eq_append_iff.mp he with ⟨u, rfl, hu⟩ | ⟨u, rfl, hu⟩
  · obtain rfl := hfront h hu
    simpa using hu
  · obtain rfl := hfront h' hu
    simpa using hu.symm

theorem blank_quote_inj {a b s t : String} (h : a ++ " " ++ quote s = b ++ " " ++ quote t) :
    a = b ∧ s = t := by
  have hchars : (a.toList ++ ' ' :: '"' :: s.toList.flatMap escape) ++ ['"'] =
      (b.toList ++ ' ' :: '"' :: t.toList.flatMap escape) ++ ['"'] := by
    simpa [toList_quote, quoteChars] using congrArg String.toList h
  obtain ⟨hfront, hinner⟩ := (inside_flatMap_escape _).append_inj (inside_flatMap_escape _)
    (List.append_cancel_right hchars)
  have hquoted : quoteChars s.toList ++ [] = quoteChars t.toList ++ [] := by
    rw [quoteChars, hinner, quoteChars]
  exact ⟨String.toList_injective hfront, String.toList_injective (quoteChars_append_inj hquoted).1⟩

end Accessors.Text

import Accessors.Json.Token
import Accessors.Json.Writer

/-!
# The tokens of a written value

A value has its tokens, whatever the layout. The lexer finds just these in what is written of the
value if the blanks of the layout are blank and the numbers of the value are numbers; a text is
found with the content that was escaped in it.
-/

namespace Accessors.Json

theorem all_isWordChar_of_digits {cs : List Char} (h : cs.all Char.isDigit = true) :
    cs.all isWordChar = true := by
  rw [List.all_eq_true] at h ⊢
  intro c hc
  simp [isWordChar, h c hc]

theorem all_isWordChar_of_dropWhile {cs : List Char}
    (h : (cs.dropWhile Char.isDigit).all isWordChar = true) : cs.all isWordChar = true := by
  rw [← List.takeWhile_append_dropWhile (p := Char.isDigit) (l := cs), List.all_append, h,
    all_isWordChar_of_digits List.all_takeWhile, Bool.and_self]

theorem all_isWordChar_of_isExponent {cs : List Char} (h : isExponent cs = true) :
    cs.all isWordChar = true := by
  unfold isExponent at h
  split at h
  · rfl
  · next e rest =>
    obtain ⟨hmark, hdigits⟩ := Bool.and_eq_true_iff.mp h
    have he : isWordChar e = true := by
      rcases Bool.or_eq_true_iff.mp hmark with he | he <;> rw [beq_iff_eq.mp he] <;> decide
    rw [List.all_cons, he, Bool.true_and]
    split at hdigits
    · next digits =>
      have := all_isWordChar_of_digits (Bool.and_eq_true_iff.mp hdigits).2
      simp only [List.all_cons, this, Bool.and_true]
      decide
    · next digits =>
      have := all_isWordChar_of_digits (Bool.and_eq_true_iff.mp hdigits).2
      simp only [List.all_cons, this, Bool.and_true]
      decide
    · exact all_isWordChar_of_digits (Bool.and_eq_true_iff.mp hdigits).2

theorem all_isWordChar_of_isFraction {cs : List Char} (h : isFraction cs = true) :
    cs.all isWordChar = true := by
  unfold isFraction at h
  split at h
  · next d rest =>
    rw [Bool.and_eq_true] at h
    have hd : isWordChar d = true := by simp [isWordChar, h.1]
    have hrest := all_isWordChar_of_dropWhile (all_isWordChar_of_isExponent h.2)
    simp only [List.all_cons, hd, hrest, Bool.and_true]
    decide
  · exact all_isWordChar_of_isExponent h

theorem all_isWordChar_of_isUnsignedNumber {cs : List Char} (h : isUnsignedNumber cs = true) :
    cs.all isWordChar = true := by
  unfold isUnsignedNumber at h
  split at h
  · simp only [List.all_cons, all_isWordChar_of_isFraction h, Bool.and_true]
    decide
  · next d rest _ =>
    rw [Bool.and_eq_true] at h
    have hd : isWordChar d = true := by simp [isWordChar, h.1]
    simp only [List.all_cons, hd, Bool.true_and]
    exact all_isWordChar_of_dropWhile (all_isWordChar_of_isFraction h.2)
  · cases h

theorem all_isWordChar_of_isNumber {cs : List Char} (h : isNumber cs = true) :
    cs.all isWordChar = true := by
  unfold isNumber at h
  split at h
  · simp only [List.all_cons, all_isWordChar_of_isUnsignedNumber h, Bool.and_true]
    decide
  · exact all_isWordChar_of_isUnsignedNumber h

theorem ofWord?_number {literal : String} (h : isNumber literal.toList = true) :
    Token.ofWord? literal.toList = some (.number literal) := by
  have hne : ∀ word : List Char, isNumber word = false → literal.toList ≠ word :=
    fun word hw he => by rw [he, hw] at h; cases h
  rw [Token.ofWord?, if_neg (hne _ (by decide)), if_neg (hne _ (by decide)),
    if_neg (hne _ (by decide)), if_pos h, String.ofList_toList]

def lexFrom (s : Lexing) (cs : List Char) : Option (List Token) :=
  (cs.foldlM Lexing.step s).bind Lexing.finish

theorem lex_eq (cs : List Char) : lex cs = lexFrom ⟨.between, []⟩ cs := rfl

variable {m n : Mode} {s found : List Token} {t : Token} {c : Char} {cs rest : List Char}

theorem lexFrom_of_step (h : m.step c = some (n, s)) :
    lexFrom ⟨m, found⟩ (c :: rest) = lexFrom ⟨n, s.reverse ++ found⟩ rest := by
  simp [lexFrom, Lexing.step, h]

theorem lexFrom_of_enter (h : enter c = some (n, s)) :
    lexFrom ⟨.between, found⟩ (c :: rest) = lexFrom ⟨n, s.reverse ++ found⟩ rest :=
  lexFrom_of_step (m := .between) h

theorem lexFrom_blank (h : isBlank c = true) :
    lexFrom ⟨.between, found⟩ (c :: rest) = lexFrom ⟨.between, found⟩ rest :=
  lexFrom_of_enter (s := []) (if_pos h)

theorem lexFrom_blanks (h : cs.all isBlank = true) :
    lexFrom ⟨.between, found⟩ (cs ++ rest) = lexFrom ⟨.between, found⟩ rest := by
  induction cs with
  | nil => rfl
  | cons c cs ih =>
    rw [List.all_cons, Bool.and_eq_true] at h
    rw [List.cons_append, lexFrom_blank h.1, ih h.2]

theorem enter_punctuation (h : Token.ofPunctuation? c = some t) :
    enter c = some (.between, [t]) := by
  unfold Token.ofPunctuation? at h
  split at h
  all_goals first | (obtain rfl := Option.some.inj h; rfl) | cases h

theorem lexFrom_punctuation (h : Token.ofPunctuation? c = some t) :
    lexFrom ⟨.between, found⟩ (c :: rest) = lexFrom ⟨.between, t :: found⟩ rest :=
  lexFrom_of_enter (enter_punctuation h)

def EndsWord (cs : List Char) : Prop := ∀ c, cs.head? = some c → isWordChar c = false

theorem not_isWordChar_of_isBlank (h : isBlank c = true) : isWordChar c = false := by
  simp only [isBlank, Bool.or_eq_true, beq_iff_eq] at h
  rcases h with ((rfl | rfl) | rfl) | rfl <;> decide

theorem enter_wordChar (h : isWordChar c = true) : enter c = some (.word [c], []) := by
  have hblank : ¬ isBlank c = true := fun hb => by
    rw [not_isWordChar_of_isBlank hb] at h
    cases h
  have hquote : c ≠ '"' := by
    rintro rfl
    revert h
    decide
  rw [enter, if_neg hblank, if_neg hquote, if_pos h]

theorem lexFrom_wordChars {word : List Char} (h : cs.all isWordChar = true) :
    lexFrom ⟨.word word, found⟩ (cs ++ rest) =
      lexFrom ⟨.word (cs.reverse ++ word), found⟩ rest := by
  induction cs generalizing word with
  | nil => rfl
  | cons c cs ih =>
    rw [List.all_cons, Bool.and_eq_true] at h
    rw [List.cons_append, lexFrom_of_step (n := .word (c :: word)) (s := [])
      (by simp [Mode.step, h.1])]
    simp [ih h.2]

theorem lexFrom_wordEnd {word : List Char} (h : Token.ofWord? word.reverse = some t)
    (hend : EndsWord rest) :
    lexFrom ⟨.word word, found⟩ rest = lexFrom ⟨.between, t :: found⟩ rest := by
  cases rest with
  | nil => simp [lexFrom, Lexing.finish, Mode.finish, h]
  | cons c rest =>
    have hc : isWordChar c = false := hend c rfl
    -- The character ends the word and then does what it does between tokens.
    cases henter : enter c with
    | none => simp [lexFrom, Lexing.step, Mode.step, hc, h, henter]
    | some entered => simp [lexFrom, Lexing.step, Mode.step, hc, h, henter]

theorem lexFrom_word {word : List Char} (hne : word ≠ []) (hchars : word.all isWordChar = true)
    (h : Token.ofWord? word = some t) (hend : EndsWord rest) :
    lexFrom ⟨.between, found⟩ (word ++ rest) = lexFrom ⟨.between, t :: found⟩ rest := by
  cases word with
  | nil => exact absurd rfl hne
  | cons c word =>
    rw [List.all_cons, Bool.and_eq_true] at hchars
    rw [List.cons_append, lexFrom_of_enter (enter_wordChar hchars.1),
      lexFrom_wordChars hchars.2]
    exact lexFrom_wordEnd (by simpa using h) hend

theorem hexDigit?_hexDigit {n : Nat} (h : n < 16) : hexDigit? (hexDigit n) = some n := by
  have hall : ∀ n : Fin 16, hexDigit? (hexDigit n.val) = some n.val := by decide
  exact hall ⟨n, h⟩

theorem add_toNat (c : Char) (draft : List Char) :
    (Draft.sound draft).add c.toNat = .sound (c :: draft) := by
  have hc : c.toNat < 0xD800 ∨ 0xDFFF < c.toNat ∧ c.toNat < 0x110000 := c.valid
  have hhigh : isHighSurrogate c.toNat = false := by
    simp [isHighSurrogate]
    omega
  have hlow : isLowSurrogate c.toNat = false := by
    simp [isLowSurrogate]
    omega
  simp [Draft.add, hhigh, hlow, Char.ofNat_toNat]

theorem lexFrom_shortEscape {code : Nat} (h : shortEscape? c = some code) (hu : c ≠ 'u')
    (draft : Draft) :
    lexFrom ⟨.text draft, found⟩ ('\\' :: c :: rest) =
      lexFrom ⟨.text (draft.add code), found⟩ rest := by
  rw [lexFrom_of_step (n := .escape draft) (s := []) rfl,
    lexFrom_of_step (n := .text (draft.add code)) (s := []) (by simp [Mode.step, hu, h])]
  rfl

theorem lexFrom_code {a b c d : Char} {i j k l : Nat} (ha : hexDigit? a = some i)
    (hb : hexDigit? b = some j) (hc : hexDigit? c = some k) (hd : hexDigit? d = some l)
    (draft : Draft) :
    lexFrom ⟨.text draft, found⟩ ('\\' :: 'u' :: a :: b :: c :: d :: rest) =
      lexFrom ⟨.text (draft.add (16 * (16 * (16 * i + j) + k) + l)), found⟩ rest := by
  rw [lexFrom_of_step (n := .escape draft) (s := []) rfl,
    lexFrom_of_step (n := .code draft 3 0) (s := []) rfl,
    lexFrom_of_step (n := .code draft 2 i) (s := []) (by simp [Mode.step, ha]),
    lexFrom_of_step (n := .code draft 1 (16 * i + j)) (s := [])
      (by simp [Mode.step, hb]),
    lexFrom_of_step (n := .code draft 0 (16 * (16 * i + j) + k)) (s := [])
      (by simp [Mode.step, hc]),
    lexFrom_of_step (s := []) (by simp [Mode.step, hd]; rfl)]
  rfl

theorem lexFrom_escape (c : Char) (draft : List Char) :
    lexFrom ⟨.text (.sound draft), found⟩ (escape c ++ rest) =
      lexFrom ⟨.text (.sound (c :: draft)), found⟩ rest := by
  rw [← add_toNat]
  unfold escape
  split
  · next h => subst h; exact lexFrom_shortEscape rfl (by decide) _
  split
  · next h => subst h; exact lexFrom_shortEscape rfl (by decide) _
  split
  · next h => subst h; exact lexFrom_shortEscape rfl (by decide) _
  split
  · next h => subst h; exact lexFrom_shortEscape rfl (by decide) _
  split
  · next h => subst h; exact lexFrom_shortEscape rfl (by decide) _
  split
  · next h => subst h; exact lexFrom_shortEscape rfl (by decide) _
  split
  · next h => subst h; exact lexFrom_shortEscape rfl (by decide) _
  split
  · next h =>
    have hcode : c.toNat = 16 * (16 * (16 * 0 + 0) + c.toNat / 16) + c.toNat % 16 := by omega
    have hhigh := hexDigit?_hexDigit (n := c.toNat / 16) (by omega)
    have hlow := hexDigit?_hexDigit (n := c.toNat % 16) (by omega)
    conv => rhs; rw [hcode]
    exact lexFrom_code rfl rfl hhigh hlow (.sound draft)
  · next hquote hslash _ _ _ _ _ hcontrol =>
    exact lexFrom_of_step (s := []) (by simp [Mode.step, hquote, hslash, hcontrol])

theorem lexFrom_escapes (cs draft : List Char) :
    lexFrom ⟨.text (.sound draft), found⟩ (cs.flatMap escape ++ rest) =
      lexFrom ⟨.text (.sound (cs.reverse ++ draft)), found⟩ rest := by
  induction cs generalizing draft with
  | nil => rfl
  | cons c cs ih =>
    rw [List.flatMap_cons, List.append_assoc, lexFrom_escape, ih]
    simp

theorem lexFrom_writeText (text : Option String) :
    lexFrom ⟨.between, found⟩ (writeText text ++ rest) =
      lexFrom ⟨.between, .text text :: found⟩ rest := by
  cases text with
  | none => rfl
  | some s =>
    rw [writeText, List.cons_append, List.append_assoc,
      lexFrom_of_enter (n := .text (.sound [])) (s := []) rfl]
    rw [List.reverse_nil, List.nil_append, lexFrom_escapes, List.append_nil, List.singleton_append,
      lexFrom_of_step (n := .between) (s := [.text (some s)])
        (by simp [Mode.step, Draft.content])]
    rfl

mutual

def tokens : Json → List Token
  | .null => [.null]
  | .bool value => [.bool value]
  | .number literal => [.number literal]
  | .string text => [.text text]
  | .array [] => [.openArray, .closeArray]
  | .array (item :: rest) => .openArray :: (tokens item ++ (itemTokens rest ++ [.closeArray]))
  | .object [] => [.openObject, .closeObject]
  | .object ((key, value) :: rest) =>
    .openObject :: .text key :: .colon :: (tokens value ++ (memberTokens rest ++ [.closeObject]))

def itemTokens : List Json → List Token
  | [] => []
  | item :: rest => .comma :: (tokens item ++ itemTokens rest)

def memberTokens : List (Option String × Json) → List Token
  | [] => []
  | (key, value) :: rest => .comma :: .text key :: .colon :: (tokens value ++ memberTokens rest)

end

inductive Sound : Json → Prop
  | null : Sound .null
  | bool (value : Bool) : Sound (.bool value)
  | number (literal : String) : isNumber literal.toList = true → Sound (.number literal)
  | string (text : Option String) : Sound (.string text)
  | array (items : List Json) : (∀ item ∈ items, Sound item) → Sound (.array items)
  | object (members : List (Option String × Json)) :
    (∀ member ∈ members, Sound member.2) → Sound (.object members)

theorem Sound.map {α : Type} {encode : α → Json} {items : List α}
    (h : ∀ item ∈ items, (encode item).Sound) : (Json.array (items.map encode)).Sound := by
  refine .array _ fun j hj => ?_
  obtain ⟨item, hi, rfl⟩ := List.mem_map.mp hj
  exact h item hi

theorem Sound.record {fields : List (String × Json)} (h : ∀ field ∈ fields, field.2.Sound) :
    (record fields).Sound := by
  refine .object _ fun member hm => ?_
  obtain ⟨field, hf, rfl⟩ := List.mem_map.mp hm
  exact h field hf

structure Spacing.IsBlank (spacing : Spacing) : Prop where
  line : ∀ depth, (spacing.line depth).all Json.isBlank = true
  colon : spacing.colon.all Json.isBlank = true

theorem Spacing.isBlank_compact : Spacing.compact.IsBlank := ⟨fun _ => rfl, rfl⟩

theorem Spacing.isBlank_pretty : Spacing.pretty.IsBlank where
  line := fun depth => by
    rw [List.all_eq_true]
    intro c hc
    rcases List.mem_cons.mp hc with rfl | hc
    · rfl
    · rw [List.eq_of_mem_replicate hc]
      rfl
  colon := rfl

theorem endsWord_append (hblank : cs.all isBlank = true) (h : EndsWord rest) :
    EndsWord (cs ++ rest) := by
  cases cs with
  | nil => exact h
  | cons c cs =>
    rw [List.all_cons, Bool.and_eq_true] at hblank
    rintro _ ⟨⟩
    exact not_isWordChar_of_isBlank hblank.1

theorem endsWord_cons (h : isWordChar c = false) : EndsWord (c :: rest) := by
  rintro _ ⟨⟩
  exact h

section Write

variable {spacing : Spacing}

theorem endsWord_writeItems (items : List Json) (depth : Nat) (h : EndsWord rest) :
    EndsWord (writeItems spacing depth items ++ rest) := by
  cases items with
  | nil => exact h
  | cons item items => exact endsWord_cons (by decide)

theorem endsWord_writeMembers (members : List (Option String × Json)) (depth : Nat)
    (h : EndsWord rest) : EndsWord (writeMembers spacing depth members ++ rest) := by
  cases members with
  | nil => exact h
  | cons member members => exact endsWord_cons (by decide)

mutual

theorem lexFrom_write (hs : spacing.IsBlank) (depth : Nat) (j : Json) (hj : j.Sound)
    (found : List Token) (rest : List Char) (hend : EndsWord rest) :
    lexFrom ⟨.between, found⟩ (write spacing depth j ++ rest) =
      lexFrom ⟨.between, (tokens j).reverse ++ found⟩ rest := by
  match j, hj with
  | .null, _ =>
    rw [write]
    exact lexFrom_word (by decide) (by decide) rfl hend
  | .bool true, _ =>
    rw [write]
    exact lexFrom_word (by decide) (by decide) rfl hend
  | .bool false, _ =>
    rw [write]
    exact lexFrom_word (by decide) (by decide) rfl hend
  | .number literal, .number _ h =>
    have hne : literal.toList ≠ [] := fun he => by
      rw [he] at h
      cases h
    rw [write]
    exact lexFrom_word hne (all_isWordChar_of_isNumber h) (ofWord?_number h) hend
  | .string text, _ => exact lexFrom_writeText text
  | .array [], _ =>
    rw [write, List.cons_append, lexFrom_punctuation (t := .openArray) rfl]
    exact lexFrom_punctuation rfl
  | .array (item :: items), .array _ h =>
    have hclose : EndsWord (spacing.line depth ++ ']' :: rest) :=
      endsWord_append (hs.line depth) (endsWord_cons rfl)
    simp only [write, List.cons_append, List.append_assoc, List.nil_append]
    rw [lexFrom_punctuation (t := .openArray) rfl, lexFrom_blanks (hs.line _),
      lexFrom_write hs (depth + 1) item (h item (List.mem_cons_self ..)) _ _
        (endsWord_writeItems items _ hclose),
      lexFrom_writeItems hs (depth + 1) items (fun i hi => h i (List.mem_cons_of_mem _ hi)) _ _
        hclose,
      lexFrom_blanks (hs.line _), lexFrom_punctuation (t := .closeArray) rfl]
    simp [tokens]
  | .object [], _ =>
    rw [write, List.cons_append, lexFrom_punctuation (t := .openObject) rfl]
    exact lexFrom_punctuation rfl
  | .object ((key, value) :: members), .object _ h =>
    have hclose : EndsWord (spacing.line depth ++ '}' :: rest) :=
      endsWord_append (hs.line depth) (endsWord_cons rfl)
    simp only [write, List.cons_append, List.append_assoc, List.nil_append]
    rw [lexFrom_punctuation (t := .openObject) rfl, lexFrom_blanks (hs.line _),
      lexFrom_writeText, lexFrom_punctuation (t := .colon) rfl, lexFrom_blanks hs.colon,
      lexFrom_write hs (depth + 1) value (h _ (List.mem_cons_self ..)) _ _
        (endsWord_writeMembers members _ hclose),
      lexFrom_writeMembers hs (depth + 1) members (fun m hm => h m (List.mem_cons_of_mem _ hm)) _ _
        hclose,
      lexFrom_blanks (hs.line _), lexFrom_punctuation (t := .closeObject) rfl]
    simp [tokens]

theorem lexFrom_writeItems (hs : spacing.IsBlank) (depth : Nat) (items : List Json)
    (h : ∀ item ∈ items, item.Sound) (found : List Token) (rest : List Char)
    (hend : EndsWord rest) :
    lexFrom ⟨.between, found⟩ (writeItems spacing depth items ++ rest) =
      lexFrom ⟨.between, (itemTokens items).reverse ++ found⟩ rest := by
  match items with
  | [] => rfl
  | item :: items =>
    simp only [writeItems, List.cons_append, List.append_assoc]
    rw [lexFrom_punctuation (t := .comma) rfl, lexFrom_blanks (hs.line _),
      lexFrom_write hs depth item (h item (List.mem_cons_self ..)) _ _
        (endsWord_writeItems items _ hend),
      lexFrom_writeItems hs depth items (fun i hi => h i (List.mem_cons_of_mem _ hi)) _ _ hend]
    simp [itemTokens]

theorem lexFrom_writeMembers (hs : spacing.IsBlank) (depth : Nat)
    (members : List (Option String × Json)) (h : ∀ member ∈ members, member.2.Sound)
    (found : List Token) (rest : List Char) (hend : EndsWord rest) :
    lexFrom ⟨.between, found⟩ (writeMembers spacing depth members ++ rest) =
      lexFrom ⟨.between, (memberTokens members).reverse ++ found⟩ rest := by
  match members with
  | [] => rfl
  | (key, value) :: members =>
    simp only [writeMembers, List.cons_append, List.append_assoc]
    rw [lexFrom_punctuation (t := .comma) rfl, lexFrom_blanks (hs.line _), lexFrom_writeText,
      lexFrom_punctuation (t := .colon) rfl, lexFrom_blanks hs.colon,
      lexFrom_write hs depth value (h _ (List.mem_cons_self ..)) _ _
        (endsWord_writeMembers members _ hend),
      lexFrom_writeMembers hs depth members (fun m hm => h m (List.mem_cons_of_mem _ hm)) _ _ hend]
    simp [memberTokens]

end

end Write

theorem lex_write {spacing : Spacing} (hs : spacing.IsBlank) {j : Json} (hj : j.Sound)
    {blanks : List Char} (hb : blanks.all isBlank = true) :
    lex (write spacing 0 j ++ blanks) = some (tokens j) := by
  have hend : EndsWord blanks := List.append_nil blanks ▸ endsWord_append hb nofun
  rw [lex_eq, lexFrom_write hs 0 j hj [] blanks hend, ← List.append_nil blanks, lexFrom_blanks hb]
  simp [lexFrom, Lexing.finish, Mode.finish]

end Accessors.Json

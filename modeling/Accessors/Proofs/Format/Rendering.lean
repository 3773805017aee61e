import Accessors.Format.Placeholder

/-!
# Written format strings

A format string from the side of who writes it: a sequence of tokens, each a character other than
the percent sign, the percent sign written twice, a conversion, or a reference to a plural rule. The
grammar of conversions and references is given by the types, so there is no token that is not well
formed. Reading undoes writing: the parts of the text of any sequence are those of its tokens.
-/

namespace Accessors.Format

/-- What holds of all characters of a list is decided along the list, not over all characters. -/
instance (priority := high) decidableForallMem (cs : List Char) (p : Char → Prop)
    [DecidablePred p] : Decidable (∀ c ∈ cs, p c) :=
  List.decidableBAll p cs

structure Position where
  number : Nat
  positive : 0 < number

/-- A width or a precision; with an asterisk, an argument says what it is. -/
inductive Amount where
  | asterisk
  | digits (ds : List Char) (nonempty : ds ≠ []) (decimal : ∀ d ∈ ds, d.isDigit)

inductive LengthMark where
  | hh | h | ll | l | q | z | t | j | upperL

namespace Position

def chars (position : Position) : List Char := Nat.toDigits 10 position.number ++ ['$']

def value (position : Position) : Nat := min position.number Placeholder.positionLimit

end Position

def Amount.chars : Amount → List Char
  | asterisk => ['*']
  | digits ds _ _ => ds

def LengthMark.chars : LengthMark → List Char
  | hh => ['h', 'h']
  | h => ['h']
  | ll => ['l', 'l']
  | l => ['l']
  | q => ['q']
  | z => ['z']
  | t => ['t']
  | j => ['j']
  | upperL => ['L']

/-- A conversion without its position, as it is found in a text. Its letter need not have a
specifier. -/
structure Wording where
  flags : List Char
  width : Option Amount
  precision : Option Amount
  length : Option LengthMark
  letter : Char
  flagged : ∀ c ∈ flags, c ∈ ['-', '+', ' ', '#', '0', '\x27']
  listed : letter ∈ Placeholder.letters

namespace Wording

def behindPrecision (wording : Wording) : List Char :=
  wording.length.elim [] LengthMark.chars ++ [wording.letter]

def behindWidth (wording : Wording) : List Char :=
  wording.precision.elim [] (fun amount => '.' :: amount.chars) ++ wording.behindPrecision

def chars (wording : Wording) : List Char :=
  wording.flags ++ wording.width.elim [] Amount.chars ++ wording.behindWidth

def front (wording : Wording) : List Char :=
  wording.flags ++ wording.width.elim [] Amount.chars ++
    (wording.precision.elim [] (fun amount => '.' :: amount.chars) ++
      wording.length.elim [] LengthMark.chars)

theorem chars_eq_front (wording : Wording) : wording.chars = wording.front ++ [wording.letter] := by
  simp only [chars, behindWidth, behindPrecision, front, List.append_assoc]

end Wording

theorem Placeholder.mem_letters {letter : Char} {specifier : Specifier}
    (h : Specifier.ofConversion? letter = some specifier) : letter ∈ letters := by
  unfold Specifier.ofConversion? at h
  split at h <;> first | decide | cases h

structure Conversion extends Wording where
  specifier : Specifier
  converts : Specifier.ofConversion? letter = some specifier
  listed := Placeholder.mem_letters converts

inductive Token where
  | literal (c : Char) (plain : c ≠ '%')
  | percent
  /-- A conversion that is not the beginning of a reference. -/
  | conversion (position : Option Position) (body : Conversion)
      (apart : body.chars ≠ ['#', '@'])
  | reference (position : Option Position) (name : String) (nonempty : name ≠ "")
      (closed : '@' ∉ name.toList)

namespace Token

def chars : Token → List Char
  | literal c _ => [c]
  | percent => ['%', '%']
  | conversion position body _ => '%' :: position.elim [] Position.chars ++ body.chars
  | reference position name _ _ =>
    '%' :: position.elim [] Position.chars ++ '#' :: '@' :: name.toList ++ ['@']

def text (token : Token) : String := String.ofList token.chars

def part? : Token → Option Part
  | literal _ _ => none
  | percent => none
  | conversion position body _ => some (.specifier (position.map Position.value) body.specifier)
  | reference position name _ _ => some (.reference (position.map Position.value) name)

end Token

namespace Placeholder

theorem dropWhile_append_cons {p : Char → Bool} {xs rest : List Char} {c : Char}
    (hx : ∀ x ∈ xs, p x = true) (hc : p c = false) :
    (xs ++ c :: rest).dropWhile p = c :: rest := by
  rw [List.dropWhile_append_of_pos hx, List.dropWhile_cons, hc]
  rfl

theorem takeWhile_append_cons {p : Char → Bool} {xs rest : List Char} {c : Char}
    (hx : ∀ x ∈ xs, p x = true) (hc : p c = false) :
    (xs ++ c :: rest).takeWhile p = xs := by
  rw [List.takeWhile_append_of_pos hx, List.takeWhile_cons, hc]
  exact List.append_nil xs

theorem dropWhile_append_stop {p : Char → Bool} {rest : List Char} {c : Char} (xs : List Char)
    (hc : p c = false) : (xs ++ c :: rest).dropWhile p = xs.dropWhile p ++ c :: rest := by
  induction xs with
  | nil => rw [List.nil_append, List.dropWhile_cons, hc]; rfl
  | cons x xs ih =>
    rw [List.cons_append, List.dropWhile_cons, List.dropWhile_cons]
    split
    · exact ih
    · rfl

def lengthLetters : List Char := ['h', 'l', 'q', 'z', 't', 'j', 'L']

def behindWidthHeads : List Char := '.' :: lengthLetters ++ letters

theorem not_lengthLetter : ∀ letter ∈ letters, letter ∉ lengthLetters := by decide

theorem heads_apart : ∀ c ∈ behindWidthHeads,
    isFlag c = false ∧ c.isDigit = false ∧ c ≠ '*' ∧ c ≠ '$' ∧ c ≠ '%' := by decide

theorem dropLength_chars (length : Option LengthMark) {letter : Char} (h : letter ∈ letters)
    (rest : List Char) :
    dropLength (length.elim [] LengthMark.chars ++ letter :: rest) = letter :: rest := by
  have hnot := not_lengthLetter letter h
  have hh : letter ≠ 'h' := fun he => hnot (he ▸ by decide)
  have hl : letter ≠ 'l' := fun he => hnot (he ▸ by decide)
  match length with
  | none =>
    show dropLength (letter :: rest) = letter :: rest
    rw [dropLength]
    · exact if_neg fun hc => hnot (List.contains_iff_mem.mp hc)
    · exact fun _ he _ => hh he
    · exact fun _ he _ => hl he
  | some .h =>
    show dropLength ('h' :: letter :: rest) = letter :: rest
    rw [dropLength]
    · rfl
    · exact fun _ _ he => hh (List.cons.inj he).1
    · exact fun _ he _ => absurd he (by decide)
  | some .l =>
    show dropLength ('l' :: letter :: rest) = letter :: rest
    rw [dropLength]
    · rfl
    · exact fun _ he _ => absurd he (by decide)
    · exact fun _ _ he => hl (List.cons.inj he).1
  | some .hh | some .ll | some .q | some .z | some .t | some .j | some .upperL => rfl

theorem exists_behindPrecision (wording : Wording) (rest : List Char) :
    ∃ c cs, wording.behindPrecision ++ rest = c :: cs ∧ c ∈ lengthLetters ++ letters := by
  have hletter := wording.listed
  unfold Wording.behindPrecision
  match wording.length with
  | none => exact ⟨_, _, rfl, List.mem_append_right _ hletter⟩
  | some mark => cases mark <;> exact ⟨_, _, rfl, by decide⟩

theorem exists_behindWidth (wording : Wording) (rest : List Char) :
    ∃ c cs, wording.behindWidth ++ rest = c :: cs ∧ c ∈ behindWidthHeads := by
  unfold Wording.behindWidth
  match wording.precision with
  | some amount => exact ⟨'.', _, rfl, by decide⟩
  | none =>
    obtain ⟨c, cs, he, hc⟩ := exists_behindPrecision wording rest
    exact ⟨c, cs, he, List.mem_cons_of_mem _ hc⟩

theorem dropPrecision_chars (wording : Wording) (rest : List Char) :
    dropPrecision (wording.behindWidth ++ rest) = wording.behindPrecision ++ rest := by
  obtain ⟨c, cs, he, hc⟩ := exists_behindPrecision wording rest
  unfold Wording.behindWidth
  rw [List.append_assoc, he]
  match wording.precision with
  | none =>
    have hdot : c ≠ '.' := by
      rintro rfl
      exact absurd hc (by decide)
    show dropPrecision (c :: cs) = c :: cs
    rw [dropPrecision]
    · exact fun _ he => hdot (List.cons.inj he).1
    · exact fun _ _ he => hdot (List.cons.inj he).1
  | some .asterisk => rfl
  | some (.digits (d :: ds) _ decimal) =>
    have hdigit : d.isDigit = true := decimal d (List.mem_cons_self ..)
    have hstop : c.isDigit = false := (heads_apart c (List.mem_cons_of_mem _ hc)).2.1
    have hstar : d ≠ '*' := by
      rintro rfl
      exact absurd hdigit (by decide)
    show dropPrecision ('.' :: d :: (ds ++ c :: cs)) = c :: cs
    rw [dropPrecision, if_pos hdigit]
    · exact dropWhile_append_cons (fun x hx => decimal x (List.mem_cons_of_mem _ hx)) hstop
    · exact hstar

theorem dropWidth_digits {ds cs : List Char} {c : Char} (hd : ∀ d ∈ ds, d.isDigit = true)
    (hc : c.isDigit = false) (hstar : c ≠ '*') : dropWidth (ds ++ c :: cs) = c :: cs := by
  have hhead : ∀ rest, ds ++ c :: cs = '*' :: rest → False := by
    intro rest he
    cases ds with
    | nil => exact hstar (List.cons.inj he).1
    | cons d ds =>
      have hdigit := hd d (List.mem_cons_self ..)
      rw [(List.cons.inj he).1] at hdigit
      exact absurd hdigit (by decide)
  rw [dropWidth]
  · exact dropWhile_append_cons hd hc
  · exact hhead

theorem dropWidth_chars (wording : Wording) (rest : List Char) :
    dropWidth ((wording.chars ++ rest).dropWhile isFlag) = wording.behindWidth ++ rest := by
  obtain ⟨c, cs, he, hc⟩ := exists_behindWidth wording rest
  obtain ⟨hflag, hdigit, hstar, -, -⟩ := heads_apart c hc
  have hflags : ∀ x ∈ wording.flags, isFlag x = true := fun x hx =>
    List.contains_iff_mem.mpr (wording.flagged x hx)
  rw [Wording.chars, List.append_assoc, List.append_assoc, he,
    List.dropWhile_append_of_pos hflags]
  match wording.width with
  | none =>
    rw [Option.elim_none, dropWhile_append_stop [] hflag]
    exact dropWidth_digits (by simp) hdigit hstar
  | some .asterisk => rfl
  | some (.digits ds _ decimal) =>
    show dropWidth ((ds ++ c :: cs).dropWhile isFlag) = c :: cs
    -- Leading zeros of the width are taken for flags.
    rw [dropWhile_append_stop ds hflag]
    have hdecimal : ∀ d ∈ ds.dropWhile isFlag, d.isDigit = true := fun d hd =>
      decimal d ((List.dropWhile_sublist _).subset hd)
    exact dropWidth_digits hdecimal hdigit hstar

theorem splitConversion?_chars (wording : Wording) (rest : List Char) :
    splitConversion? (wording.chars ++ rest) = some (wording.letter, rest) := by
  have hletter := wording.listed
  rw [splitConversion?, dropWidth_chars, dropPrecision_chars, Wording.behindPrecision,
    List.append_assoc, List.singleton_append, dropLength_chars _ hletter]
  exact if_pos (List.contains_iff_mem.mpr hletter)

theorem exists_toDigits {n : Nat} (h : 0 < n) :
    ∃ d ds, Nat.toDigits 10 n = d :: ds ∧ isPositiveDigit d = true := by
  induction n using Nat.strongRecOn with
  | ind n ih =>
    by_cases hn : n < 10
    · have hdigit : ∀ m < 10, 0 < m → isPositiveDigit m.digitChar = true := by decide
      exact ⟨_, [], Nat.toDigits_of_lt_base hn, hdigit n hn h⟩
    · obtain ⟨d, ds, he, hd⟩ := ih (n / 10) (by omega) (by omega)
      refine ⟨d, ds ++ [(n % 10).digitChar], ?_, hd⟩
      rw [Nat.toDigits_of_base_le (by decide) (by omega), he]
      rfl

theorem splitPosition_number (position : Position) (rest : List Char) :
    splitPosition (position.chars ++ rest) = (some position.value, rest) := by
  obtain ⟨d, ds, he, hd⟩ := exists_toDigits position.positive
  have hdigits : ∀ x ∈ Nat.toDigits 10 position.number, x.isDigit = true := fun x hx =>
    Nat.isDigit_of_mem_toDigits (by decide) (by decide) hx
  have hdecimal : decimal (Nat.toDigits 10 position.number) = position.number :=
    Nat.ofDigitChars_ten_toDigits
  rw [Position.chars, List.append_assoc, List.singleton_append, splitPosition,
    dropWhile_append_cons hdigits (by decide), takeWhile_append_cons hdigits (by decide), hdecimal,
    he]
  simp only [List.cons_append, List.head?_cons, Option.any_some, hd]
  rfl

theorem splitPosition_eq_none {cs : List Char}
    (h : cs.head?.any isPositiveDigit = true → ∀ rest, cs.dropWhile Char.isDigit ≠ '$' :: rest) :
    splitPosition cs = (none, cs) := by
  unfold splitPosition
  split
  · next hpositive hdollar => exact absurd hdollar (h hpositive _)
  · rfl

theorem splitPosition_chars (wording : Wording) (rest : List Char) :
    splitPosition (wording.chars ++ rest) = (none, wording.chars ++ rest) := by
  obtain ⟨c, cs, he, hc⟩ := exists_behindWidth wording rest
  obtain ⟨-, hdigit, -, hdollar, -⟩ := heads_apart c hc
  have hstop : ∀ {ds rest}, (∀ d ∈ ds, d.isDigit = true) →
      (ds ++ c :: cs).dropWhile Char.isDigit ≠ '$' :: rest := by
    intro ds rest hd hstop
    rw [dropWhile_append_cons hd hdigit] at hstop
    exact hdollar (List.cons.inj hstop).1
  apply splitPosition_eq_none
  rw [Wording.chars, List.append_assoc, List.append_assoc, he]
  match hflags : wording.flags, wording.width with
  | flag :: flags, _ =>
    have hnot : ∀ x ∈ ['-', '+', ' ', '#', '0', '\x27'], isPositiveDigit x = false := by decide
    have hflag := hnot flag (wording.flagged flag (hflags ▸ List.mem_cons_self ..))
    intro hpositive
    rw [List.cons_append, List.head?_cons, Option.any_some, hflag] at hpositive
    cases hpositive
  | [], none => exact fun _ rest => hstop (List.forall_mem_nil _)
  | [], some .asterisk =>
    exact fun hpositive => absurd (show isPositiveDigit '*' = true from hpositive) (by decide)
  | [], some (.digits ds _ decimal) => exact fun _ rest => hstop decimal

theorem splitPosition_optional (position : Option Position) {cs : List Char}
    (h : splitPosition cs = (none, cs)) :
    splitPosition (position.elim [] Position.chars ++ cs) = (position.map Position.value, cs) := by
  cases position with
  | none => exact h
  | some position => exact splitPosition_number position cs

def frontSigns : List Char := ['-', '+', ' ', '#', '0', '\x27', '*', '.'] ++ lengthLetters

theorem mem_amount {amount : Amount} {c : Char} (h : c ∈ amount.chars) :
    c.isDigit = true ∨ c = '*' := by
  cases amount with
  | asterisk => exact .inr (List.mem_singleton.mp h)
  | digits ds _ decimal => exact .inl (decimal c h)

theorem mem_front {wording : Wording} {c : Char} (h : c ∈ wording.front) :
    c.isDigit = true ∨ c ∈ frontSigns := by
  have hflag : ∀ x ∈ ['-', '+', ' ', '#', '0', '\x27'], x ∈ frontSigns := by decide
  have hmark : ∀ mark : LengthMark, ∀ x ∈ mark.chars, x ∈ frontSigns := fun mark => by
    cases mark <;> decide
  have hamount : ∀ {amount : Amount}, c ∈ amount.chars → c.isDigit = true ∨ c ∈ frontSigns :=
    fun hc => (mem_amount hc).imp_right fun he => by rw [he]; decide
  simp only [Wording.front, List.mem_append, or_assoc] at h
  rcases h with h | h | h | h
  · exact .inr (hflag c (wording.flagged c h))
  · cases hwidth : wording.width with
    | none => simp [hwidth] at h
    | some amount => exact hamount (by simpa [hwidth] using h)
  · cases hprecision : wording.precision with
    | none => simp [hprecision] at h
    | some amount =>
      rw [hprecision, Option.elim_some, List.mem_cons] at h
      rcases h with rfl | h
      · exact .inr (by decide)
      · exact hamount h
  · cases hlength : wording.length with
    | none => simp [hlength] at h
    | some mark => exact .inr (hmark mark c (by simpa [hlength] using h))

theorem not_mem_front {wording : Wording} {c : Char} (hdigit : c.isDigit = false)
    (hsign : c ∉ frontSigns) : c ∉ wording.front := by
  intro h
  rcases mem_front h with h | h
  · rw [hdigit] at h
    cases h
  · exact hsign h

theorem letter_ne {wording : Wording} {c : Char} (h : c ∉ letters) : wording.letter ≠ c :=
  fun he => h (he ▸ wording.listed)

theorem chars_ne_percent (wording : Wording) (rest tail : List Char) :
    wording.chars ++ rest ≠ '%' :: tail := by
  rw [Wording.chars_eq_front, List.append_assoc]
  cases hfront : wording.front with
  | nil => exact fun he => letter_ne (by decide) (List.cons.inj he).1
  | cons x xs =>
    intro he
    have hx : '%' ∈ wording.front := by
      rw [hfront, ← (List.cons.inj he).1]
      exact List.mem_cons_self ..
    exact not_mem_front (by decide) (by decide) hx

theorem optional_ne_percent (position : Option Position) {cs : List Char}
    (h : ∀ rest, cs ≠ '%' :: rest) (rest : List Char) :
    position.elim [] Position.chars ++ cs ≠ '%' :: rest := by
  cases position with
  | none => exact h rest
  | some position =>
    obtain ⟨d, ds, he, hd⟩ := exists_toDigits position.positive
    rw [Option.elim_some, Position.chars, he]
    rintro heq
    rw [(List.cons.inj heq).1] at hd
    exact absurd hd (by decide)

theorem splitReference?_chars {wording : Wording} (apart : wording.chars ≠ ['#', '@'])
    (rest : List Char) : splitReference? (wording.chars ++ rest) = none := by
  have hsplit : ∀ tail, wording.chars ++ rest ≠ '#' :: '@' :: tail := by
    intro tail he
    rw [Wording.chars_eq_front] at he apart
    match hfront : wording.front with
    | [] =>
      rw [hfront] at he
      exact letter_ne (by decide) (List.cons.inj he).1
    | [x] =>
      rw [hfront] at he apart
      obtain ⟨hsharp, htail⟩ := List.cons.inj he
      rw [hsharp, (List.cons.inj htail).1] at apart
      exact apart rfl
    | x :: y :: front' =>
      rw [hfront] at he
      have hat : '@' ∈ wording.front := by
        rw [hfront, ← (List.cons.inj (List.cons.inj he).2).1]
        simp
      exact not_mem_front (by decide) (by decide) hat
  rw [splitReference?]
  exact hsplit

theorem splitReference?_name {name : List Char} (hne : name ≠ []) (hat : '@' ∉ name)
    (rest : List Char) :
    splitReference? ('#' :: '@' :: (name ++ '@' :: rest)) = some (String.ofList name, rest) := by
  have hall : ∀ x ∈ name, (x != '@') = true := fun x hx => bne_iff_ne.mpr fun he => hat (he ▸ hx)
  obtain ⟨c, cs, rfl⟩ := List.exists_cons_of_ne_nil hne
  rw [splitReference?, takeWhile_append_cons hall (by decide),
    dropWhile_append_cons hall (by decide)]
  rfl

theorem split?_optional (position : Option Position) {cs : List Char}
    (hpercent : ∀ rest, cs ≠ '%' :: rest) (hposition : splitPosition cs = (none, cs)) :
    split? (position.elim [] Position.chars ++ cs) = (splitReference? cs).elim
      ((splitConversion? cs).map fun found =>
        (.conversion (position.map Position.value) found.1, found.2))
      fun found => some (.reference (position.map Position.value) found.1, found.2) := by
  rw [split?, splitPosition_optional position hposition]
  · cases splitReference? cs <;> rfl
  · exact optional_ne_percent position hpercent

theorem split?_conversion (position : Option Position) {body : Conversion}
    (apart : body.chars ≠ ['#', '@']) (rest : List Char) :
    split? (position.elim [] Position.chars ++ (body.chars ++ rest)) =
      some (.conversion (position.map Position.value) body.letter, rest) := by
  rw [split?_optional position (chars_ne_percent body.toWording rest) (splitPosition_chars _ rest),
    splitReference?_chars apart, Option.elim_none, splitConversion?_chars, Option.map_some]

theorem split?_reference (position : Option Position) {name : List Char} (hne : name ≠ [])
    (hat : '@' ∉ name) (rest : List Char) :
    split? (position.elim [] Position.chars ++ '#' :: '@' :: (name ++ '@' :: rest)) =
      some (.reference (position.map Position.value) (String.ofList name), rest) := by
  have hpercent : ∀ tail, '#' :: '@' :: (name ++ '@' :: rest) ≠ '%' :: tail := fun _ he =>
    absurd (List.cons.inj he).1 (by decide)
  have hnone : splitPosition ('#' :: '@' :: (name ++ '@' :: rest)) =
      (none, '#' :: '@' :: (name ++ '@' :: rest)) :=
    splitPosition_eq_none fun h => absurd (show isPositiveDigit '#' = true from h) (by decide)
  rw [split?_optional position hpercent hnone, splitReference?_name hne hat, Option.elim_some]

end Placeholder

open Placeholder (scan)

namespace Token

def placeholder? : Token → Option Placeholder
  | literal _ _ => none
  | percent => some .percent
  | conversion position body _ => some (.conversion (position.map Position.value) body.letter)
  | reference position name _ _ => some (.reference (position.map Position.value) name)

theorem scan_percent {cs rest : List Char} {placeholder : Placeholder}
    (h : Placeholder.split? cs = some (placeholder, rest)) :
    scan ('%' :: cs) = placeholder :: scan rest := by
  rw [scan, if_pos rfl]
  split
  · next hsplit =>
    obtain ⟨rfl, rfl⟩ := Prod.mk.inj (Option.some.inj (hsplit.symm.trans h))
    rfl
  · next hsplit => cases hsplit.symm.trans h

/-- What is read of a text that begins with a token: the token, and then the rest. -/
theorem scan_chars (token : Token) (rest : List Char) :
    scan (token.chars ++ rest) = token.placeholder?.toList ++ scan rest := by
  cases token with
  | literal c plain =>
    show scan (c :: rest) = scan rest
    rw [scan, if_neg plain]
  | percent => exact scan_percent rfl
  | conversion position body apart =>
    refine scan_percent ?_
    show Placeholder.split? ((position.elim [] Position.chars ++ body.chars) ++ rest) = _
    rw [List.append_assoc]
    exact Placeholder.split?_conversion position apart rest
  | reference position name nonempty closed =>
    refine scan_percent ?_
    have hne : name.toList ≠ [] := fun he => nonempty (by simpa using he)
    have hsplit := Placeholder.split?_reference position hne closed rest
    rw [String.ofList_toList] at hsplit
    simpa using hsplit

theorem scan_text (tokens : List Token) :
    scan (tokens.flatMap chars) = tokens.filterMap placeholder? := by
  induction tokens with
  | nil => rw [List.flatMap_nil, scan]; rfl
  | cons token rest ih =>
    rw [List.flatMap_cons, scan_chars, ih]
    cases h : token.placeholder? <;> simp [h]

theorem part?_eq (token : Token) : token.placeholder?.bind Placeholder.part? = token.part? := by
  cases token with
  | literal | percent | reference => rfl
  | conversion position body apart => simp [placeholder?, part?, Placeholder.part?, body.converts]

end Token

/-- Reading undoes writing: the parts of the text of tokens are those of the tokens, in order. -/
theorem parts_join_text (tokens : List Token) :
    parts (String.join (tokens.map Token.text)) = tokens.filterMap Token.part? := by
  have htext : (String.join (tokens.map Token.text)).toList = tokens.flatMap Token.chars := by
    simp [String.toList_join, List.flatMap_map, Token.text]
  rw [parts, htext, Token.scan_text, List.filterMap_filterMap]
  exact congrArg (List.filterMap · tokens) (funext Token.part?_eq)

example : (Token.conversion (some ⟨12, by decide⟩)
    { flags := ['#', '0'], width := some .asterisk, length := some .ll, letter := 'u'
      precision := some (.digits ['2'] (by decide) (by decide))
      flagged := by decide, specifier := .uint, converts := rfl } (by decide)).text =
    "%12$#0*.2llu" := by decide

end Accessors.Format

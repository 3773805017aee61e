import Accessors.Proofs.Format.Rendering
import Accessors.Proofs.Format.Resolution

/-!
# Positions in a text

A text is gone through from the left; written percent signs and references are passed as a whole.
A conversion behind a percent sign outside of these is read, and where its position has no leading
zero, the position is read with it. Digits with a leading zero are no position: together with the
percent sign before them they are literal text.

So a position that is read counts from one, and a text with a position out of range has no layout.
-/

namespace Accessors.Format

namespace Placeholder

variable {cs rest : List Char} {d : Char} {ds : List Char}

theorem decimal_append_singleton (ds : List Char) (d : Char) :
    decimal (ds ++ [d]) = 10 * decimal ds + (d.toNat - '0'.toNat) := by
  simp [decimal]

theorem digitChar_of_isDigit (h : d.isDigit = true) :
    d.toNat - '0'.toNat < 10 ∧ (d.toNat - '0'.toNat).digitChar = d := by
  have hbounds : '0'.toNat ≤ d.toNat ∧ d.toNat ≤ '9'.toNat := by
    simpa [Char.isDigit, Char.le_def, UInt32.le_iff_toNat_le] using h
  obtain ⟨hlow, hhigh⟩ := hbounds
  have hall : ∀ n < 10, (n.digitChar).toNat = '0'.toNat + n := by decide
  have hlt : d.toNat - '0'.toNat < 10 := by
    have : '9'.toNat = '0'.toNat + 9 := rfl
    omega
  refine ⟨hlt, Char.ext (UInt32.toNat_inj.mp ?_)⟩
  have := hall _ hlt
  show (d.toNat - '0'.toNat).digitChar.toNat = d.toNat
  omega

theorem decimal_pos_and_toDigits (hd : isPositiveDigit d = true)
    (hds : ∀ x ∈ ds, x.isDigit = true) :
    0 < decimal (d :: ds) ∧ Nat.toDigits 10 (decimal (d :: ds)) = d :: ds := by
  induction ds using List.reverseRecOn with
  | nil =>
    obtain ⟨hdigit, hne⟩ : d.isDigit = true ∧ d ≠ '0' := by
      simpa [isPositiveDigit] using hd
    obtain ⟨hlt, hchar⟩ := digitChar_of_isDigit hdigit
    have hdecimal : decimal [d] = d.toNat - '0'.toNat := by simp [decimal]
    rw [hdecimal]
    refine ⟨Nat.pos_of_ne_zero fun hzero => hne ?_, ?_⟩
    · rw [← hchar, hzero]
      rfl
    · rw [Nat.toDigits_of_lt_base hlt, hchar]
  | append_singleton ds x ih =>
    obtain ⟨hfront, hx⟩ := List.forall_mem_append.mp hds
    obtain ⟨hpos, hdigits⟩ := ih hfront
    obtain ⟨hlt, hchar⟩ := digitChar_of_isDigit (hx x (List.mem_singleton_self x))
    rw [← List.cons_append, decimal_append_singleton]
    refine ⟨by omega, ?_⟩
    rw [← Nat.toDigits_append_toDigits (by decide) hpos hlt, hdigits,
      Nat.toDigits_of_lt_base hlt, hchar]

theorem exists_position (hd : isPositiveDigit d = true) (hds : ∀ x ∈ ds, x.isDigit = true) :
    ∃ position : Position, position.number = decimal (d :: ds) ∧
      position.chars = d :: ds ++ ['$'] := by
  obtain ⟨hpos, hdigits⟩ := decimal_pos_and_toDigits hd hds
  exact ⟨⟨_, hpos⟩, rfl, congrArg (· ++ ['$']) hdigits⟩

theorem splitPosition_eq (cs : List Char) :
    ∃ position : Option Position, (splitPosition cs).1 = position.map Position.value ∧
      cs = position.elim [] Position.chars ++ (splitPosition cs).2 := by
  unfold splitPosition
  split
  · next rest hhead hrest =>
    obtain ⟨d, tail, rfl⟩ : ∃ d tail, cs = d :: tail :=
      List.exists_cons_of_ne_nil fun hnil => by simp [hnil] at hhead
    have hpositive : isPositiveDigit d = true := hhead
    have hdigit : d.isDigit = true := (Bool.and_eq_true_iff.mp hpositive).1
    have htake : (d :: tail).takeWhile Char.isDigit = d :: tail.takeWhile Char.isDigit := by
      rw [List.takeWhile_cons, if_pos hdigit]
    obtain ⟨position, hnumber, hchars⟩ := exists_position hpositive
      fun x hx => List.mem_takeWhile_imp (p := Char.isDigit) (l := tail) hx
    refine ⟨some position, ?_, ?_⟩
    · rw [htake, Option.map_some, Position.value, hnumber]
    · rw [Option.elim_some, hchars, ← htake, List.append_assoc, List.singleton_append, ← hrest,
        List.takeWhile_append_dropWhile]
  · exact ⟨none, rfl, rfl⟩

theorem splitReference?_eq_some {name : String}
    (h : splitReference? cs = some (name, rest)) :
    name ≠ "" ∧ '@' ∉ name.toList ∧ cs = '#' :: '@' :: (name.toList ++ '@' :: rest) := by
  unfold splitReference? at h
  split at h
  · next cs =>
    split at h
    · next c chars behind htake hdrop =>
      obtain ⟨rfl, rfl⟩ := Prod.mk.inj (Option.some.inj h)
      rw [String.toList_ofList]
      refine ⟨fun he => ?_, fun hat => ?_, ?_⟩
      · have := congrArg String.toList he
        simp at this
      · rw [← htake] at hat
        exact absurd (List.mem_takeWhile_imp hat) (by decide)
      · rw [← htake, ← hdrop, List.takeWhile_append_dropWhile]
    · cases h
  · cases h

theorem exists_amount {ds : List Char} (h : ∀ d ∈ ds, d.isDigit = true) :
    ∃ amount : Option Amount, amount.elim [] Amount.chars = ds := by
  by_cases hnil : ds = []
  · exact ⟨none, hnil.symm⟩
  · exact ⟨some (.digits ds hnil h), rfl⟩

theorem dropWidth_eq (cs : List Char) :
    ∃ width : Option Amount, cs = width.elim [] Amount.chars ++ dropWidth cs := by
  unfold dropWidth
  split
  · exact ⟨some .asterisk, rfl⟩
  · have hdigits : ∀ d ∈ cs.takeWhile Char.isDigit, d.isDigit = true := fun _ hd =>
      List.mem_takeWhile_imp (p := Char.isDigit) hd
    obtain ⟨width, hwidth⟩ := exists_amount hdigits
    exact ⟨width, by rw [hwidth, List.takeWhile_append_dropWhile]⟩

theorem dropPrecision_eq (cs : List Char) :
    ∃ precision : Option Amount,
      cs = precision.elim [] (fun amount => '.' :: amount.chars) ++ dropPrecision cs := by
  unfold dropPrecision
  split
  · exact ⟨some .asterisk, rfl⟩
  · next d rest _ =>
    split
    · next hd =>
      have hdigits : ∀ x ∈ d :: rest.takeWhile Char.isDigit, x.isDigit = true :=
        List.forall_mem_cons.mpr ⟨hd, fun _ hx => List.mem_takeWhile_imp (p := Char.isDigit) hx⟩
      refine ⟨some (.digits _ (List.cons_ne_nil _ _) hdigits), ?_⟩
      show '.' :: d :: rest = '.' :: d :: (rest.takeWhile _ ++ rest.dropWhile _)
      rw [List.takeWhile_append_dropWhile]
    · exact ⟨none, rfl⟩
  · exact ⟨none, rfl⟩

theorem dropLength_eq (cs : List Char) :
    ∃ length : Option LengthMark, cs = length.elim [] LengthMark.chars ++ dropLength cs := by
  have hmarks : ∀ c ∈ lengthLetters, ∃ mark : LengthMark, mark.chars = [c] := by
    simp only [lengthLetters, List.forall_mem_cons]
    exact ⟨⟨.h, rfl⟩, ⟨.l, rfl⟩, ⟨.q, rfl⟩, ⟨.z, rfl⟩, ⟨.t, rfl⟩, ⟨.j, rfl⟩, ⟨.upperL, rfl⟩, nofun⟩
  unfold dropLength
  split
  · exact ⟨some .hh, rfl⟩
  · exact ⟨some .ll, rfl⟩
  · next c rest _ _ =>
    split
    · next hc =>
      obtain ⟨mark, hmark⟩ := hmarks c (List.contains_iff_mem.mp hc)
      exact ⟨some mark, by rw [Option.elim_some, hmark]; rfl⟩
    · exact ⟨none, rfl⟩
  · exact ⟨none, rfl⟩

theorem splitConversion?_eq_some {letter : Char} (h : splitConversion? cs = some (letter, rest)) :
    ∃ wording : Wording, wording.letter = letter ∧ cs = wording.chars ++ rest := by
  unfold splitConversion? at h
  split at h
  · next c behind hbehind =>
    split at h
    · next hc =>
      obtain ⟨rfl, rfl⟩ := Prod.mk.inj (Option.some.inj h)
      obtain ⟨width, hwidth⟩ := dropWidth_eq (cs.dropWhile isFlag)
      obtain ⟨precision, hprecision⟩ := dropPrecision_eq (dropWidth (cs.dropWhile isFlag))
      obtain ⟨length, hlength⟩ :=
        dropLength_eq (dropPrecision (dropWidth (cs.dropWhile isFlag)))
      have hflags : ∀ x ∈ cs.takeWhile isFlag, x ∈ ['-', '+', ' ', '#', '0', '\x27'] :=
        fun x hx => List.contains_iff_mem.mp (List.mem_takeWhile_imp hx)
      refine ⟨⟨cs.takeWhile isFlag, width, precision, length, c, hflags,
        List.contains_iff_mem.mp hc⟩, rfl, ?_⟩
      rw [hbehind] at hlength
      rw [hlength] at hprecision
      rw [hprecision] at hwidth
      have hcs := (List.takeWhile_append_dropWhile (p := isFlag) (l := cs)).symm
      rw [hwidth] at hcs
      simpa [Wording.chars, Wording.behindWidth, Wording.behindPrecision] using hcs
    · cases h
  · cases h

theorem split?_eq_some {placeholder : Placeholder} (h : split? cs = some (placeholder, rest)) :
    (placeholder = .percent ∧ cs = '%' :: rest) ∨
      (∃ (position : Option Position) (name : String) (nonempty : name ≠ "")
        (closed : '@' ∉ name.toList), placeholder = .reference (position.map Position.value) name ∧
          '%' :: cs = (Token.reference position name nonempty closed).chars ++ rest) ∨
      ∃ (position : Option Position) (wording : Wording),
        placeholder = .conversion (position.map Position.value) wording.letter ∧
          cs = position.elim [] Position.chars ++ wording.chars ++ rest := by
  unfold split? at h
  split at h
  · obtain ⟨rfl, rfl⟩ := Prod.mk.inj (Option.some.inj h)
    exact .inl ⟨rfl, rfl⟩
  obtain ⟨position, hposition, hcs⟩ := splitPosition_eq cs
  rw [hposition] at h
  split at h
  · next name behind hreference =>
    obtain ⟨rfl, rfl⟩ := Prod.mk.inj (Option.some.inj h)
    obtain ⟨nonempty, closed, hbehind⟩ := splitReference?_eq_some hreference
    refine .inr (.inl ⟨position, name, nonempty, closed, rfl, ?_⟩)
    rw [hbehind] at hcs
    simpa [Token.chars] using hcs
  · obtain ⟨⟨letter, behind⟩, hconversion, he⟩ := Option.map_eq_some_iff.mp h
    obtain ⟨rfl, rfl⟩ := Prod.mk.inj he
    obtain ⟨wording, rfl, hbehind⟩ := splitConversion?_eq_some hconversion
    refine .inr (.inr ⟨position, wording, rfl, ?_⟩)
    rw [hbehind] at hcs
    rwa [List.append_assoc]

theorem percent_not_mem_chars (position : Option Position) (wording : Wording) :
    '%' ∉ position.elim [] Position.chars ++ wording.chars := by
  intro h
  rcases List.mem_append.mp h with h | h
  · cases position with
    | none => cases h
    | some position =>
      rcases List.mem_append.mp h with h | h
      · exact absurd (Nat.isDigit_of_mem_toDigits (by decide) (by decide) h) (by decide)
      · exact absurd (List.mem_singleton.mp h) (by decide)
  · rw [Wording.chars_eq_front] at h
    rcases List.mem_append.mp h with h | h
    · exact not_mem_front (by decide) (by decide) h
    · exact letter_ne (by decide) (List.mem_singleton.mp h).symm

theorem scan_none (h : split? cs = none) : scan ('%' :: cs) = scan cs := by
  rw [scan, if_pos rfl]
  split
  · next hsplit => cases hsplit.symm.trans h
  · rfl

theorem scan_append {passed : List Char} (h : '%' ∉ passed) : scan (passed ++ cs) = scan cs := by
  induction passed with
  | nil => rfl
  | cons c passed ih =>
    obtain ⟨hc, hpassed⟩ := not_or.mp (fun hm => h (List.mem_cons.mpr hm))
    rw [List.cons_append, scan, if_neg (Ne.symm hc)]
    exact ih hpassed

theorem exists_split?_of_mem_scan {placeholder : Placeholder} (h : placeholder ∈ scan cs) :
    ∃ behind rest, split? behind = some (placeholder, rest) := by
  fun_induction scan cs with
  | case1 => cases h
  | case2 rest found behind hsplit ih =>
    rcases List.mem_cons.mp h with rfl | h
    · exact ⟨rest, behind, hsplit⟩
    · exact ih h
  | case3 _ _ ih => exact ih h
  | case4 _ _ _ ih => exact ih h

end Placeholder

/-- Read from the left, the text gets to the rest without going into a percent sign that is written
twice or into a reference. -/
inductive Outside : List Char → List Char → Prop
  | here {rest : List Char} : Outside rest rest
  | literal {c : Char} {cs rest : List Char} (plain : c ≠ '%') (behind : Outside cs rest) :
      Outside (c :: cs) rest
  | escape {cs rest : List Char} (behind : Outside cs rest) : Outside ('%' :: '%' :: cs) rest
  | reference {cs rest : List Char} (position : Option Position) (name : String)
      (nonempty : name ≠ "") (closed : '@' ∉ name.toList) (behind : Outside cs rest) :
      Outside ((Token.reference position name nonempty closed).chars ++ cs) rest
  | percent {cs rest : List Char} (single : cs.head? ≠ some '%')
      (apart : ∀ position name nonempty closed tail,
        '%' :: cs ≠ (Token.reference position name nonempty closed).chars ++ tail)
      (behind : Outside cs rest) : Outside ('%' :: cs) rest

namespace Outside

variable {cs rest : List Char}

theorem of_append {passed : List Char} (h : Outside (passed ++ cs) ('%' :: rest))
    (hpassed : '%' ∉ passed) : Outside cs ('%' :: rest) := by
  induction passed with
  | nil => exact h
  | cons c passed ih =>
    obtain ⟨hc, hpassed⟩ := not_or.mp (fun h => hpassed (List.mem_cons.mpr h))
    rw [List.cons_append] at h
    generalize hwhole : c :: (passed ++ cs) = whole, htail : '%' :: rest = tail at h
    cases h with
    | here => exact absurd (List.cons.inj (hwhole.trans htail.symm)).1.symm hc
    | literal plain behind =>
      obtain ⟨-, rfl⟩ := List.cons.inj hwhole
      subst htail
      exact ih behind hpassed
    | escape behind => exact absurd (List.cons.inj hwhole).1.symm hc
    | reference position name nonempty closed behind =>
      exact absurd (List.cons.inj hwhole).1.symm hc
    | percent single apart behind => exact absurd (List.cons.inj hwhole).1.symm hc

theorem split?_reference (position : Option Position) {name : String} (nonempty : name ≠ "")
    (closed : '@' ∉ name.toList) {cs behind : List Char}
    (h : '%' :: cs = (Token.reference position name nonempty closed).chars ++ behind) :
    Placeholder.split? cs = some (.reference (position.map Position.value) name, behind) := by
  have hne : name.toList ≠ [] := fun he => nonempty (by simpa using he)
  have hsplit := Placeholder.split?_reference position hne closed behind
  rw [String.ofList_toList] at hsplit
  rw [show cs = _ from (List.cons.inj h).2]
  simpa using hsplit

theorem of_percent {whole : List Char} (h : Outside whole ('%' :: rest))
    (hwhole : whole = '%' :: cs) (hne : cs ≠ rest) :
    (∀ placeholder behind, Placeholder.split? cs = some (placeholder, behind) →
        Outside behind ('%' :: rest)) ∧
      (Placeholder.split? cs = none → Outside cs ('%' :: rest)) := by
  generalize htail : '%' :: rest = tail at h
  cases h with
  | here => exact absurd (List.cons.inj (htail.trans hwhole)).2.symm hne
  | literal plain behind => exact absurd (List.cons.inj hwhole).1 plain
  | escape behind =>
    obtain ⟨-, rfl⟩ := List.cons.inj hwhole
    refine ⟨fun placeholder after hsplit => ?_, fun hsplit => ?_⟩
    · obtain ⟨-, rfl⟩ := Prod.mk.inj (Option.some.inj hsplit)
      exact behind
    · cases hsplit
  | reference position name nonempty closed behind =>
    have hreference := split?_reference position nonempty closed hwhole.symm
    refine ⟨fun placeholder after hsplit => ?_, fun hsplit => ?_⟩
    · obtain ⟨-, rfl⟩ := Prod.mk.inj (Option.some.inj (hreference.symm.trans hsplit))
      exact behind
    · cases hreference.symm.trans hsplit
  | percent single apart behind =>
    obtain ⟨-, rfl⟩ := List.cons.inj hwhole
    refine ⟨fun placeholder after hsplit => ?_, fun _ => behind⟩
    rcases Placeholder.split?_eq_some hsplit with
      ⟨-, rfl⟩ | ⟨position, name, nonempty, closed, -, hchars⟩ |
        ⟨position, wording, -, rfl⟩
    · exact absurd rfl single
    · exact absurd hchars (apart position name nonempty closed after)
    · subst htail
      exact behind.of_append (Placeholder.percent_not_mem_chars position wording)

theorem scan_eq (h : Outside cs ('%' :: rest)) :
    ∃ before, Placeholder.scan cs = before ++ Placeholder.scan ('%' :: rest) := by
  fun_induction Placeholder.scan cs with
  | case1 => cases h
  | case2 cs placeholder behind hsplit ih =>
    by_cases he : cs = rest
    · exact ⟨[], by rw [← he, Token.scan_percent hsplit, List.nil_append]⟩
    · obtain ⟨before, hbefore⟩ := ih ((h.of_percent rfl he).1 placeholder behind hsplit)
      exact ⟨placeholder :: before, congrArg (placeholder :: ·) hbefore⟩
  | case3 cs hsplit ih =>
    by_cases he : cs = rest
    · refine ⟨[], ?_⟩
      rw [← he, List.nil_append, Placeholder.scan_none hsplit]
    · exact ih ((h.of_percent rfl he).2 hsplit)
  | case4 c cs hc ih =>
    have hone : Outside ([c] ++ cs) ('%' :: rest) := h
    exact ih (hone.of_append fun hm => hc (List.mem_singleton.mp hm).symm)

end Outside

section Conversions

open Placeholder (decimal isPositiveDigit positionLimit scan split?)

variable {d letter : Char} {ds back : List Char} {specifier : Specifier} {value : String}

theorem split?_positioned (hd : isPositiveDigit d = true) (hds : ∀ x ∈ ds, x.isDigit = true)
    (hletter : Specifier.ofConversion? letter = some specifier) :
    split? (d :: ds ++ '$' :: letter :: back) =
      some (.conversion (some (min (decimal (d :: ds)) positionLimit)) letter, back) := by
  obtain ⟨position, hnumber, hchars⟩ := Placeholder.exists_position hd hds
  let body : Conversion := { flags := [], width := none, precision := none, length := none, letter
                             flagged := List.forall_mem_nil _, specifier, converts := hletter }
  have hbody : body.chars = [letter] := by
    simp [body, Wording.chars, Wording.behindWidth, Wording.behindPrecision]
  have hapart : body.chars ≠ ['#', '@'] := by simp [hbody]
  have hsplit := Placeholder.split?_conversion (some position) hapart back
  rw [Option.map_some, Position.value, hnumber, Option.elim_some, hchars, hbody] at hsplit
  simpa [body] using hsplit

theorem mem_parts_of_outside (hd : isPositiveDigit d = true) (hds : ∀ x ∈ ds, x.isDigit = true)
    (hletter : Specifier.ofConversion? letter = some specifier)
    (h : Outside value.toList ('%' :: (d :: ds ++ '$' :: letter :: back))) :
    Part.specifier (some (min (decimal (d :: ds)) positionLimit)) specifier ∈ parts value := by
  obtain ⟨before, hscan⟩ := h.scan_eq
  rw [Token.scan_percent (split?_positioned hd hds hletter)] at hscan
  rw [parts, hscan]
  refine List.mem_filterMap.mpr ⟨_, List.mem_append_right _ (List.mem_cons_self ..), ?_⟩
  rw [Placeholder.part?, hletter]
  rfl

theorem split?_leadingZero (hds : ∀ x ∈ ds, x.isDigit = true) (rest : List Char) :
    split? ('0' :: ds ++ '$' :: rest) = none := by
  have hposition : Placeholder.splitPosition ('0' :: ds ++ '$' :: rest) =
      (none, '0' :: ds ++ '$' :: rest) :=
    Placeholder.splitPosition_eq_none fun h =>
      absurd (show isPositiveDigit '0' = true from h) (by decide)
  have hwidth : Placeholder.dropWidth (('0' :: ds ++ '$' :: rest).dropWhile Placeholder.isFlag) =
      '$' :: rest := by
    rw [Placeholder.dropWhile_append_stop _ (by decide)]
    refine Placeholder.dropWidth_digits (fun x hx => ?_) (by decide) (by decide)
    rcases List.mem_cons.mp ((List.dropWhile_sublist _).subset hx) with rfl | hx
    · rfl
    · exact hds x hx
  have hconversion : Placeholder.splitConversion? ('0' :: ds ++ '$' :: rest) = none := by
    rw [Placeholder.splitConversion?, hwidth]
    rfl
  have hreference : Placeholder.splitReference? ('0' :: ds ++ '$' :: rest) = none := rfl
  rw [split?, hposition]
  · simp only [hreference, hconversion, Option.map_none]
  · exact fun _ he => absurd (List.cons.inj he).1 (by decide)

theorem scan_leadingZero (hds : ∀ x ∈ ds, x.isDigit = true) (hletter : letter ≠ '%') :
    scan ('%' :: ('0' :: ds ++ '$' :: letter :: back)) = scan back := by
  rw [Placeholder.scan_none (split?_leadingZero hds _)]
  have hpassed : '%' ∉ '0' :: ds ++ ['$', letter] := by
    intro h
    rcases List.mem_append.mp h with h | h
    · rcases List.mem_cons.mp h with h | h
      · exact absurd h (by decide)
      · exact absurd (hds _ h) (by decide)
    · rcases List.mem_cons.mp h with h | h
      · exact absurd h (by decide)
      · exact hletter (List.mem_singleton.mp h).symm
  have hscan : scan (('0' :: ds ++ ['$', letter]) ++ back) = scan back :=
    Placeholder.scan_append hpassed
  rwa [List.append_assoc] at hscan

end Conversions

theorem Specifier.ofConversion?_ne_any {letter : Char} {specifier : Specifier}
    (h : Specifier.ofConversion? letter = some specifier) : specifier ≠ .any := by
  rintro rfl
  unfold Specifier.ofConversion? at h
  split at h <;> cases h

theorem specifier_of_mem_parts {value : String} {position : Option Nat} {specifier : Specifier}
    (h : Part.specifier position specifier ∈ parts value) :
    specifier ≠ .any ∧ ∀ number, position = some number → 0 < number := by
  obtain ⟨placeholder, hscan, hpart⟩ := List.mem_filterMap.mp h
  obtain ⟨cs, rest, hsplit⟩ := Placeholder.exists_split?_of_mem_scan hscan
  rcases Placeholder.split?_eq_some hsplit with
    ⟨rfl, -⟩ | ⟨_, _, _, _, rfl, -⟩ | ⟨written, letter, rfl, -⟩
  · cases hpart
  · cases hpart
  · obtain ⟨found, hletter, he⟩ := Option.map_eq_some_iff.mp hpart
    obtain ⟨rfl, rfl⟩ := Part.specifier.inj he
    refine ⟨Specifier.ofConversion?_ne_any hletter, fun number hnumber => ?_⟩
    obtain ⟨written, -, rfl⟩ := Option.map_eq_some_iff.mp hnumber
    exact Nat.lt_min.mpr ⟨written.positive, by decide⟩

end Accessors.Format

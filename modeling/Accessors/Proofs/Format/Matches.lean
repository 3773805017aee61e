import Accessors.Proofs.Format.Slots

/-!
# Matches of the pattern

The pattern of placeholders has three alternatives: two percent signs, a reference, and a conversion
with one of the listed letters. A text is searched from the left; where several alternatives match,
the first of them counts, and the search goes on behind the match. Such a search has one outcome,
and this is what the text is scanned into.

A match is a part unless it is a written percent sign, or a conversion with the one listed letter
that has no specifier. What is no part takes no slot either: the arguments of the other matches
without a position take the slots from the first one on.
-/

namespace Accessors.Format

open Placeholder (scan split?)
open Record (PluralRule)

/-- The texts that the alternatives of the pattern match. -/
inductive Matched : List Char → Placeholder → Prop
  | percent : Matched ['%', '%'] .percent
  | reference (position : Option Position) (name : String) (nonempty : name ≠ "")
      (closed : '@' ∉ name.toList) :
      Matched (Token.reference position name nonempty closed).chars
        (.reference (position.map Position.value) name)
  | conversion (position : Option Position) (wording : Wording) :
      Matched ('%' :: (position.elim [] Position.chars ++ wording.chars))
        (.conversion (position.map Position.value) wording.letter)

def Placeholder.rank : Placeholder → Nat
  | .percent => 0
  | .reference .. => 1
  | .conversion .. => 2

/-- The text begins with a match, and no earlier alternative matches there. -/
structure MatchedFirst (cs : List Char) (first : Placeholder) (rest : List Char) : Prop where
  here : ∃ text, Matched text first ∧ cs = text ++ rest
  earliest : ∀ text other behind, Matched text other → cs = text ++ behind → first.rank ≤ other.rank

inductive Matches : List Char → List Placeholder → Prop
  | nil : Matches [] []
  | skip {c : Char} {cs : List Char} {found : List Placeholder}
      (unmatched : ∀ text other behind, Matched text other → c :: cs ≠ text ++ behind)
      (behind : Matches cs found) : Matches (c :: cs) found
  | take {cs rest : List Char} {first : Placeholder} {found : List Placeholder}
      (here : MatchedFirst cs first rest) (behind : Matches rest found) :
      Matches cs (first :: found)

section Search

variable {cs rest text : List Char} {first other : Placeholder} {found : List Placeholder}

theorem matched_of_split? (h : split? cs = some (first, rest)) :
    ∃ text, Matched text first ∧ '%' :: cs = text ++ rest := by
  rcases Placeholder.split?_eq_some h with
    ⟨rfl, rfl⟩ | ⟨position, name, nonempty, closed, rfl, hcs⟩ | ⟨position, wording, rfl, rfl⟩
  · exact ⟨_, .percent, rfl⟩
  · exact ⟨_, .reference position name nonempty closed, hcs⟩
  · exact ⟨_, .conversion position wording, rfl⟩

theorem Matched.exists_split? (h : Matched text other) (rest : List Char) :
    ∃ cs first behind, text ++ rest = '%' :: cs ∧ split? cs = some (first, behind) ∧
      first.rank ≤ other.rank ∧ (first.rank = other.rank → first = other ∧ behind = rest) := by
  cases h with
  | percent => exact ⟨_, _, _, rfl, rfl, le_rfl, fun _ => ⟨rfl, rfl⟩⟩
  | reference position name nonempty closed =>
    exact ⟨_, _, _, rfl, Outside.split?_reference position nonempty closed rfl, le_rfl,
      fun _ => ⟨rfl, rfl⟩⟩
  | conversion position wording =>
    have hsplit := Placeholder.split?_optional position
      (Placeholder.chars_ne_percent wording rest) (Placeholder.splitPosition_chars wording rest)
    refine ⟨position.elim [] Position.chars ++ (wording.chars ++ rest), ?_⟩
    rw [List.cons_append, List.append_assoc]
    -- With the flag `#` and the letter `@` a conversion can be the beginning of a reference.
    cases hreference : Placeholder.splitReference? (wording.chars ++ rest) with
    | some reference =>
      rw [hreference] at hsplit
      exact ⟨_, _, rfl, hsplit, Nat.le_succ 1, fun he => absurd (show 1 = 2 from he) (by decide)⟩
    | none =>
      rw [hreference, Placeholder.splitConversion?_chars] at hsplit
      exact ⟨_, _, rfl, hsplit, le_rfl, fun _ => ⟨rfl, rfl⟩⟩

theorem matchedFirst_iff :
    MatchedFirst cs first rest ↔
      ∃ behind, cs = '%' :: behind ∧ split? behind = some (first, rest) := by
  constructor
  · rintro ⟨⟨text, hmatched, rfl⟩, hearliest⟩
    obtain ⟨behind, found, rest', hcs, hsplit, hle, hsame⟩ := hmatched.exists_split? rest
    obtain ⟨text', hmatched', htext'⟩ := matched_of_split? hsplit
    obtain ⟨rfl, rfl⟩ :=
      hsame (hle.antisymm (hearliest text' found rest' hmatched' (hcs.trans htext')))
    exact ⟨behind, hcs, hsplit⟩
  · rintro ⟨behind, rfl, hsplit⟩
    refine ⟨matched_of_split? hsplit, fun text other rest' hmatched htext => ?_⟩
    obtain ⟨behind', found, _, hcs, hsplit', hle, -⟩ := hmatched.exists_split? rest'
    obtain ⟨-, rfl⟩ := List.cons.inj (htext.trans hcs)
    obtain ⟨rfl, -⟩ := Prod.mk.inj (Option.some.inj (hsplit.symm.trans hsplit'))
    exact hle

theorem matches_scan (cs : List Char) : Matches cs (scan cs) := by
  fun_induction scan cs with
  | case1 => exact .nil
  | case2 rest first behind hsplit ih =>
    exact .take (matchedFirst_iff.mpr ⟨rest, rfl, hsplit⟩) ih
  | case3 rest hsplit ih =>
    refine .skip (fun text other behind hmatched htext => ?_) ih
    obtain ⟨rest', _, _, hcs, hsplit', -⟩ := hmatched.exists_split? behind
    obtain ⟨-, rfl⟩ := List.cons.inj (htext.trans hcs)
    cases hsplit.symm.trans hsplit'
  | case4 c rest hc ih =>
    refine .skip (fun text other behind hmatched htext => ?_) ih
    obtain ⟨rest', _, _, hcs, -⟩ := hmatched.exists_split? behind
    exact hc (List.cons.inj (htext.trans hcs)).1

theorem matches_iff : Matches cs found ↔ found = scan cs := by
  refine ⟨fun h => ?_, fun h => h ▸ matches_scan cs⟩
  induction h with
  | nil => rw [scan]
  | @skip c cs found unmatched behind ih =>
    rw [ih]
    by_cases hc : c = '%'
    · subst hc
      cases hsplit : split? cs with
      | none => rw [Placeholder.scan_none hsplit]
      | some split =>
        obtain ⟨text, hmatched, htext⟩ := matched_of_split? hsplit
        exact absurd htext (unmatched text _ _ hmatched)
    · rw [scan, if_neg hc]
  | take here behind ih =>
    obtain ⟨cs, rfl, hsplit⟩ := matchedFirst_iff.mp here
    rw [Token.scan_percent hsplit, ih]

end Search

/-- The arguments stand in the slots from the start on, each with what else was said there. -/
def Slots.Holds (slots : Slots) (start : Nat) (arguments : List Argument) : Prop :=
  ∀ i argument, arguments[i]? = some argument →
    ∃ held, slots.held (start + i) = some held ∧ argument.Within held

def Part.asked (resolve : String → Except FormatError (List Argument)) (owner : Option String) :
    Part → List Argument
  | .specifier none given => [⟨owner, given⟩]
  | .reference none name => (resolve name).toOption.getD []
  | .specifier (some _) _ => []
  | .reference (some _) _ => []

section Slots

variable {resolve : String → Except FormatError (List Argument)} {owner : Option String}
  {slots middle result : Slots} {start next : Nat} {argument : Argument} {as bs : List Argument}

def Slots.Below (slots result : Slots) : Prop :=
  ∀ slot argument, slots.held slot = some argument →
    ∃ held, result.held slot = some held ∧ argument.Within held

theorem Slots.Below.refl (slots : Slots) : slots.Below slots :=
  fun _ argument h => ⟨argument, h, .refl argument⟩

theorem Slots.Below.trans (h : slots.Below middle) (h' : middle.Below result) :
    slots.Below result := by
  intro slot argument hheld
  obtain ⟨second, hsecond, hwithin⟩ := h slot argument hheld
  obtain ⟨third, hthird, hwithin'⟩ := h' slot second hsecond
  exact ⟨third, hthird, hwithin.trans hwithin'⟩

theorem Slots.Holds.of_below (h : slots.Holds start as) (hbelow : slots.Below result) :
    result.Holds start as := by
  intro i argument hi
  obtain ⟨held, hheld, hwithin⟩ := h i argument hi
  obtain ⟨last, hlast, hwithin'⟩ := hbelow _ held hheld
  exact ⟨last, hlast, hwithin.trans hwithin'⟩

theorem Slots.holds_nil (slots : Slots) (start : Nat) : slots.Holds start [] := nofun

theorem Slots.Holds.append (ha : slots.Holds start as) (hb : slots.Holds (start + as.length) bs) :
    slots.Holds start (as ++ bs) := by
  intro i argument hi
  by_cases hlt : i < as.length
  · exact ha i argument (by rwa [List.getElem?_append_left hlt] at hi)
  · rw [List.getElem?_append_right (Nat.not_lt.mp hlt)] at hi
    obtain ⟨held, hheld, hwithin⟩ := hb _ argument hi
    rw [Nat.add_assoc, Nat.add_sub_cancel' (Nat.not_lt.mp hlt)] at hheld
    exact ⟨held, hheld, hwithin⟩

theorem Placed.below {slot : Nat} (h : Placed argument slot slots result) : slots.Below result := by
  intro other earlier hheld
  by_cases hother : other = slot
  · subst hother
    exact h.here.within_left hheld
  · exact ⟨earlier, (h.others other hother).trans hheld, .refl earlier⟩

theorem Placed.holds {slot : Nat} (h : Placed argument slot slots result) :
    result.Holds slot [argument] := by
  intro i other hi
  obtain ⟨rfl, rfl⟩ : i = 0 ∧ argument = other := by
    cases i with
    | zero => exact ⟨rfl, Option.some.inj hi⟩
    | succ i => cases hi
  exact h.here.within_right rfl

theorem holds_of_placeAll (h : placeAll as start slots = .ok result) :
    slots.Below result ∧ result.Holds start as := by
  induction as generalizing start slots with
  | nil =>
    obtain rfl := Except.ok.inj h
    exact ⟨.refl slots, slots.holds_nil start⟩
  | cons argument rest ih =>
    obtain ⟨placed, hplace, hrest⟩ := bind_eq_ok_iff.mp h
    have hplaced := placed_of_place hplace
    obtain ⟨hbelow, hholds⟩ := ih hrest
    exact ⟨hplaced.below.trans hbelow, (hplaced.holds.of_below hbelow).append hholds⟩

/-- What one part does: nothing is lost, and its arguments are the next ones. -/
theorem holds_of_fillPart {part : Part} {state : Nat × Slots}
    (h : fillPart resolve owner next slots part = .ok state) :
    state.1 = next + (part.asked resolve owner).length ∧ slots.Below state.2 ∧
      state.2.Holds next (part.asked resolve owner) := by
  match part with
  | .specifier (some position) specifier =>
    obtain ⟨slot, -, h⟩ := bind_eq_ok_iff.mp h
    obtain ⟨placed, hplace, ⟨⟩⟩ := bind_eq_ok_iff.mp h
    exact ⟨rfl, (placed_of_place hplace).below, placed.holds_nil next⟩
  | .specifier none specifier =>
    obtain ⟨placed, hplace, ⟨⟩⟩ := bind_eq_ok_iff.mp h
    have hplaced := placed_of_place hplace
    exact ⟨rfl, hplaced.below, hplaced.holds⟩
  | .reference (some position) name =>
    obtain ⟨arguments, -, h⟩ := bind_eq_ok_iff.mp h
    obtain ⟨slot, -, h⟩ := bind_eq_ok_iff.mp h
    obtain ⟨placed, hplace, ⟨⟩⟩ := bind_eq_ok_iff.mp h
    exact ⟨rfl, (holds_of_placeAll hplace).1, placed.holds_nil next⟩
  | .reference none name =>
    obtain ⟨arguments, hresolve, h⟩ := bind_eq_ok_iff.mp h
    obtain ⟨placed, hplace, ⟨⟩⟩ := bind_eq_ok_iff.mp h
    have hasked : (Part.reference none name).asked resolve owner = arguments := by
      rw [Part.asked, hresolve]
      rfl
    rw [hasked]
    exact ⟨rfl, holds_of_placeAll hplace⟩

theorem holds_of_fill {parts : List Part} (h : fill resolve owner parts next slots = .ok result) :
    slots.Below result ∧ result.Holds next (parts.flatMap (Part.asked resolve owner)) := by
  induction parts generalizing next slots with
  | nil =>
    obtain rfl := Except.ok.inj h
    exact ⟨.refl slots, slots.holds_nil next⟩
  | cons part rest ih =>
    rw [fill_cons] at h
    obtain ⟨state, hpart, hrest⟩ := bind_eq_ok_iff.mp h
    obtain ⟨hnext, hbelow, hholds⟩ := holds_of_fillPart hpart
    obtain ⟨hbelow', hholds'⟩ := ih hrest
    rw [hnext] at hholds'
    exact ⟨hbelow.trans hbelow', (hholds.of_below hbelow').append hholds'⟩

theorem below_of_layout {parts : List Part} {arguments : List Argument}
    (h : layout resolve owner parts = .ok arguments) :
    Argument.Below (parts.flatMap (Part.asked resolve owner)) arguments := by
  obtain ⟨slots, hfill, ⟨⟩⟩ := bind_eq_ok_iff.mp h
  intro i argument hi
  obtain ⟨held, hheld, hwithin⟩ := (holds_of_fill hfill).2 i argument hi
  rw [Nat.zero_add] at hheld
  refine ⟨held, ?_, hwithin⟩
  rw [List.getElem?_map, Option.join_eq_some_iff.mp hheld]
  rfl

end Slots

namespace Placeholder

def isSkipped : Placeholder → Bool
  | .percent => true
  | .conversion _ letter => letter == 'I'
  | .reference _ _ => false

def isUnpositioned : Placeholder → Bool
  | .percent => false
  | .conversion position _ => position.isNone
  | .reference position _ => position.isNone

def asked (rules : Option (Dictionary PluralRule)) (placeholder : Placeholder) : List Argument :=
  placeholder.part?.toList.flatMap (Part.asked (referenced rules) none)

end Placeholder

/-- What a text is read as, when these are the matches in it. -/
structure ReadAs (value : String) (rules : Option (Dictionary PluralRule))
    (found : List Placeholder) : Prop where
  parts : parts value = found.filterMap Placeholder.part?
  part?_eq_none_iff : ∀ placeholder ∈ found,
    placeholder.part? = none ↔ placeholder.isSkipped = true
  length : (Format.parts value).length = found.countP (! ·.isSkipped)
  slots : ∀ arguments, Format.arguments value rules = .ok arguments →
    Argument.Below (found.flatMap (Placeholder.asked rules)) arguments
  ordinal : ∀ arguments, Format.arguments value rules = .ok arguments →
    ∀ before letter specifier behind, found = before ++ .conversion none letter :: behind →
      Specifier.ofConversion? letter = some specifier →
      (∀ position name, .reference position name ∉ before) →
        ∃ held, arguments[before.countP fun earlier =>
          earlier.isUnpositioned && !earlier.isSkipped]? = some held ∧ held.specifier = specifier

section Reading

variable {value : String} {rules : Option (Dictionary PluralRule)} {found : List Placeholder}
  {placeholder : Placeholder}

theorem Specifier.ofConversion?_eq_none_iff : ∀ letter ∈ Placeholder.letters,
    (Specifier.ofConversion? letter = none ↔ letter = 'I') := by decide

theorem part?_eq_none_iff_of_mem_scan {cs : List Char} (h : placeholder ∈ scan cs) :
    placeholder.part? = none ↔ placeholder.isSkipped = true := by
  obtain ⟨behind, rest, hsplit⟩ := Placeholder.exists_split?_of_mem_scan h
  rcases Placeholder.split?_eq_some hsplit with
    ⟨rfl, -⟩ | ⟨position, name, nonempty, closed, rfl, -⟩ | ⟨position, wording, rfl, -⟩
  · exact iff_of_true rfl rfl
  · exact iff_of_false nofun nofun
  · rw [Placeholder.part?, Option.map_eq_none_iff, Placeholder.isSkipped, beq_iff_eq]
    exact Specifier.ofConversion?_eq_none_iff _ wording.listed

theorem flatMap_asked (found : List Placeholder) :
    (found.filterMap Placeholder.part?).flatMap (Part.asked (referenced rules) none) =
      found.flatMap (Placeholder.asked rules) := by
  rw [List.filterMap_eq_flatMap_toList, List.flatMap_assoc]
  rfl

theorem length_asked (hreference : ∀ position name, placeholder ≠ .reference position name)
    (hskipped : placeholder.part? = none ↔ placeholder.isSkipped = true) :
    (placeholder.asked rules).length =
      if placeholder.isUnpositioned && !placeholder.isSkipped then 1 else 0 := by
  cases placeholder with
  | percent => rfl
  | reference position name => exact absurd rfl (hreference position name)
  | conversion position letter =>
    cases hletter : Specifier.ofConversion? letter with
    | none =>
      have hnone : (Placeholder.conversion position letter).part? = none := by
        rw [Placeholder.part?, hletter]
        rfl
      rw [Placeholder.asked, hskipped.mp hnone, hnone]
      simp
    | some specifier =>
      have hsome : (Placeholder.conversion position letter).part? =
          some (.specifier position specifier) := by
        rw [Placeholder.part?, hletter]
        rfl
      have hread : (Placeholder.conversion position letter).isSkipped = false := by
        rw [← Bool.not_eq_true, ← hskipped, hsome]
        exact Option.some_ne_none _
      rw [Placeholder.asked, hread, hsome]
      cases position <;> rfl

theorem length_flatMap_asked (hreference : ∀ position name, .reference position name ∉ found)
    (hskipped : ∀ placeholder ∈ found, placeholder.part? = none ↔ placeholder.isSkipped = true) :
    (found.flatMap (Placeholder.asked rules)).length =
      found.countP fun placeholder => placeholder.isUnpositioned && !placeholder.isSkipped := by
  induction found with
  | nil => rfl
  | cons placeholder rest ih =>
    obtain ⟨hfirst, hrest⟩ := List.forall_mem_cons.mp hskipped
    have hfirst' : ∀ position name, placeholder ≠ .reference position name :=
      fun position name he => hreference position name (he ▸ List.mem_cons_self ..)
    have hrest' : ∀ position name, .reference position name ∉ rest :=
      fun position name hm => hreference position name (List.mem_cons_of_mem _ hm)
    rw [List.flatMap_cons, List.length_append, length_asked hfirst' hfirst, ih hrest' hrest,
      List.countP_cons, Nat.add_comm]

theorem slots_of_parts (hparts : parts value = found.filterMap Placeholder.part?)
    {laid : List Argument} (h : arguments value rules = .ok laid) :
    Argument.Below (found.flatMap (Placeholder.asked rules)) laid := by
  rw [arguments_eq_layout, hparts] at h
  rw [← flatMap_asked]
  exact below_of_layout h

theorem readAs_scan (value : String) (rules : Option (Dictionary PluralRule)) :
    ReadAs value rules (scan value.toList) where
  parts := rfl
  part?_eq_none_iff := fun _ hm => part?_eq_none_iff_of_mem_scan hm
  length := by
    rw [parts, List.length_filterMap_eq_countP]
    refine List.countP_congr fun placeholder hm => ?_
    rw [Option.isSome_iff_ne_none, Ne, part?_eq_none_iff_of_mem_scan hm, Bool.not_eq_true',
      Bool.not_eq_true]
  slots := fun _ h => slots_of_parts rfl h
  ordinal := by
    intro arguments h before letter specifier behind hfound hletter hreference
    have hskipped : ∀ placeholder ∈ before,
        placeholder.part? = none ↔ placeholder.isSkipped = true := fun placeholder hm =>
      part?_eq_none_iff_of_mem_scan (hfound ▸ List.mem_append_left _ hm)
    have hasked : (Placeholder.conversion none letter).asked rules = [⟨none, specifier⟩] := by
      rw [Placeholder.asked, Placeholder.part?, hletter]
      rfl
    have hslot : ((scan value.toList).flatMap (Placeholder.asked rules))[
        (before.flatMap (Placeholder.asked rules)).length]? = some ⟨none, specifier⟩ := by
      rw [hfound, List.flatMap_append, List.flatMap_cons, hasked, List.getElem?_append_right le_rfl,
        Nat.sub_self]
      rfl
    obtain ⟨held, hheld, hwithin⟩ := slots_of_parts rfl h _ _ hslot
    rw [length_flatMap_asked hreference hskipped] at hheld
    exact ⟨held, hheld, hwithin.specifier (Specifier.ofConversion?_ne_any hletter)⟩

end Reading

/-- A search of a text for the pattern has one outcome. Of its matches all are parts but written
percent signs and conversions with `I`; these take no slot, and the others without a position take
the slots from the first one on. -/
theorem matches_read (value : String) (rules : Option (Dictionary PluralRule)) :
    (∃! found, Matches value.toList found) ∧
      ∀ found, Matches value.toList found → ReadAs value rules found := by
  refine ⟨⟨scan value.toList, matches_scan _, fun found h => matches_iff.mp h⟩, fun found h => ?_⟩
  rw [matches_iff.mp h]
  exact readAs_scan value rules

theorem matches_read_mixed :
    Matches "%I %d of %#@files@, %5$d%% %@".toList
        [.conversion none 'I', .conversion none 'd', .reference none "files",
          .conversion (some 5) 'd', .percent, .conversion none '@'] ∧
      arguments "%I %d of %#@files@, %5$d%% %@" (some sampleRules) =
        .ok [⟨none, .int⟩, ⟨some "files", .int⟩, ⟨some "folders", .uint⟩, ⟨none, .object⟩,
          ⟨none, .int⟩] ∧
      (parts "%I %d of %#@files@, %5$d%% %@").length = 4 ∧
      Argument.Below [⟨none, .int⟩, ⟨some "files", .int⟩, ⟨some "folders", .uint⟩, ⟨none, .object⟩]
        [⟨none, .int⟩, ⟨some "files", .int⟩, ⟨some "folders", .uint⟩, ⟨none, .object⟩,
          ⟨none, .int⟩] ∧
      ∃ held, [⟨none, .int⟩, ⟨some "files", .int⟩, ⟨some "folders", .uint⟩, ⟨none, .object⟩,
        (⟨none, .int⟩ : Argument)][0]? = some held ∧ held.specifier = .int := by
  have hmatches : Matches "%I %d of %#@files@, %5$d%% %@".toList
      [.conversion none 'I', .conversion none 'd', .reference none "files",
        .conversion (some 5) 'd', .percent, .conversion none '@'] :=
    matches_iff.mpr (by cbv)
  have hok : arguments "%I %d of %#@files@, %5$d%% %@" (some sampleRules) =
      .ok [⟨none, .int⟩, ⟨some "files", .int⟩, ⟨some "folders", .uint⟩, ⟨none, .object⟩,
        ⟨none, .int⟩] := by cbv
  have hread := (matches_read _ (some sampleRules)).2 _ hmatches
  have hasked : [Placeholder.conversion none 'I', .conversion none 'd', .reference none "files",
      .conversion (some 5) 'd', .percent, .conversion none '@'].flatMap
        (Placeholder.asked (some sampleRules)) =
      [⟨none, .int⟩, ⟨some "files", .int⟩, ⟨some "folders", .uint⟩, ⟨none, .object⟩] := by cbv
  have hslots := hread.slots _ hok
  rw [hasked] at hslots
  exact ⟨hmatches, hok, hread.length, hslots, hread.ordinal _ hok [.conversion none 'I'] 'd' .int _
    rfl rfl (by simp)⟩

/-- Two conversions match, and the first of them is no part: the other one takes its slot. -/
theorem matches_read_capital :
    Matches "%I %@".toList [.conversion none 'I', .conversion none '@'] ∧
      parts "%I %@" = [.specifier none .object] ∧
      arguments "%I %@" none = .ok [⟨none, .object⟩] :=
  ⟨matches_iff.mpr (by cbv), by cbv, by cbv⟩

end Accessors.Format

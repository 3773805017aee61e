import Mathlib.Data.List.Basic
import Accessors.ImageName

/-!
# The ending of an image name

An ending is a scale and a device, which may both be missing, and an extension. The base of a name
is the shortest front of one line before an ending. In an ending each part starts with a mark that
stands nowhere else in it, so a front before a shorter ending is cut short by a longer one only if
it ends in a scale or a device itself, and never if the shorter ending has a scale.
-/

namespace Accessors.ImageName

def IsScale (cs : List Char) : Prop :=
  ∃ digits x, digits ≠ [] ∧ (∀ c ∈ digits, c.isDigit = true) ∧ (x = 'x' ∨ x = 'X') ∧
    cs = '@' :: (digits ++ [x])

def IsDevice (cs : List Char) : Prop := ∃ word, lowercase word ∈ devices ∧ cs = '~' :: word

def IsExtension (cs : List Char) : Prop := ∃ word, lowercase word ∈ extensions ∧ cs = '.' :: word

def IsOptional (p : List Char → Prop) (cs : List Char) : Prop := cs = [] ∨ p cs

inductive Ending : List Char → Prop
  | mk {scale device extension : List Char} (hscale : IsOptional IsScale scale)
    (hdevice : IsOptional IsDevice device) (hextension : IsExtension extension) :
    Ending (scale ++ (device ++ extension))

variable {cs rest scale device extension ending front word : List Char} {c : Char}

theorem not_mem_word {words : List (List Char)} (hwords : ∀ w ∈ words, c.toLower ∉ w)
    (h : lowercase word ∈ words) : c ∉ word :=
  fun hc => hwords _ h (List.mem_map_of_mem hc)

theorem IsScale.not_mem (h : IsScale scale) (hc : c ∈ ['~', '.', '\n']) : c ∉ scale := by
  obtain ⟨digits, x, -, hdigits, hx, rfl⟩ := h
  have hmarks : ∀ c ∈ ['~', '.', '\n'], c.isDigit = false ∧ c ≠ '@' ∧ c ≠ 'x' ∧ c ≠ 'X' := by decide
  obtain ⟨hdigit, hat, hlower, hupper⟩ := hmarks c hc
  have hinside : c ∉ digits := fun hm => Bool.false_ne_true (hdigit ▸ hdigits c hm)
  rcases hx with rfl | rfl <;> simp [hat, hinside, hlower, hupper]

theorem IsDevice.not_mem (h : IsDevice device) (hc : c ∈ ['@', '.', '\n']) : c ∉ device := by
  obtain ⟨word, hword, rfl⟩ := h
  have hmarks : ∀ c ∈ ['@', '.', '\n'], c ≠ '~' ∧ ∀ w ∈ devices, c.toLower ∉ w := by decide
  exact List.not_mem_cons_of_ne_of_not_mem (hmarks c hc).1 (not_mem_word (hmarks c hc).2 hword)

theorem IsExtension.not_mem (h : IsExtension extension) (hc : c ∈ ['@', '~', '\n']) :
    c ∉ extension := by
  obtain ⟨word, hword, rfl⟩ := h
  have hmarks : ∀ c ∈ ['@', '~', '\n'], c ≠ '.' ∧ ∀ w ∈ extensions, c.toLower ∉ w := by decide
  exact List.not_mem_cons_of_ne_of_not_mem (hmarks c hc).1 (not_mem_word (hmarks c hc).2 hword)

theorem IsOptional.not_mem {p : List Char → Prop} (h : IsOptional p cs) (hp : p cs → c ∉ cs) :
    c ∉ cs := by
  rcases h with rfl | h
  · exact List.not_mem_nil
  · exact hp h

theorem dropScale_append (h : IsScale scale) (rest : List Char) :
    dropScale (scale ++ rest) = rest := by
  obtain ⟨digits, x, hne, hdigits, hx, rfl⟩ := h
  obtain ⟨d, digits, rfl⟩ := List.exists_cons_of_ne_nil hne
  rw [List.forall_mem_cons] at hdigits
  have hstop : x.isDigit = false := by rcases hx with rfl | rfl <;> rfl
  have hbehind : (digits ++ x :: rest).dropWhile Char.isDigit = x :: rest := by
    rw [List.dropWhile_append_of_pos hdigits.2, List.dropWhile_cons_of_neg (by simp [hstop])]
  have hmark : (x == 'x' || x == 'X') = true := by rcases hx with rfl | rfl <;> rfl
  simp [dropScale, hdigits.1, hbehind, hmark]

theorem dropScale_optional (h : IsOptional IsScale scale) (hrest : rest.head? ≠ some '@') :
    dropScale (scale ++ rest) = rest := by
  rcases h with rfl | h
  · rw [List.nil_append]
    unfold dropScale
    split
    · exact absurd rfl hrest
    · rfl
  · exact dropScale_append h rest

theorem exists_dropScale (cs : List Char) :
    ∃ scale, IsOptional IsScale scale ∧ cs = scale ++ dropScale cs := by
  unfold dropScale
  split
  · next d rest =>
    split
    · next x behind hd hbehind =>
      split
      · next hx =>
        refine ⟨'@' :: (d :: rest.takeWhile Char.isDigit ++ [x]), .inr ⟨_, x, List.cons_ne_nil _ _,
          List.forall_mem_cons.mpr ⟨hd, List.all_eq_true.mp List.all_takeWhile⟩, ?_, rfl⟩, ?_⟩
        · simpa using hx
        · have hdigits := List.takeWhile_append_dropWhile (p := Char.isDigit) (l := rest)
          rw [hbehind] at hdigits
          simp [hdigits]
      · exact ⟨[], .inl rfl, rfl⟩
    · exact ⟨[], .inl rfl, rfl⟩
  · exact ⟨[], .inl rfl, rfl⟩

theorem devices_prefix_free : ∀ a ∈ devices, ∀ b ∈ devices, a <+: b → a = b := by decide

theorem mem_and_prefix_of_find? {found : List Char}
    (h : (devices.find? fun device => device.isPrefixOf cs) = some found) :
    found ∈ devices ∧ found <+: cs :=
  ⟨List.mem_of_find?_eq_some h, List.isPrefixOf_iff_prefix.mp (by simpa using List.find?_some h)⟩

theorem dropDevice_append (h : IsDevice device) (rest : List Char) :
    dropDevice (device ++ rest) = rest := by
  obtain ⟨word, hword, rfl⟩ := h
  have hprefix : lowercase word <+: lowercase (word ++ rest) :=
    ⟨lowercase rest, List.map_append.symm⟩
  have hfind : (devices.find? fun device => device.isPrefixOf (lowercase (word ++ rest))) =
      some (lowercase word) := by
    cases hfound : devices.find? fun device => device.isPrefixOf (lowercase (word ++ rest)) with
    | none =>
      exact absurd (List.isPrefixOf_iff_prefix.mpr hprefix) (List.find?_eq_none.mp hfound _ hword)
    | some found =>
      obtain ⟨hmem, hfront⟩ := mem_and_prefix_of_find? hfound
      rcases List.prefix_or_prefix_of_prefix hfront hprefix with hp | hp
      · rw [devices_prefix_free _ hmem _ hword hp]
      · rw [devices_prefix_free _ hword _ hmem hp]
  rw [List.cons_append, dropDevice, hfind]
  simp [lowercase]

theorem dropDevice_optional (h : IsOptional IsDevice device) (hrest : rest.head? ≠ some '~') :
    dropDevice (device ++ rest) = rest := by
  rcases h with rfl | h
  · rw [List.nil_append]
    unfold dropDevice
    split
    · exact absurd rfl hrest
    · rfl
  · exact dropDevice_append h rest

theorem exists_dropDevice (cs : List Char) :
    ∃ device, IsOptional IsDevice device ∧ cs = device ++ dropDevice cs := by
  unfold dropDevice
  split
  · next rest =>
    split
    · next found hfound =>
      obtain ⟨hmem, hfront⟩ := mem_and_prefix_of_find? hfound
      have hword : lowercase (rest.take found.length) = found := by
        rw [lowercase, List.map_take, ← lowercase, ← List.prefix_iff_eq_take.mp hfront]
      refine ⟨'~' :: rest.take found.length, .inr ⟨_, by rwa [hword], rfl⟩, ?_⟩
      rw [List.cons_append, List.take_append_drop]
    · exact ⟨[], .inl rfl, rfl⟩
  · exact ⟨[], .inl rfl, rfl⟩

theorem isEnding_iff : isEnding cs = true ↔ Ending cs := by
  constructor
  · intro h
    obtain ⟨scale, hscale, hcs⟩ := exists_dropScale cs
    obtain ⟨device, hdevice, hrest⟩ := exists_dropDevice (dropScale cs)
    unfold isEnding at h
    split at h
    · next rest hdropped =>
      rw [hcs, hrest, hdropped]
      exact .mk hscale hdevice ⟨rest, List.contains_iff_mem.mp h, rfl⟩
    · cases h
  · rintro (@⟨scale, device, _, hscale, hdevice, word, hword, rfl⟩)
    have hhead : (device ++ '.' :: word).head? ≠ some '@' := by
      rcases hdevice with rfl | ⟨_, _, rfl⟩ <;> simp
    rw [isEnding, dropScale_optional hscale hhead, dropDevice_optional hdevice (by simp)]
    exact List.contains_iff_mem.mpr hword

def Cut (cs front : List Char) : Prop :=
  '\n' ∉ front ∧ ∃ ending, Ending ending ∧ cs = front ++ ending

def Shortest (p : List Char → Prop) (front : List Char) : Prop :=
  p front ∧ ∀ other, p other → front.length ≤ other.length

theorem shortest_cons_iff {p q : List Char → Prop}
    (hp : ∀ front, p front ↔ ∃ inner, q inner ∧ c :: inner = front) :
    Shortest p front ↔ ∃ inner, Shortest q inner ∧ c :: inner = front := by
  simp only [Shortest, hp]
  constructor
  · rintro ⟨⟨inner, hinner, rfl⟩, hleast⟩
    refine ⟨inner, ⟨hinner, fun other hother => ?_⟩, rfl⟩
    exact Nat.le_of_succ_le_succ (hleast _ ⟨other, hother, rfl⟩)
  · rintro ⟨inner, ⟨hinner, hleast⟩, rfl⟩
    refine ⟨⟨inner, hinner, rfl⟩, ?_⟩
    rintro _ ⟨other, hother, rfl⟩
    exact Nat.succ_le_succ (hleast other hother)

theorem not_ending_nil : ¬ Ending [] := by
  intro h
  generalize hnil : ([] : List Char) = cs at h
  obtain ⟨-, -, word, -, rfl⟩ := h
  simp at hnil

theorem not_cut_nil : ¬ Cut [] front := by
  rintro ⟨-, ending, hending, hnil⟩
  obtain ⟨rfl, rfl⟩ := List.append_eq_nil_iff.mp hnil.symm
  exact not_ending_nil hending

theorem cut_nil_iff : Cut cs [] ↔ Ending cs := by
  simp [Cut]

theorem cut_cons_iff (hfront : front ≠ []) :
    Cut (c :: cs) front ↔ c ≠ '\n' ∧ ∃ inner, Cut cs inner ∧ c :: inner = front := by
  obtain ⟨d, inner, rfl⟩ := List.exists_cons_of_ne_nil hfront
  simp only [Cut, List.mem_cons, not_or, List.cons_append, List.cons.injEq]
  constructor
  · rintro ⟨⟨hd, hinner⟩, ending, hending, rfl, hcs⟩
    exact ⟨Ne.symm hd, inner, ⟨hinner, ending, hending, hcs⟩, rfl, rfl⟩
  · rintro ⟨hc, _, ⟨hinner, ending, hending, hcs⟩, rfl, rfl⟩
    exact ⟨⟨Ne.symm hc, hinner⟩, ending, hending, rfl, hcs⟩

theorem shortest_step_iff {p : List Char → Prop}
    (hp : ∀ front, p front ↔ c ≠ '\n' ∧ ∃ inner, Cut cs inner ∧ c :: inner = front)
    (h : ∀ inner, beforeEnding? cs = some inner ↔ Shortest (Cut cs) inner) :
    (if c = '\n' then none else (beforeEnding? cs).map (c :: ·)) = some front ↔
      Shortest p front := by
  by_cases hc : c = '\n'
  · rw [if_pos hc]
    exact ⟨nofun, fun hshort => absurd hc ((hp front).mp hshort.1).1⟩
  · rw [if_neg hc, Option.map_eq_some_iff, shortest_cons_iff fun front => by
      rw [hp, and_iff_right hc]]
    simp only [h]

theorem beforeEnding?_eq_some_iff : beforeEnding? cs = some front ↔ Shortest (Cut cs) front := by
  induction cs generalizing front with
  | nil => simp [beforeEnding?, Shortest, not_cut_nil]
  | cons c cs ih =>
    rw [beforeEnding?]
    by_cases hending : Ending (c :: cs)
    · rw [if_pos (isEnding_iff.mpr hending)]
      constructor
      · intro h
        obtain rfl := Option.some.inj h
        exact ⟨cut_nil_iff.mpr hending, fun _ _ => Nat.zero_le _⟩
      · rintro ⟨-, hleast⟩
        have hzero := Nat.le_zero.mp (hleast [] (cut_nil_iff.mpr hending))
        rw [List.eq_nil_of_length_eq_zero hzero]
    · rw [if_neg fun h => hending (isEnding_iff.mp h)]
      refine shortest_step_iff (fun front => ?_) fun _ => ih
      by_cases hfront : front = []
      · simp [hfront, cut_nil_iff, hending]
      · exact cut_cons_iff hfront

theorem baseChars?_eq_some_iff : baseChars? cs = some front ↔
    Shortest (fun front => front ≠ [] ∧ Cut cs front) front := by
  cases cs with
  | nil => simp [baseChars?, Shortest, not_cut_nil]
  | cons c cs =>
    refine shortest_step_iff (fun front => ?_) fun _ => beforeEnding?_eq_some_iff
    by_cases hfront : front = []
    · simp [hfront]
    · rw [and_iff_right hfront, cut_cons_iff hfront]

/-- The base is not empty, stands on one line, and an ending follows it in the name. -/
structure Named (name base : String) : Prop where
  ne_empty : base ≠ ""
  line : '\n' ∉ base.toList
  ending : ∃ ending : String, Ending ending.toList ∧ name = base ++ ending

theorem named_iff {name base : String} :
    Named name base ↔ base.toList ≠ [] ∧ Cut name.toList base.toList := by
  constructor
  · rintro ⟨hne, hline, ending, hending, rfl⟩
    exact ⟨fun he => hne (String.toList_injective he), hline, _, hending, String.toList_append⟩
  · rintro ⟨hne, hline, ending, hending, hname⟩
    refine ⟨fun he => hne (he ▸ rfl), hline, String.ofList ending, ?_, String.toList_injective ?_⟩
    · rwa [String.toList_ofList]
    · rw [hname, String.toList_append, String.toList_ofList]

theorem base?_eq_some_iff {name base : String} : base? name = some base ↔
    Named name base ∧ ∀ other, Named name other → base.length ≤ other.length := by
  have hchars : base? name = some base ↔ baseChars? name.toList = some base.toList := by
    rw [base?, Option.map_eq_some_iff]
    constructor
    · rintro ⟨front, hfront, rfl⟩
      rw [hfront, String.toList_ofList]
    · exact fun h => ⟨_, h, String.ofList_toList⟩
  rw [hchars, baseChars?_eq_some_iff, Shortest, ← named_iff, and_congr_right_iff]
  refine fun _ => ⟨fun h other hother => h _ (named_iff.mp hother), fun h other hother => ?_⟩
  have := h (String.ofList other) (named_iff.mpr (by rwa [String.toList_ofList]))
  rwa [← String.length_toList, ← String.length_toList, String.toList_ofList] at this

def EndsInSuffix (cs : List Char) : Prop :=
  ∃ front suffix, (IsScale suffix ∨ IsDevice suffix) ∧ cs = front ++ suffix

theorem EndsInSuffix.exists_mark (h : EndsInSuffix cs) : '@' ∈ cs ∨ '~' ∈ cs := by
  obtain ⟨front, suffix, ⟨_, _, -, -, -, rfl⟩ | ⟨_, -, rfl⟩, rfl⟩ := h <;> simp

theorem IsScale.exists_cons (h : IsScale scale) : ∃ rest, scale = '@' :: rest ∧ '@' ∉ rest := by
  obtain ⟨digits, x, -, hdigits, hx, rfl⟩ := h
  refine ⟨_, rfl, fun hm => ?_⟩
  rcases List.mem_append.mp hm with hm | hm
  · exact absurd (hdigits _ hm) (by decide)
  · rcases hx with rfl | rfl <;> exact absurd hm (by decide)

theorem suffix_of_append {scale' device' : List Char} (hscale : IsOptional IsScale scale)
    (hdevice : IsOptional IsDevice device) (hscale' : IsOptional IsScale scale')
    (hdevice' : IsOptional IsDevice device') (hne : front ≠ [])
    (h : front ++ (scale ++ device) = scale' ++ device') : scale = [] ∧ EndsInSuffix front := by
  obtain ⟨c, front, rfl⟩ := List.exists_cons_of_ne_nil hne
  -- Only the first character of a stem can be the mark of a scale.
  have hat : '@' ∉ front ++ (scale ++ device) := by
    have htail : front ++ (scale ++ device) = (scale' ++ device').tail := by rw [← h]; rfl
    have hdevice : '@' ∉ device' := hdevice'.not_mem (·.not_mem (by decide))
    rw [htail]
    rcases hscale' with rfl | hscale'
    · exact fun hm => hdevice (List.mem_of_mem_tail hm)
    · obtain ⟨rest, rfl, hrest⟩ := hscale'.exists_cons
      exact List.not_mem_append hrest hdevice
  obtain rfl : scale = [] := by
    rcases hscale with rfl | hscale
    · rfl
    · obtain ⟨rest, rfl, -⟩ := hscale.exists_cons
      exact absurd hat (by simp)
  refine ⟨rfl, ?_⟩
  rcases hdevice with rfl | ⟨word, hword, rfl⟩
  · rw [List.append_nil, List.append_nil] at h
    rw [h]
    rcases hdevice' with rfl | hdevice'
    · rcases hscale' with rfl | hscale'
      · cases h
      · exact ⟨[], scale', .inl hscale', by simp⟩
    · exact ⟨scale', device', .inr hdevice', rfl⟩
  · have htilde : '~' ∉ scale' := hscale'.not_mem (·.not_mem (by decide))
    rcases hdevice' with rfl | ⟨word', hword', rfl⟩
    · refine absurd ?_ htilde
      rw [← List.append_nil scale', ← h]
      simp
    · have hinside : '~' ∉ word' := not_mem_word (by decide) hword'
      obtain ⟨hfront, -⟩ := (List.append_cons_inj_of_notMem htilde hinside).mp h.symm
      rcases hscale' with rfl | hscale'
      · cases hfront
      · exact ⟨[], scale', .inl hscale', hfront.symm⟩

theorem Ending.of_append (h : Ending ending) (ha : Ending (front ++ ending)) (hne : front ≠ []) :
    '@' ∉ ending ∧ EndsInSuffix front := by
  obtain @⟨scale, device, _, hscale, hdevice, word, hword, rfl⟩ := h
  generalize hcs : front ++ (scale ++ (device ++ '.' :: word)) = cs at ha
  obtain @⟨scale', device', _, hscale', hdevice', word', hword', rfl⟩ := ha
  have hdot : '.' ∉ scale' ++ device' := List.not_mem_append
    (hscale'.not_mem (·.not_mem (by decide))) (hdevice'.not_mem (·.not_mem (by decide)))
  have hinside : '.' ∉ word' := not_mem_word (by decide) hword'
  have hdots :
      (scale' ++ device') ++ '.' :: word' = (front ++ (scale ++ device)) ++ '.' :: word := by
    simpa using hcs.symm
  obtain ⟨hstem, -, rfl⟩ := (List.append_cons_inj_of_notMem hdot hinside).mp hdots
  obtain ⟨rfl, hsuffix⟩ := suffix_of_append hscale hdevice hscale' hdevice' hne hstem.symm
  have hdevice : '@' ∉ device := hdevice.not_mem (·.not_mem (by decide))
  have hextension : IsExtension ('.' :: word') := ⟨word', hword, rfl⟩
  rw [List.nil_append]
  exact ⟨List.not_mem_append hdevice (hextension.not_mem (by decide)), hsuffix⟩

theorem base?_append {base ending : String} (hne : base ≠ "") (hline : '\n' ∉ base.toList)
    (h : Ending ending.toList) (hstop : '@' ∈ ending.toList ∨ ¬ EndsInSuffix base.toList) :
    base? (base ++ ending) = some base := by
  refine base?_eq_some_iff.mpr ⟨⟨hne, hline, ending, h, rfl⟩, ?_⟩
  rintro other ⟨-, -, longer, hlonger, hname⟩
  have hchars := congrArg String.toList hname
  rw [String.toList_append, String.toList_append] at hchars
  rcases List.append_eq_append_iff.mp hchars with ⟨between, hother, -⟩ | ⟨between, hbase, hrest⟩
  · rw [← String.length_toList, ← String.length_toList, hother]
    simp
  · by_cases hbetween : between = []
    · rw [← String.length_toList, ← String.length_toList, hbase, hbetween]
      simp
    · rw [hrest] at hlonger
      obtain ⟨hat, front, suffix, hsuffix, rfl⟩ := h.of_append hlonger hbetween
      have hends : EndsInSuffix base.toList :=
        ⟨other.toList ++ front, suffix, hsuffix, by rw [hbase, List.append_assoc]⟩
      exact (hstop.elim hat (· hends)).elim

end Accessors.ImageName

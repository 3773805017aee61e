import Accessors.Format.Argument

/-!
# Unification as a join

Two arguments unify if neither contradicts the other, and then to the argument that says what both
say. So a run of unifications over lists of arguments succeeds just if the lists agree pairwise, and
its result joins them: it says at each place what the lists say there together, and no more.

The join is the least of all bounds, so it depends only on which lists are joined: unification is
commutative, idempotent and associative, also where it fails.
-/

namespace Accessors.Format

theorem Specifier.unify_eq_some_iff {a b c : Specifier} :
    a.unify b = some c ↔ (a = b ∧ c = a) ∨ (a = .any ∧ c = b) ∨ (b = .any ∧ c = a) := by
  unfold unify
  by_cases hab : a = b
  · subst hab
    simp [eq_comm]
  · by_cases ha : a = .any
    · have hb : b ≠ .any := fun hb => hab (ha.trans hb.symm)
      simp [ha, hb, hb.symm, eq_comm]
    · by_cases hb : b = .any
      · simp [ha, hb, eq_comm]
      · simp [hab, ha, hb]

namespace Argument

theorem unifyNames_eq_some_iff {a b c : Option String} :
    unifyNames a b = some c ↔ (a = none ∧ c = b) ∨ (b = none ∧ c = a) ∨ (a = b ∧ c = a) := by
  cases a with
  | none => cases b <;> simp [unifyNames, eq_comm]
  | some m =>
    cases b with
    | none => simp [unifyNames, eq_comm]
    | some n =>
      by_cases hmn : m = n
      · simp [unifyNames, hmn, eq_comm]
      · simp [unifyNames, hmn]

/-- The second argument says at least what the first says. -/
structure Within (a b : Argument) : Prop where
  specifier : a.specifier ≠ .any → b.specifier = a.specifier
  name : ∀ name, a.name = some name → b.name = some name

structure Compatible (a b : Argument) : Prop where
  specifier : a.specifier ≠ .any → b.specifier ≠ .any → a.specifier = b.specifier
  name : ∀ m n, a.name = some m → b.name = some n → m = n

variable {a b c : Argument}

theorem Within.refl (a : Argument) : a.Within a := ⟨fun _ => rfl, fun _ h => h⟩

theorem Within.trans (hab : a.Within b) (hbc : b.Within c) : a.Within c where
  specifier := by
    intro ha
    have hb := hab.specifier ha
    rw [hbc.specifier (hb ▸ ha), hb]
  name := fun name hn => hbc.name name (hab.name name hn)

theorem Within.compatible (ha : a.Within c) (hb : b.Within c) : a.Compatible b where
  specifier := fun hna hnb => (ha.specifier hna).symm.trans (hb.specifier hnb)
  name := fun m n hm hn => Option.some.inj ((ha.name m hm).symm.trans (hb.name n hn))

theorem unify_eq_some_iff :
    a.unify b = some c ↔ a.specifier.unify b.specifier = some c.specifier ∧
      unifyNames a.name b.name = some c.name := by
  unfold unify
  cases hs : a.specifier.unify b.specifier with
  | none => simp
  | some specifier =>
    cases hn : unifyNames a.name b.name with
    | none => simp
    | some name =>
      constructor
      · rintro ⟨⟩
        exact ⟨rfl, rfl⟩
      · rintro ⟨hs, hn⟩
        cases c
        simp_all

theorem within_of_unify (h : a.unify b = some c) : a.Within c ∧ b.Within c := by
  obtain ⟨hs, hn⟩ := unify_eq_some_iff.mp h
  rw [Specifier.unify_eq_some_iff] at hs
  rw [unifyNames_eq_some_iff] at hn
  constructor <;> constructor
  · intro ha
    rcases hs with ⟨-, hc⟩ | ⟨he, -⟩ | ⟨-, hc⟩
    · exact hc
    · exact absurd he ha
    · exact hc
  · intro name he
    rcases hn with ⟨hnone, -⟩ | ⟨-, hc⟩ | ⟨-, hc⟩
    · rw [hnone] at he
      cases he
    · exact hc.trans he
    · exact hc.trans he
  · intro hb
    rcases hs with ⟨hab, hc⟩ | ⟨-, hc⟩ | ⟨he, -⟩
    · exact hc.trans hab
    · exact hc
    · exact absurd he hb
  · intro name he
    rcases hn with ⟨-, hc⟩ | ⟨hnone, -⟩ | ⟨hab, hc⟩
    · exact hc.trans he
    · rw [hnone] at he
      cases he
    · exact (hc.trans hab).trans he

theorem origin_of_unify (h : a.unify b = some c) :
    (c.specifier = a.specifier ∨ c.specifier = b.specifier) ∧
      (c.name = a.name ∨ c.name = b.name) := by
  obtain ⟨hs, hn⟩ := unify_eq_some_iff.mp h
  rw [Specifier.unify_eq_some_iff] at hs
  rw [unifyNames_eq_some_iff] at hn
  constructor
  · rcases hs with ⟨-, hc⟩ | ⟨-, hc⟩ | ⟨-, hc⟩
    · exact .inl hc
    · exact .inr hc
    · exact .inl hc
  · rcases hn with ⟨-, hc⟩ | ⟨-, hc⟩ | ⟨-, hc⟩
    · exact .inr hc
    · exact .inl hc
    · exact .inl hc

theorem isSome_unify_iff : (a.unify b).isSome = true ↔ a.Compatible b := by
  constructor
  · intro h
    obtain ⟨c, hc⟩ := Option.isSome_iff_exists.mp h
    obtain ⟨ha, hb⟩ := within_of_unify hc
    exact ha.compatible hb
  · intro h
    obtain ⟨specifier, hs⟩ : ∃ specifier, a.specifier.unify b.specifier = some specifier := by
      by_cases ha : a.specifier = .any
      · exact ⟨_, Specifier.unify_eq_some_iff.mpr (.inr (.inl ⟨ha, rfl⟩))⟩
      · by_cases hb : b.specifier = .any
        · exact ⟨_, Specifier.unify_eq_some_iff.mpr (.inr (.inr ⟨hb, rfl⟩))⟩
        · exact ⟨_, Specifier.unify_eq_some_iff.mpr (.inl ⟨h.specifier ha hb, rfl⟩)⟩
    obtain ⟨name, hn⟩ : ∃ name, unifyNames a.name b.name = some name := by
      cases ha : a.name with
      | none => exact ⟨b.name, unifyNames_eq_some_iff.mpr (.inl ⟨rfl, rfl⟩)⟩
      | some m =>
        cases hb : b.name with
        | none => exact ⟨some m, unifyNames_eq_some_iff.mpr (.inr (.inl ⟨rfl, rfl⟩))⟩
        | some n =>
          have hmn : m = n := h.name m n ha hb
          exact ⟨some m, unifyNames_eq_some_iff.mpr (.inr (.inr ⟨congrArg some hmn, rfl⟩))⟩
    have hc : a.unify b = some ⟨name, specifier⟩ := unify_eq_some_iff.mpr ⟨hs, hn⟩
    rw [hc]
    rfl

inductive Meets : Option Argument → Option Argument → Option Argument → Prop
  | neither : Meets none none none
  | left {a : Argument} : Meets (some a) none (some a)
  | right {b : Argument} : Meets none (some b) (some b)
  | both {a b c : Argument} (unify : a.unify b = some c) : Meets (some a) (some b) (some c)

def Agree (as bs : List Argument) : Prop :=
  ∀ (i : Nat) (a b : Argument), as[i]? = some a → bs[i]? = some b → a.Compatible b

namespace Meets

variable {x y z : Option Argument}

theorem within_left (h : Meets x y z) (hx : x = some a) : ∃ c, z = some c ∧ a.Within c := by
  subst hx
  cases h with
  | left => exact ⟨a, rfl, .refl a⟩
  | both unify => exact ⟨_, rfl, (within_of_unify unify).1⟩

theorem within_right (h : Meets x y z) (hy : y = some b) : ∃ c, z = some c ∧ b.Within c := by
  subst hy
  cases h with
  | right => exact ⟨b, rfl, .refl b⟩
  | both unify => exact ⟨_, rfl, (within_of_unify unify).2⟩

theorem origin {α : Type} {part : Argument → α}
    (hpart : ∀ {a b c : Argument}, a.unify b = some c → part c = part a ∨ part c = part b)
    (h : Meets x y z) (hz : z = some c) :
    (∃ a, x = some a ∧ part a = part c) ∨ ∃ b, y = some b ∧ part b = part c := by
  subst hz
  cases h with
  | left => exact .inl ⟨c, rfl, rfl⟩
  | right => exact .inr ⟨c, rfl, rfl⟩
  | both unify =>
    rcases hpart unify with hc | hc
    · exact .inl ⟨_, rfl, hc.symm⟩
    · exact .inr ⟨_, rfl, hc.symm⟩

end Meets

theorem unifyAll_cons {as bs : List Argument} :
    unifyAll (a :: as) (b :: bs) = (a.unify b).bind fun first =>
      (unifyAll as bs).map (first :: ·) := by
  rw [unifyAll]
  cases a.unify b <;> cases unifyAll as bs <;> rfl

theorem meets_of_unifyAll {as bs cs : List Argument} (h : unifyAll as bs = some cs) (i : Nat) :
    Meets as[i]? bs[i]? cs[i]? := by
  induction as generalizing bs cs i with
  | nil =>
    obtain rfl : bs = cs := by simpa [unifyAll] using h
    rw [List.getElem?_nil]
    cases bs[i]? with
    | none => exact .neither
    | some b => exact .right
  | cons a as ih =>
    cases bs with
    | nil =>
      obtain rfl : a :: as = cs := by simpa [unifyAll] using h
      rw [List.getElem?_nil]
      cases (a :: as)[i]? with
      | none => exact .neither
      | some a => exact .left
    | cons b bs =>
      rw [unifyAll_cons, Option.bind_eq_some_iff] at h
      obtain ⟨c, hc, h⟩ := h
      obtain ⟨rest, hrest, rfl⟩ := Option.map_eq_some_iff.mp h
      cases i with
      | zero => exact .both hc
      | succ i => exact ih hrest i

theorem isSome_unifyAll_iff {as bs : List Argument} :
    (unifyAll as bs).isSome = true ↔ Agree as bs := by
  induction as generalizing bs with
  | nil => simp [unifyAll, Agree]
  | cons a as ih =>
    cases bs with
    | nil => simp [unifyAll, Agree]
    | cons b bs =>
      have hcons : Agree (a :: as) (b :: bs) ↔ a.Compatible b ∧ Agree as bs := by
        constructor
        · exact fun h => ⟨h 0 a b rfl rfl, fun i => h (i + 1)⟩
        · rintro ⟨hfirst, hrest⟩ i x y hx hy
          cases i with
          | zero =>
            obtain rfl : a = x := by simpa using hx
            obtain rfl : b = y := by simpa using hy
            exact hfirst
          | succ i => exact hrest i x y hx hy
      rw [hcons, ← isSome_unify_iff, ← ih, unifyAll_cons]
      cases a.unify b <;> simp

/-- The list says what the lists in question say together: all of it, and nothing else. -/
structure Joins (lists : List Argument → Prop) (unified : List Argument) : Prop where
  within : ∀ list, lists list → ∀ {i : Nat} {a : Argument}, list[i]? = some a →
    ∃ c, unified[i]? = some c ∧ a.Within c
  specifier : ∀ {i : Nat} {c : Argument}, unified[i]? = some c →
    ∃ list a, lists list ∧ list[i]? = some a ∧ a.specifier = c.specifier
  name : ∀ {i : Nat} {c : Argument}, unified[i]? = some c →
    ∃ list a, lists list ∧ list[i]? = some a ∧ a.name = c.name

namespace Joins

variable {lists : List Argument → Prop} {unified list next : List Argument}

theorem nil : Joins (fun _ => False) [] := ⟨fun _ h => h.elim, by simp, by simp⟩

theorem agree_iff (h : Joins lists unified) :
    Agree unified list ↔ ∀ other, lists other → Agree other list := by
  constructor
  · intro hu other ho i a b ha hb
    obtain ⟨c, hc, hac⟩ := h.within other ho ha
    have hcb := hu i c b hc hb
    refine ⟨fun hna hnb => ?_, fun m n hm hn => hcb.name m n (hac.name m hm) hn⟩
    have hca := hac.specifier hna
    exact hca.symm.trans (hcb.specifier (hca ▸ hna) hnb)
  · intro hall i c b hc hb
    constructor
    · intro hnc hnb
      obtain ⟨other, a, ho, ha, hac⟩ := h.specifier hc
      exact hac ▸ (hall other ho i a b ha hb).specifier (hac ▸ hnc) hnb
    · intro m n hm hn
      obtain ⟨other, a, ho, ha, hac⟩ := h.name hc
      exact (hall other ho i a b ha hb).name m n (hac.trans hm) hn

theorem single (list : List Argument) : Joins (· = list) list where
  within := by
    rintro _ rfl i a ha
    exact ⟨a, ha, .refl a⟩
  specifier := fun hc => ⟨list, _, rfl, hc, rfl⟩
  name := fun hc => ⟨list, _, rfl, hc, rfl⟩

theorem origin_unifyAll {α : Type} {part : Argument → α} {others : List Argument → Prop}
    {other : List Argument}
    (hpart : ∀ {a b c : Argument}, a.unify b = some c → part c = part a ∨ part c = part b)
    (h : ∀ {i : Nat} {c : Argument}, unified[i]? = some c →
      ∃ list a, lists list ∧ list[i]? = some a ∧ part a = part c)
    (ho : ∀ {i : Nat} {c : Argument}, other[i]? = some c →
      ∃ list a, others list ∧ list[i]? = some a ∧ part a = part c)
    (hu : unifyAll unified other = some next) {i : Nat} {c : Argument} (hc : next[i]? = some c) :
    ∃ list a, (lists list ∨ others list) ∧ list[i]? = some a ∧ part a = part c := by
  rcases (meets_of_unifyAll hu i).origin hpart hc with ⟨a, ha, hac⟩ | ⟨b, hb, hbc⟩
  · obtain ⟨list, x, hl, hx, hxa⟩ := h ha
    exact ⟨list, x, .inl hl, hx, hxa.trans hac⟩
  · obtain ⟨list, x, hl, hx, hxb⟩ := ho hb
    exact ⟨list, x, .inr hl, hx, hxb.trans hbc⟩

theorem unify {others : List Argument → Prop} {other : List Argument} (h : Joins lists unified)
    (ho : Joins others other) (hu : unifyAll unified other = some next) :
    Joins (fun list => lists list ∨ others list) next where
  within := by
    rintro list (hl | hl) i a ha
    · obtain ⟨c, hc, hac⟩ := h.within list hl ha
      obtain ⟨d, hd, hcd⟩ := (meets_of_unifyAll hu i).within_left hc
      exact ⟨d, hd, hac.trans hcd⟩
    · obtain ⟨c, hc, hac⟩ := ho.within list hl ha
      obtain ⟨d, hd, hcd⟩ := (meets_of_unifyAll hu i).within_right hc
      exact ⟨d, hd, hac.trans hcd⟩
  specifier := origin_unifyAll (fun h => (origin_of_unify h).1) h.specifier ho.specifier hu
  name := origin_unifyAll (fun h => (origin_of_unify h).2) h.name ho.name hu

theorem unifyAll (h : Joins lists unified) (hu : unifyAll unified list = some next) :
    Joins (fun other => lists other ∨ other = list) next :=
  h.unify (single list) hu

theorem length_le (h : Joins lists unified) (hl : lists list) :
    list.length ≤ unified.length := by
  apply Nat.le_of_not_lt
  intro hlt
  obtain ⟨c, hc, -⟩ := h.within list hl (List.getElem?_eq_getElem hlt)
  rw [List.getElem?_eq_none (Nat.le_refl _)] at hc
  cases hc

theorem exists_length_eq (h : Joins lists unified) (hne : unified ≠ []) :
    ∃ list, lists list ∧ list.length = unified.length := by
  have hlast : unified.length - 1 < unified.length := by
    have := List.length_pos_iff.mpr hne
    omega
  obtain ⟨list, a, hl, ha, -⟩ := h.specifier (List.getElem?_eq_getElem hlast)
  have hlt := (List.getElem?_eq_some_iff.mp ha).1
  have hle := h.length_le hl
  exact ⟨list, hl, by omega⟩

end Joins

def Below (as bs : List Argument) : Prop :=
  ∀ (i : Nat) (a : Argument), as[i]? = some a → ∃ b, bs[i]? = some b ∧ a.Within b

theorem Within.antisymm (hab : a.Within b) (hba : b.Within a) : a = b := by
  have hs : a.specifier = b.specifier := by
    by_cases ha : a.specifier = .any
    · by_cases hb : b.specifier = .any
      · rw [ha, hb]
      · exact hba.specifier hb
    · exact (hab.specifier ha).symm
  have hn : a.name = b.name := by
    cases ha : a.name with
    | some name => exact (hab.name name ha).symm
    | none =>
      cases hb : b.name with
      | none => rfl
      | some name => rw [← ha, hba.name name hb]
  cases a
  cases b
  simp_all

section Bounds

variable {as bs cs unified other next bound : List Argument}
  {lists others : List Argument → Prop} {rest : List (List Argument)}

theorem Below.refl (as : List Argument) : Below as as := fun _ a ha => ⟨a, ha, .refl a⟩

theorem Below.agree (ha : Below as cs) (hb : Below bs cs) : Agree as bs := by
  intro i a b hai hbi
  obtain ⟨c, hc, hac⟩ := ha i a hai
  obtain ⟨d, hd, hbd⟩ := hb i b hbi
  obtain rfl : c = d := Option.some.inj (hc.symm.trans hd)
  exact hac.compatible hbd

theorem Below.antisymm (hab : Below as bs) (hba : Below bs as) : as = bs := by
  apply List.ext_getElem?
  intro i
  cases ha : as[i]? with
  | some a =>
    obtain ⟨b, hb, hw⟩ := hab i a ha
    obtain ⟨c, hc, hw'⟩ := hba i b hb
    obtain rfl : a = c := Option.some.inj (ha.symm.trans hc)
    rw [hb, hw.antisymm hw']
  | none =>
    cases hb : bs[i]? with
    | none => rfl
    | some b =>
      obtain ⟨c, hc, -⟩ := hba i b hb
      rw [ha] at hc
      cases hc

theorem Joins.below (h : Joins lists unified) (hl : lists as) : Below as unified :=
  fun _ _ => h.within as hl

theorem Joins.least (h : Joins lists unified) (hb : ∀ list, lists list → Below list bound) :
    Below unified bound := by
  intro i c hc
  obtain ⟨list, a, hl, ha, hs⟩ := h.specifier hc
  obtain ⟨d, hd, had⟩ := hb list hl i a ha
  refine ⟨d, hd, fun hany => ?_, fun name hname => ?_⟩
  · rw [had.specifier (hs ▸ hany), hs]
  · obtain ⟨list', a', hl', ha', hn⟩ := h.name hc
    obtain ⟨d', hd', had'⟩ := hb list' hl' i a' ha'
    obtain rfl : d = d' := Option.some.inj (hd.symm.trans hd')
    exact had'.name name (hn.trans hname)

theorem Joins.unique (h : Joins lists unified) (h' : Joins lists other) : unified = other :=
  (h.least fun _ hl => h'.below hl).antisymm (h'.least fun _ hl => h.below hl)

theorem Joins.congr (h : Joins lists unified) (he : ∀ list, lists list ↔ others list) :
    Joins others unified := by
  obtain rfl : lists = others := funext fun list => propext (he list)
  exact h

theorem Joins.unify_eq_some_iff (h : Joins lists unified) (ho : Joins others other) :
    Argument.unifyAll unified other = some next ↔
      Joins (fun list => lists list ∨ others list) next := by
  refine ⟨h.unify ho, fun hn => ?_⟩
  have hunified : Below unified next := h.least fun _ hl => hn.below (.inl hl)
  have hother : Below other next := ho.least fun _ hl => hn.below (.inr hl)
  obtain ⟨found, hfound⟩ := Option.isSome_iff_exists.mp
    (isSome_unifyAll_iff.mpr (hunified.agree hother))
  rw [hfound, (h.unify ho hfound).unique hn]

def unifyLists (lists : List (List Argument)) : Option (List Argument) := lists.foldlM unifyAll []

theorem foldlM_unifyAll_eq_some_iff (h : Joins lists unified) :
    rest.foldlM Argument.unifyAll unified = some next ↔
      Joins (fun list => lists list ∨ list ∈ rest) next := by
  induction rest generalizing lists unified with
  | nil =>
    have hall : Joins (fun list => lists list ∨ list ∈ []) unified := h.congr (by simp)
    constructor
    · intro hn
      exact Option.some.inj hn ▸ hall
    · intro hn
      exact congrArg some (hall.unique hn)
  | cons first rest ih =>
    have hassoc : ∀ list, ((lists list ∨ list = first) ∨ list ∈ rest) ↔
        lists list ∨ list ∈ first :: rest := fun list => by
      rw [or_assoc, List.mem_cons]
    rw [List.foldlM_cons, Option.bind_eq_bind, Option.bind_eq_some_iff]
    constructor
    · rintro ⟨middle, hmiddle, hrest⟩
      exact ((ih (h.unifyAll hmiddle)).mp hrest).congr hassoc
    · intro hn
      have hunified : Below unified next := h.least fun _ hl => hn.below (.inl hl)
      have hfirst : Below first next := hn.below (.inr (List.mem_cons_self ..))
      obtain ⟨middle, hmiddle⟩ := Option.isSome_iff_exists.mp
        (isSome_unifyAll_iff.mpr (hunified.agree hfirst))
      exact ⟨middle, hmiddle, (ih (h.unifyAll hmiddle)).mpr
        (hn.congr fun list => (hassoc list).symm)⟩

theorem isSome_foldlM_unifyAll_iff (h : Joins lists unified) :
    (rest.foldlM Argument.unifyAll unified).isSome = true ↔
      ∀ as bs, lists as ∨ as ∈ rest → lists bs ∨ bs ∈ rest → Agree as bs := by
  constructor
  · intro hs as bs ha hb
    obtain ⟨next, hnext⟩ := Option.isSome_iff_exists.mp hs
    have hjoins := (foldlM_unifyAll_eq_some_iff h).mp hnext
    exact (hjoins.below ha).agree (hjoins.below hb)
  · intro hall
    induction rest generalizing lists unified with
    | nil => rfl
    | cons first rest ih =>
      have hfirst : Agree unified first := h.agree_iff.mpr fun other ho =>
        hall other first (.inl ho) (.inr (List.mem_cons_self ..))
      obtain ⟨middle, hmiddle⟩ := Option.isSome_iff_exists.mp (isSome_unifyAll_iff.mpr hfirst)
      have hmem : ∀ list, (lists list ∨ list = first) ∨ list ∈ rest →
          lists list ∨ list ∈ first :: rest := fun list hl => by
        rwa [or_assoc, ← List.mem_cons] at hl
      rw [List.foldlM_cons, hmiddle]
      exact ih (h.unifyAll hmiddle) fun as bs ha hb => hall as bs (hmem as ha) (hmem bs hb)

theorem unifyLists_eq_some_iff :
    unifyLists rest = some next ↔ Joins (· ∈ rest) next := by
  rw [unifyLists, foldlM_unifyAll_eq_some_iff Joins.nil]
  simp

theorem unifyAll_eq_some_iff :
    Argument.unifyAll as bs = some next ↔ Joins (fun list => list = as ∨ list = bs) next :=
  (Joins.single as).unify_eq_some_iff (Joins.single bs)

theorem unifyAll_comm (xs ys : List Argument) :
    Argument.unifyAll xs ys = Argument.unifyAll ys xs := by
  apply Option.ext
  intro next
  rw [unifyAll_eq_some_iff, unifyAll_eq_some_iff]
  simp only [or_comm]

theorem unifyAll_assoc (xs ys zs : List Argument) :
    ((Argument.unifyAll xs ys).bind fun both => Argument.unifyAll both zs) =
      (Argument.unifyAll ys zs).bind fun both => Argument.unifyAll xs both := by
  have hleft : ((Argument.unifyAll xs ys).bind fun both => Argument.unifyAll both zs) =
      [ys, zs].foldlM Argument.unifyAll xs := by
    simp
  have hright : ((Argument.unifyAll ys zs).bind fun both => Argument.unifyAll xs both) =
      [zs, xs].foldlM Argument.unifyAll ys := by
    simp [unifyAll_comm xs]
  -- Either side is the join of the three lists if there is one, and nothing if there is none.
  have hsame : ∀ list, (list = xs ∨ list ∈ [ys, zs]) ↔ (list = ys ∨ list ∈ [zs, xs]) := by grind
  rw [hleft, hright]
  apply Option.ext
  intro next
  rw [foldlM_unifyAll_eq_some_iff (Joins.single xs), foldlM_unifyAll_eq_some_iff (Joins.single ys)]
  simp only [hsame]

/-- Unification with any of the lists adds nothing to the bound, and the bound adds nothing to any
other list of which this is true. -/
structure LeastBound (lists : List Argument → Prop) (bound : List Argument) : Prop where
  upper : ∀ list, lists list → Argument.unifyAll list bound = some bound
  least : ∀ other, (∀ list, lists list → Argument.unifyAll list other = some other) →
    Argument.unifyAll bound other = some other

theorem unifyAll_eq_right_iff : Argument.unifyAll as bs = some bs ↔ Below as bs := by
  constructor
  · exact fun h => (unifyAll_eq_some_iff.mp h).below (.inl rfl)
  · intro h
    obtain ⟨both, hboth⟩ := Option.isSome_iff_exists.mp
      (isSome_unifyAll_iff.mpr (h.agree (.refl bs)))
    have hjoins := unifyAll_eq_some_iff.mp hboth
    have hle : Below both bs := hjoins.least fun list hl => by
      rcases hl with rfl | rfl
      · exact h
      · exact .refl list
    rw [hboth, hle.antisymm (hjoins.below (.inr rfl))]

theorem exists_joins (h : ∀ list ∈ rest, Below list bound) :
    ∃ joined, Joins (· ∈ rest) joined := by
  have hagree : ∀ as bs, False ∨ as ∈ rest → False ∨ bs ∈ rest → Agree as bs := fun as bs ha hb =>
    (h as (ha.resolve_left id)).agree (h bs (hb.resolve_left id))
  obtain ⟨joined, hjoined⟩ := Option.isSome_iff_exists.mp
    ((isSome_foldlM_unifyAll_iff Joins.nil).mpr hagree)
  exact ⟨joined, unifyLists_eq_some_iff.mp hjoined⟩

theorem Joins.leastBound (h : Joins lists bound) : LeastBound lists bound where
  upper := fun _ hl => unifyAll_eq_right_iff.mpr (h.below hl)
  least := fun _ ho => unifyAll_eq_right_iff.mpr
    (h.least fun list hl => unifyAll_eq_right_iff.mp (ho list hl))

theorem leastBound_iff_joins : LeastBound (· ∈ rest) bound ↔ Joins (· ∈ rest) bound := by
  refine ⟨fun h => ?_, Joins.leastBound⟩
  have hupper : ∀ list ∈ rest, Below list bound := fun list hl =>
    unifyAll_eq_right_iff.mp (h.upper list hl)
  obtain ⟨joined, hjoined⟩ := exists_joins hupper
  have hle : Below bound joined :=
    unifyAll_eq_right_iff.mp (h.least joined hjoined.leastBound.upper)
  exact hle.antisymm (hjoined.least hupper) ▸ hjoined

/-- Unification of lists has a neutral list, is idempotent and commutative, and associates, also
where it fails. So what many lists unify to depends only on which lists these are, and they unify
just if they agree pairwise. -/
theorem unifyAll_laws :
    (∀ xs ys : List Argument, Argument.unifyAll xs ys = Argument.unifyAll ys xs) ∧
      (∀ xs : List Argument, Argument.unifyAll xs xs = some xs) ∧
      (∀ xs : List Argument, Argument.unifyAll [] xs = some xs) ∧
      (∀ xs ys zs : List Argument,
        ((Argument.unifyAll xs ys).bind fun both => Argument.unifyAll both zs) =
          (Argument.unifyAll ys zs).bind fun both => Argument.unifyAll xs both) ∧
      (∀ many others : List (List Argument), (∀ list, list ∈ many ↔ list ∈ others) →
        unifyLists many = unifyLists others) ∧
      ∀ many : List (List Argument), (unifyLists many).isSome = true ↔
        ∀ as ∈ many, ∀ bs ∈ many, Agree as bs := by
  refine ⟨unifyAll_comm, fun xs => ?_, fun xs => ?_, unifyAll_assoc, fun many others h => ?_,
    fun many => ?_⟩
  · rw [unifyAll_eq_some_iff]
    exact (Joins.single xs).congr (by simp)
  · rw [Argument.unifyAll]
  · apply Option.ext
    intro next
    rw [unifyLists_eq_some_iff, unifyLists_eq_some_iff]
    simp only [h]
  · rw [unifyLists, isSome_foldlM_unifyAll_iff Joins.nil]
    simp only [false_or]
    exact ⟨fun h as ha bs hb => h as bs ha hb, fun h as bs ha hb => h as ha bs hb⟩

def sampleLists : List (List Argument) :=
  [[⟨some "n", .int⟩], [.unresolved, ⟨none, .object⟩], []]

def repeatedLists : List (List Argument) :=
  [[], [.unresolved, ⟨none, .object⟩], [⟨some "n", .int⟩], [.unresolved, ⟨none, .object⟩]]

theorem unifyAll_laws_repeated :
    (∀ list, list ∈ sampleLists ↔ list ∈ repeatedLists) ∧
      unifyLists sampleLists = unifyLists repeatedLists ∧
      unifyLists sampleLists = some [⟨some "n", .int⟩, ⟨none, .object⟩] := by
  have hsame : ∀ list, list ∈ sampleLists ↔ list ∈ repeatedLists := by
    simp only [sampleLists, repeatedLists, List.mem_cons, List.not_mem_nil]
    grind
  exact ⟨hsame, unifyAll_laws.2.2.2.2.1 _ _ hsame, by decide⟩

end Bounds

end Argument

end Accessors.Format

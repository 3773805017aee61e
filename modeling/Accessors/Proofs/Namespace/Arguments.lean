import Accessors.Namespace.Strings
import Accessors.Proofs.Format.Unification

/-!
# Arguments of a key

The arguments that are found for a key join those that the texts of all locales take. They are found
just if every text can be read, the texts agree, and each argument is used in some text; otherwise
one notice says what is wrong with the key. Each argument becomes one parameter of its type.
-/

namespace Accessors

/-- The notice says that the arguments of the key are not in order. -/
def Notice.rejects (key table : String) : Notice → Prop
  | .formatInvalid k t _ _ => k = key ∧ t = table
  | .formatMismatch k t _ _ => k = key ∧ t = table
  | .formatIncomplete k t _ => k = key ∧ t = table
  | _ => False

instance (key table : String) : DecidablePred (Notice.rejects key table) := fun notice => by
  cases notice <;> unfold Notice.rejects <;> infer_instance

theorem Notice.rejects_unique {key table key' table' : String} {notice : Notice}
    (h : notice.rejects key table) (h' : notice.rejects key' table') :
    key' = key ∧ table' = table := by
  cases notice with
  | formatInvalid | formatMismatch | formatIncomplete =>
    exact ⟨h'.1.symm.trans h.1, h'.2.symm.trans h.2⟩
  | _ => exact h.elim

namespace Namespace

open Format (Argument Specifier)
open Format.Argument (Agree Joins)
open Record (StringEntry)

def Takes (entry : StringEntry) (arguments : List Argument) : Prop :=
  Format.arguments entry.value entry.pluralRules = .ok arguments

/-- Every text can be read, the texts agree, and each argument is used in some text. -/
structure Sound (entries : StringEntry → Prop) : Prop where
  parses : ∀ entry, entries entry → ∃ arguments, Takes entry arguments
  agrees : ∀ entry other as bs, entries entry → entries other → Takes entry as → Takes other bs →
    Agree as bs
  complete : ∀ entry arguments i, entries entry → Takes entry arguments → i < arguments.length →
    ∃ other others argument, entries other ∧ Takes other others ∧ others[i]? = some argument ∧
      argument.specifier ≠ .any

variable {key table : String} {agreeing : List Locale} {unified arguments : List Argument}
  {entries : List (Locale × StringEntry)} {lists : List Argument → Prop} {notice : Notice}

def Taken (lists : List Argument → Prop) (entries : List (Locale × StringEntry))
    (list : List Argument) : Prop :=
  lists list ∨ ∃ pair ∈ entries, Takes pair.2 list

theorem taken_nil : Taken lists [] = lists := by
  funext list
  simp [Taken]

theorem taken_cons (pair : Locale × StringEntry) {first : List Argument}
    (hfirst : Takes pair.2 first) :
    Taken (fun list => lists list ∨ list = first) entries = Taken lists (pair :: entries) := by
  funext list
  refine propext ⟨?_, ?_⟩
  · rintro ((hl | rfl) | ⟨other, ho, htakes⟩)
    · exact .inl hl
    · exact .inr ⟨pair, List.mem_cons_self .., hfirst⟩
    · exact .inr ⟨other, List.mem_cons_of_mem _ ho, htakes⟩
  · rintro (hl | ⟨other, ho, htakes⟩)
    · exact .inl (.inl hl)
    · rcases List.mem_cons.mp ho with rfl | ho
      · exact .inl (.inr (Except.ok.inj (htakes.symm.trans hfirst)))
      · exact .inr ⟨other, ho, htakes⟩

theorem unifyLocales_ok (h : Joins lists unified)
    (hu : unifyLocales key table agreeing unified entries = .ok arguments) :
    (∀ pair ∈ entries, ∃ list, Takes pair.2 list) ∧ Joins (Taken lists entries) arguments := by
  -- What is unified so far joins the lists before, whatever these are.
  induction entries generalizing lists unified agreeing with
  | nil =>
    obtain rfl : unified = arguments := Except.ok.inj hu
    refine ⟨nofun, ?_⟩
    rwa [taken_nil]
  | cons pair rest ih =>
    obtain ⟨locale, entry⟩ := pair
    rw [unifyLocales] at hu
    cases hparse : Format.arguments entry.value entry.pluralRules with
    | error error =>
      rw [hparse] at hu
      cases hu
    | ok list =>
      cases hnext : Argument.unifyAll unified list with
      | none =>
        rw [hparse] at hu
        simp [hnext] at hu
      | some next =>
        rw [hparse] at hu
        simp only [hnext] at hu
        obtain ⟨hrest, hjoins⟩ := ih (h.unifyAll hnext) hu
        refine ⟨fun pair hp => ?_, taken_cons (locale, entry) hparse ▸ hjoins⟩
        rcases List.mem_cons.mp hp with rfl | hp
        · exact ⟨list, hparse⟩
        · exact hrest pair hp

theorem unifyLocales_error (h : Joins lists unified)
    (hu : unifyLocales key table agreeing unified entries = .error notice) :
    notice.rejects key table ∧
      ((∀ pair ∈ entries, ∃ list, Takes pair.2 list) →
        ∃ as bs, Taken lists entries as ∧ Taken lists entries bs ∧ ¬ Agree as bs) := by
  induction entries generalizing lists unified agreeing with
  | nil => cases hu
  | cons pair rest ih =>
    obtain ⟨locale, entry⟩ := pair
    rw [unifyLocales] at hu
    cases hparse : Format.arguments entry.value entry.pluralRules with
    | error error =>
      rw [hparse] at hu
      obtain rfl := Except.error.inj hu
      refine ⟨⟨rfl, rfl⟩, fun hall => ?_⟩
      obtain ⟨list, htakes⟩ := hall _ (List.mem_cons_self ..)
      cases hparse.symm.trans htakes
    | ok list =>
      cases hnext : Argument.unifyAll unified list with
      | none =>
        rw [hparse] at hu
        simp only [hnext] at hu
        obtain rfl := Except.error.inj hu
        refine ⟨⟨rfl, rfl⟩, fun _ => ?_⟩
        have hnot : ¬ Agree unified list := by
          rw [← Format.Argument.isSome_unifyAll_iff, hnext]
          simp
        rw [h.agree_iff] at hnot
        simp only [Classical.not_forall] at hnot
        obtain ⟨other, ho, hdisagree⟩ := hnot
        exact ⟨other, list, .inl ho, .inr ⟨_, List.mem_cons_self .., hparse⟩, hdisagree⟩
      | some next =>
        rw [hparse] at hu
        simp only [hnext] at hu
        obtain ⟨hrejects, hwhy⟩ := ih (h.unifyAll hnext) hu
        rw [taken_cons (locale, entry) hparse] at hwhy
        exact ⟨hrejects, fun hall => hwhy fun pair hp => hall pair (List.mem_cons_of_mem _ hp)⟩

def Among (entries : List (Locale × StringEntry)) (entry : StringEntry) : Prop :=
  ∃ locale, (locale, entry) ∈ entries

theorem taken_iff {list : List Argument} :
    Taken (fun _ => False) entries list ↔ ∃ entry, Among entries entry ∧ Takes entry list := by
  constructor
  · rintro (h | ⟨pair, hp, htakes⟩)
    · exact h.elim
    · exact ⟨pair.2, ⟨pair.1, hp⟩, htakes⟩
  · rintro ⟨entry, ⟨locale, hp⟩, htakes⟩
    exact .inr ⟨(locale, entry), hp, htakes⟩

theorem argumentsOf_of_ok {unified : List Argument}
    (hu : unifyLocales key table [] [] entries = .ok unified) :
    argumentsOf key table entries =
      ((unified.findIdx? Argument.isUnresolved).elim (.ok unified)
        fun index => .error (.formatIncomplete key table (index + 1))) := by
  simp only [argumentsOf, hu, bind, Except.bind]
  cases unified.findIdx? Argument.isUnresolved <;> rfl

theorem argumentsOf_cases (key table : String) (entries : List (Locale × StringEntry)) :
    (∃ notice, unifyLocales key table [] [] entries = .error notice ∧
        argumentsOf key table entries = .error notice) ∨
      ∃ unified, unifyLocales key table [] [] entries = .ok unified ∧
        ((∃ argument ∈ unified, argument.specifier = .any) ∧
            (∃ index, argumentsOf key table entries = .error (.formatIncomplete key table index)) ∨
          (∀ argument ∈ unified, argument.specifier ≠ .any) ∧
            argumentsOf key table entries = .ok unified) := by
  cases hu : unifyLocales key table [] [] entries with
  | error notice =>
    refine .inl ⟨notice, rfl, ?_⟩
    simp only [argumentsOf, hu, bind, Except.bind]
  | ok unified =>
    refine .inr ⟨unified, rfl, ?_⟩
    rw [argumentsOf_of_ok hu]
    cases hfind : unified.findIdx? Argument.isUnresolved with
    | none =>
      refine .inr ⟨fun argument ha he => ?_, rfl⟩
      have hused := List.findIdx?_eq_none_iff.mp hfind argument ha
      simp [Argument.isUnresolved, he] at hused
    | some index =>
      obtain ⟨hlt, hindex, -⟩ := List.findIdx?_eq_some_iff_getElem.mp hfind
      refine .inl ⟨⟨unified[index], List.getElem_mem hlt, ?_⟩, index + 1, rfl⟩
      simpa [Argument.isUnresolved] using hindex

theorem argumentsOf_ok (h : argumentsOf key table entries = .ok arguments) :
    Sound (Among entries) ∧
      Joins (fun list => ∃ entry, Among entries entry ∧ Takes entry list) arguments ∧
      ∀ argument ∈ arguments, argument.specifier ≠ .any := by
  rcases argumentsOf_cases key table entries with
    ⟨notice, -, he⟩ | ⟨unified, hu, ⟨-, index, he⟩ | ⟨hused, he⟩⟩
  · cases he.symm.trans h
  · cases he.symm.trans h
  · obtain rfl : unified = arguments := Except.ok.inj (he.symm.trans h)
    obtain ⟨hparses, hjoins⟩ := unifyLocales_ok .nil hu
    have htaken : Taken (fun _ => False) entries =
        fun list => ∃ entry, Among entries entry ∧ Takes entry list := by
      funext list
      exact propext taken_iff
    rw [htaken] at hjoins
    refine ⟨⟨fun entry ⟨locale, hp⟩ => hparses _ hp, ?_, ?_⟩, hjoins, hused⟩
    · intro entry other as bs he ho ha hb
      exact (hjoins.below ⟨entry, he, ha⟩).agree (hjoins.below ⟨other, ho, hb⟩)
    · intro entry list i he ht hi
      obtain ⟨c, hc, -⟩ := hjoins.within list ⟨entry, he, ht⟩ (List.getElem?_eq_getElem hi)
      obtain ⟨others, argument, ⟨other, ho, hto⟩, ha, hs⟩ := hjoins.specifier hc
      exact ⟨other, others, argument, ho, hto, ha, hs ▸ hused c (List.mem_of_getElem? hc)⟩

theorem argumentsOf_error (h : argumentsOf key table entries = .error notice) :
    notice.rejects key table ∧ ¬ Sound (Among entries) := by
  rcases argumentsOf_cases key table entries with
    ⟨other, hu, he⟩ | ⟨unified, hu, ⟨⟨argument, ha, hany⟩, index, he⟩ | ⟨-, he⟩⟩
  · obtain rfl : other = notice := Except.error.inj (he.symm.trans h)
    obtain ⟨hrejects, hwhy⟩ := unifyLocales_error .nil hu
    refine ⟨hrejects, fun hsound => ?_⟩
    obtain ⟨as, bs, ha, hb, hnot⟩ := hwhy fun pair hp => hsound.parses pair.2 ⟨pair.1, hp⟩
    obtain ⟨entry, he, ha⟩ := taken_iff.mp ha
    obtain ⟨other, ho, hb⟩ := taken_iff.mp hb
    exact hnot (hsound.agrees entry other as bs he ho ha hb)
  · obtain rfl := Except.error.inj (he.symm.trans h)
    refine ⟨⟨rfl, rfl⟩, fun hsound => ?_⟩
    obtain ⟨-, hjoins⟩ := unifyLocales_ok .nil hu
    obtain ⟨i, hi, rfl⟩ := List.getElem_of_mem ha
    obtain ⟨list, a, hl, hla, -⟩ := hjoins.specifier (List.getElem?_eq_getElem hi)
    obtain ⟨entry, he, htakes⟩ := taken_iff.mp hl
    obtain ⟨other, others, b, ho, hto, hb, hne⟩ :=
      hsound.complete entry list i he htakes (List.getElem?_eq_some_iff.mp hla).1
    obtain ⟨c, hc, hbc⟩ := hjoins.within others (taken_iff.mpr ⟨other, ho, hto⟩) hb
    obtain rfl := Option.some.inj ((List.getElem?_eq_getElem hi).symm.trans hc)
    exact hne ((hbc.specifier hne).symm.trans hany)
  · cases he.symm.trans h

theorem length_parametersFrom (used : List String) (index : Nat) (arguments : List Argument) :
    (parametersFrom used index arguments).length = arguments.length := by
  induction arguments generalizing used index with
  | nil => rfl
  | cons argument rest ih => simp [parametersFrom, ih]

theorem length_parameters (arguments : List Argument) :
    (parameters arguments).length = arguments.length := length_parametersFrom [] 0 arguments

theorem typeNames_parametersFrom (used : List String) (index : Nat) (arguments : List Argument) :
    (parametersFrom used index arguments).map (·.typeName) =
      arguments.map (·.specifier.typeName) := by
  induction arguments generalizing used index with
  | nil => rfl
  | cons argument rest ih => simp [parametersFrom, ih, Accessors.Symbol.Parameter.unlabeled]

theorem typeName_parameters {i : Nat} {argument : Argument} (h : arguments[i]? = some argument) :
    ∃ parameter, (parameters arguments)[i]? = some parameter ∧
      parameter.typeName = argument.specifier.typeName := by
  have hmap := congrArg (·[i]?) (typeNames_parametersFrom [] 0 arguments)
  simp only [List.getElem?_map, h, Option.map_some] at hmap
  exact Option.map_eq_some_iff.mp hmap

end Namespace

end Accessors

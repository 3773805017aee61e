/-!
# Lists gone through with steps that may fail

A traversal gives all results, in order, or none; a run over the items gives the last of its states,
or the error of a step.
-/

namespace Accessors

section Except

variable {ε α β : Type}

theorem bind_eq_ok_iff {x : Except ε α} {f : α → Except ε β} {b : β} :
    x >>= f = .ok b ↔ ∃ a, x = .ok a ∧ f a = .ok b := by
  cases x with
  | error e => exact ⟨nofun, fun ⟨_, h, _⟩ => nomatch h⟩
  | ok a => exact ⟨fun h => ⟨a, rfl, h⟩, fun ⟨_, ha, h⟩ => Except.ok.inj ha ▸ h⟩

theorem bind_eq_error_iff {x : Except ε α} {f : α → Except ε β} {e : ε} :
    x >>= f = .error e ↔ x = .error e ∨ ∃ a, x = .ok a ∧ f a = .error e := by
  cases x with
  | error e' => exact ⟨fun h => .inl (Except.error.inj h ▸ rfl), fun h => h.elim
      (fun h => Except.error.inj h ▸ rfl) fun ⟨_, h, _⟩ => nomatch h⟩
  | ok a => exact ⟨fun h => .inr ⟨a, rfl, h⟩, fun h => h.elim nofun
      fun ⟨_, ha, h⟩ => Except.ok.inj ha ▸ h⟩

theorem map_eq_ok_iff {x : Except ε α} {f : α → β} {b : β} :
    x.map f = .ok b ↔ ∃ a, x = .ok a ∧ f a = b := by
  cases x with
  | error e => exact ⟨nofun, fun ⟨_, h, _⟩ => nomatch h⟩
  | ok a => exact ⟨fun h => ⟨a, rfl, Except.ok.inj h⟩, fun ⟨_, ha, h⟩ => by
      rw [← h, ← Except.ok.inj ha]
      rfl⟩

theorem map_eq_error_iff {x : Except ε α} {f : α → β} {e : ε} :
    x.map f = .error e ↔ x = .error e := by
  cases x with
  | error e' => exact ⟨fun h => Except.error.inj h ▸ rfl, fun h => Except.error.inj h ▸ rfl⟩
  | ok a => exact ⟨nofun, nofun⟩

theorem exists_ok_of_foldlM {f : β → α → Except ε β} {items : List α} {b result : β}
    (h : items.foldlM f b = .ok result) {item : α} (hi : item ∈ items) :
    ∃ before after, f before item = .ok after := by
  induction items generalizing b with
  | nil => cases hi
  | cons first rest ih =>
    obtain ⟨next, hnext, hrest⟩ := bind_eq_ok_iff.mp h
    rcases List.mem_cons.mp hi with rfl | hi
    · exact ⟨b, next, hnext⟩
    · exact ih hrest hi

theorem foldlM_preserves (holds : β → Prop) {f : β → α → Except ε β} {items : List α}
    {b result : β} (hb : holds b)
    (hstep : ∀ item ∈ items, ∀ before after, f before item = .ok after → holds before → holds after)
    (h : items.foldlM f b = .ok result) : holds result := by
  induction items generalizing b with
  | nil => exact Except.ok.inj h ▸ hb
  | cons first rest ih =>
    obtain ⟨next, hnext, hrest⟩ := bind_eq_ok_iff.mp h
    exact ih (hstep first (List.mem_cons_self ..) b next hnext hb)
      (fun item hi => hstep item (List.mem_cons_of_mem _ hi)) hrest

theorem foldlM_filter_of_neutral {f : β → α → Except ε β} {keep : α → Bool} {items : List α}
    (h : ∀ item ∈ items, keep item = false → ∀ b, f b item = .ok b) (b : β) :
    (items.filter keep).foldlM f b = items.foldlM f b := by
  induction items generalizing b with
  | nil => rfl
  | cons first rest ih =>
    have hrest := ih fun item hi => h item (List.mem_cons_of_mem _ hi)
    by_cases hkeep : keep first = true
    · rw [List.filter_cons_of_pos hkeep, List.foldlM_cons, List.foldlM_cons]
      exact congrArg (f b first >>= ·) (funext hrest)
    · rw [List.filter_cons_of_neg hkeep, List.foldlM_cons, hrest,
        h first (List.mem_cons_self ..) (Bool.eq_false_iff.mpr hkeep)]
      rfl

theorem exists_error_of_foldlM {f : β → α → Except ε β} {items : List α} {b : β} {e : ε}
    (h : items.foldlM f b = .error e) : ∃ item ∈ items, ∃ before, f before item = .error e := by
  induction items generalizing b with
  | nil => cases h
  | cons first rest ih =>
    rcases bind_eq_error_iff.mp h with hfirst | ⟨next, -, hrest⟩
    · exact ⟨first, List.mem_cons_self .., b, hfirst⟩
    · obtain ⟨item, hi, hf⟩ := ih hrest
      exact ⟨item, List.mem_cons_of_mem _ hi, hf⟩

end Except

section Option

variable {α β : Type} {f : α → Option β} {items others : List α} {results : List β}

theorem map_eq_of_mapM (h : items.mapM f = some results) :
    items.map f = results.map some := by
  induction items generalizing results with
  | nil =>
    obtain rfl : results = [] := by simpa using h.symm
    rfl
  | cons item rest ih =>
    rw [List.mapM_cons] at h
    obtain ⟨first, hfirst, h⟩ := Option.bind_eq_some_iff.mp h
    obtain ⟨others, hothers, h⟩ := Option.bind_eq_some_iff.mp h
    obtain rfl := Option.some.inj h
    rw [List.map_cons, List.map_cons, hfirst, ih hothers]

theorem mem_iff_of_mapM (h : items.mapM f = some results) {b : β} :
    b ∈ results ↔ ∃ item ∈ items, f item = some b := by
  rw [← List.mem_map, map_eq_of_mapM h]
  simp

theorem mapM_cons_eq_some_iff {item : α} {b : β} :
    (item :: items).mapM f = some (b :: results) ↔
      f item = some b ∧ items.mapM f = some results := by
  rw [List.mapM_cons]
  constructor
  · intro h
    obtain ⟨first, hfirst, h⟩ := Option.bind_eq_some_iff.mp h
    obtain ⟨rest, hrest, h⟩ := Option.bind_eq_some_iff.mp h
    obtain ⟨rfl, rfl⟩ := List.cons.inj (Option.some.inj h)
    exact ⟨hfirst, hrest⟩
  · rintro ⟨hfirst, hrest⟩
    rw [hfirst, hrest]
    rfl

theorem exists_mapM (h : ∀ item ∈ items, ∃ b, f item = some b) :
    ∃ results, items.mapM f = some results := by
  induction items with
  | nil => exact ⟨[], rfl⟩
  | cons item rest ih =>
    obtain ⟨first, hfirst⟩ := h item (List.mem_cons_self ..)
    obtain ⟨results, hresults⟩ := ih fun other ho => h other (List.mem_cons_of_mem _ ho)
    exact ⟨first :: results, mapM_cons_eq_some_iff.mpr ⟨hfirst, hresults⟩⟩

theorem mapM_congr (hsame : ∀ item, item ∈ items ↔ item ∈ others)
    (h : items.mapM f = some results) :
    ∃ found, others.mapM f = some found ∧ ∀ b, b ∈ results ↔ b ∈ found := by
  have hall : ∀ item ∈ others, ∃ b, f item = some b := by
    intro item hi
    have hm := List.mem_map_of_mem (f := f) ((hsame item).mpr hi)
    rw [map_eq_of_mapM h] at hm
    obtain ⟨b, -, hb⟩ := List.mem_map.mp hm
    exact ⟨b, hb.symm⟩
  obtain ⟨found, hfound⟩ := exists_mapM hall
  refine ⟨found, hfound, fun b => ?_⟩
  rw [mem_iff_of_mapM h, mem_iff_of_mapM hfound]
  exact exists_congr fun item => and_congr_left fun _ => hsame item

theorem exists_cons_mapM {item : α} {b : β} (hsame : ∀ a, a ∈ items ↔ a ∈ item :: others)
    (h : items.mapM f = some (b :: results)) :
    ∃ first rest, (item :: others).mapM f = some (first :: rest) := by
  obtain ⟨found, hfound, hmem⟩ := mapM_congr hsame h
  cases found with
  | nil => cases (hmem b).mp (List.mem_cons_self ..)
  | cons first rest => exact ⟨first, rest, hfound⟩

theorem mapM_map_eq_some {decode : β → Option α} {encode : α → β}
    (h : ∀ item ∈ items, decode (encode item) = some item) :
    (items.map encode).mapM decode = some items := by
  induction items with
  | nil => rfl
  | cons item rest ih =>
    rw [List.map_cons, List.mapM_cons, h item (List.mem_cons_self ..),
      ih fun i hi => h i (List.mem_cons_of_mem _ hi)]
    rfl

end Option

end Accessors

/-!
# Update or insert

In a list of items with keys, `upsert` changes the first item with a key, or puts a new item behind
all if there is none. Keys that are distinct stay distinct, and only the item at the key is another.
-/

namespace Accessors

variable {α κ : Type} [DecidableEq κ]

def upsert (key : α → κ) (k : κ) (update : α → α) (new : α) : List α → List α
  | [] => [new]
  | item :: rest =>
    if key item = k then update item :: rest else item :: upsert key k update new rest

variable {key : α → κ} {k : κ} {update : α → α} {new : α} {items : List α}

theorem keys_upsert (hupdate : ∀ item, key (update item) = key item) (hnew : key new = k) :
    (upsert key k update new items).map key =
      if k ∈ items.map key then items.map key else items.map key ++ [k] := by
  induction items with
  | nil => simp [upsert, hnew]
  | cons item rest ih =>
    by_cases h : key item = k
    · simp [upsert, h, hupdate]
    · have hne : ¬ k = key item := fun e => h e.symm
      rw [upsert, if_neg h, List.map_cons, ih]
      by_cases hm : k ∈ rest.map key
      · simp [hm]
      · simp [hm, hne]

theorem nodup_keys_upsert (hupdate : ∀ item, key (update item) = key item) (hnew : key new = k)
    (hd : (items.map key).Nodup) : ((upsert key k update new items).map key).Nodup := by
  rw [keys_upsert hupdate hnew]
  split
  · exact hd
  · next hk =>
    refine List.nodup_append.mpr ⟨hd, List.pairwise_singleton _ k, ?_⟩
    rintro a ha b hb rfl
    exact hk (List.mem_singleton.mp hb ▸ ha)

theorem mem_keys_upsert (hupdate : ∀ item, key (update item) = key item) (hnew : key new = k)
    {k' : κ} : k' ∈ (upsert key k update new items).map key ↔ k' = k ∨ k' ∈ items.map key := by
  rw [keys_upsert hupdate hnew]
  split
  · next hk =>
    refine ⟨.inr, fun h => h.elim (fun he => he ▸ hk) id⟩
  · rw [List.mem_append, List.mem_singleton, or_comm]

theorem mem_upsert_of_ne {item : α} (h : item ∈ items) (hne : key item ≠ k) :
    item ∈ upsert key k update new items := by
  induction items with
  | nil => cases h
  | cons first rest ih =>
    rw [upsert]
    rcases List.mem_cons.mp h with rfl | h
    · rw [if_neg hne]
      exact List.mem_cons_self ..
    · split
      · exact List.mem_cons_of_mem _ h
      · exact List.mem_cons_of_mem _ (ih h)

theorem update_mem_upsert {item : α} (hd : (items.map key).Nodup) (h : item ∈ items)
    (hk : key item = k) : update item ∈ upsert key k update new items := by
  induction items with
  | nil => cases h
  | cons first rest ih =>
    obtain ⟨hfirst, hrest⟩ := List.nodup_cons.mp hd
    rw [upsert]
    rcases List.mem_cons.mp h with rfl | h
    · rw [if_pos hk]
      exact List.mem_cons_self ..
    · have hne : key first ≠ k := fun he => hfirst ((he.trans hk.symm) ▸ List.mem_map_of_mem h)
      rw [if_neg hne]
      exact List.mem_cons_of_mem _ (ih hrest h)

theorem new_mem_upsert (h : ∀ item ∈ items, key item ≠ k) :
    new ∈ upsert key k update new items := by
  induction items with
  | nil => exact List.mem_singleton_self new
  | cons first rest ih =>
    rw [upsert, if_neg (h first (List.mem_cons_self ..))]
    exact List.mem_cons_of_mem _ (ih fun item hi => h item (List.mem_cons_of_mem _ hi))

theorem mem_upsert {item : α} (hd : (items.map key).Nodup)
    (h : item ∈ upsert key k update new items) :
    (item ∈ items ∧ key item ≠ k) ∨ (∃ old ∈ items, key old = k ∧ item = update old) ∨
      (item = new ∧ ∀ old ∈ items, key old ≠ k) := by
  induction items with
  | nil => exact .inr (.inr ⟨List.mem_singleton.mp h, nofun⟩)
  | cons first rest ih =>
    obtain ⟨hfirst, hrest⟩ := List.nodup_cons.mp hd
    rw [upsert] at h
    split at h
    · next hk =>
      rcases List.mem_cons.mp h with rfl | h
      · exact .inr (.inl ⟨first, List.mem_cons_self .., hk, rfl⟩)
      · refine .inl ⟨List.mem_cons_of_mem _ h, fun he => hfirst ?_⟩
        exact hk.trans he.symm ▸ List.mem_map_of_mem h
    · next hk =>
      rcases List.mem_cons.mp h with rfl | h
      · exact .inl ⟨List.mem_cons_self .., hk⟩
      · rcases ih hrest h with ⟨hm, hne⟩ | ⟨old, hm, ho⟩ | ⟨hnew, hnone⟩
        · exact .inl ⟨List.mem_cons_of_mem _ hm, hne⟩
        · exact .inr (.inl ⟨old, List.mem_cons_of_mem _ hm, ho⟩)
        · refine .inr (.inr ⟨hnew, fun old ho => ?_⟩)
          rcases List.mem_cons.mp ho with rfl | ho
          · exact hk
          · exact hnone old ho

theorem upsert_upsert {first : α → α} (hfirst : ∀ item, key (first item) = key item)
    (hnew : key new = k) (second : α → α) (other : α) (items : List α) :
    upsert key k second other (upsert key k first new items) =
      upsert key k (fun item => second (first item)) (second new) items := by
  induction items with
  | nil => simp [upsert, hnew]
  | cons item rest ih =>
    by_cases h : key item = k <;> simp [upsert, h, hfirst, ih]

end Accessors
